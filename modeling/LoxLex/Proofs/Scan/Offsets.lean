import LoxLex.Proofs.Scan.Memory
import LoxLex.Proofs.Scan.Scanner
import LoxLex.Proofs.Scan.Search
import LoxLex.Proofs.Scan.Yield

/-! # The scanner by offsets

In a call the scanner stands behind the text that it has taken for the piece, and its phase says
what that text is (`IsCalled`, `Fits`); between calls it stands where a cursor of the scan does
(`IsBetween`). A move from either finds its slices, and it returns behind the next piece or goes on
in the call with less ahead (`IsCalled.proceeds_move?`, `IsBetween.proceeds_call?`). A return is
always the same argument (`IsCalled.returned`): the text taken is that of a piece that leads, and a
text has only one. What follows for runs is in `Proofs/Scan/Calls`. -/

namespace LoxLex

/-! ### The next step of a cursor, by its piece -/

/-- The next step takes the one piece that leads, and keeps its slash in mind if a comment is opened
in vain. -/
theorem Cursor.StandsBehind.exists_next?_eq {source before rest : Text} {c : Cursor} {p : Piece}
    (h : c.StandsBehind source before) (hp : p.Leads rest) (htext : p.text ++ rest = c.rest) :
    ∃ s after, c.next? = some (s, after) ∧ s.unmarked = ⟨c.offset, c.line, p⟩ ∧
      after.rest = rest ∧
      after.barrenFrom =
        if c.searches = true ∧ p.OpensInVain rest then some (c.offset + 1) else c.barrenFrom := by
  obtain ⟨first, more, hcons⟩ :=
    List.exists_cons_of_ne_nil (List.append_ne_nil_of_left_ne_nil hp.text_ne_nil rest)
  have hnext : c.next? = some (⟨c.offset, c.line, (Piece.front c.searches first more).1⟩,
      c.after (Piece.front c.searches first more).1 (Piece.front c.searches first more).2) := by
    rw [next?, ← htext, hcons]
  obtain ⟨hpiece, hrest⟩ := (h.leads hnext).unique hp ((text_append_rest hnext).trans htext.symm)
  have hmark : (Piece.front c.searches first more).1.barren = true ↔
      c.searches = true ∧ p.OpensInVain rest := by
    rw [← hpiece, ← hrest]
    cases c.searches
    · simp [Piece.barren_front_false]
    · rw [Piece.barren_front_iff]
      exact (and_iff_right rfl).symm
  refine ⟨_, _, hnext, by rw [← hpiece]; rfl, hrest, ?_⟩
  rw [after]
  simp only [hmark]

namespace Scanner

variable {source before taken rest : Text} {m : Scanner} {c : Cursor} {done : List Step}
  {bound : Nat}

/-! ### Slices -/

/-- A scanner stands behind a text, the last part of which is that of its piece. -/
structure Stands (source before taken rest : Text) (m : Scanner) : Prop where
  text : before ++ taken ++ rest = source
  start : m.start = utf8Length before
  current : m.current = utf8Length (before ++ taken)

/-- The lexeme of a scanner is what it has taken: `m.lexeme? source = some taken`. -/
theorem Stands.lexeme?_eq (h : Stands source before taken rest m) :
    m.lexeme? source = some taken :=
  slice?_eq_some_iff.2 ⟨before, rest, h.text, h.start.symm, h.current.symm⟩

/-- From where a scanner is the rest of the source can be sliced off. -/
theorem Stands.sliceFrom?_eq (h : Stands source before taken rest m) :
    sliceFrom? source m.current = some rest :=
  sliceFrom?_eq_some_iff.2 ⟨before ++ taken, h.text, h.current.symm⟩

/-- The next character is the first of the rest. -/
theorem Stands.peek?_eq (h : Stands source before taken rest m) :
    m.peek? source = some rest.head? := by
  rw [peek?, h.sliceFrom?_eq, Option.map_some]

/-- The character after the next is the second of the rest. -/
theorem Stands.peekSecond?_eq (h : Stands source before taken rest m) :
    m.peekSecond? source = some rest.tail.head? := by
  rw [peekSecond?, h.sliceFrom?_eq, Option.map_some]

/-- A scanner is at the end of the source if there is no rest. -/
theorem Stands.atEnd_iff (h : Stands source before taken rest m) :
    m.atEnd source = true ↔ rest = [] := by
  rw [atEnd, decide_eq_true_iff, h.current, ← h.text, utf8Length_append _ rest,
    ← utf8Length_eq_zero_iff]
  omega

/-- A string without its quotes, which take one byte each. -/
theorem slice?_quoted (body : Text) :
    slice? ('"' :: body ++ ['"']) 1 (utf8Length ('"' :: body ++ ['"']) - 1) = some body := by
  refine slice?_eq_some_iff.2 ⟨['"'], ['"'], rfl, rfl, ?_⟩
  rw [utf8Length_append _ ['"']]
  rfl

/-! ### Between calls and in them -/

/-- What is left of the work of a scanner after some steps: all that it has found is theirs. -/
structure Records (source : Text) (done : List Step) (c : Cursor) (m : Scanner) : Prop where
  reachable : Cursor.Reachable source c
  behind : c.StandsBehind source (passed done)
  steps : (scan source).steps = done ++ c.steps
  barrenFrom : m.barrenFrom = c.barrenFrom
  tokens : m.tokens = done.filterMap Step.token?
  errors : m.errors = done.filterMap Step.error?

/-- **Between calls** a scanner stands where a cursor does. -/
structure IsBetween (source : Text) (done : List Step) (c : Cursor) (m : Scanner) : Prop
    extends Records source done c m where
  phase : m.phase = .between
  start : ∃ front lexeme, front ++ lexeme = passed done ∧ m.start = utf8Length front
  current : m.current = c.offset
  line : m.line = c.line
  calls : m.calls = done.length

/-- **In a call** a scanner stands behind the text that it has taken since. -/
structure IsCalled (source : Text) (done : List Step) (c : Cursor) (taken rest : Text)
    (m : Scanner) : Prop extends Records source done c m where
  text : taken ++ rest = c.rest
  start : m.start = c.offset
  startLine : m.startLine = c.line
  current : m.current = c.offset + utf8Length taken
  line : m.line = c.line + newlines taken
  calls : m.calls = done.length + 1

/-- **What has been taken** for a piece, phase by phase. -/
inductive Fits (c : Cursor) : Phase → Text → Text → Prop where
  | operator {first : Char} {alone withEqual : TokenKind} {rest : Text}
      (class_eq : CharClass.of first = .operator alone withEqual) :
      Fits c (.operator alone withEqual) [first] rest
  | slash {rest : Text} : Fits c .slash ['/'] rest
  | lineComment {body rest : Text} (inside : '\n' ∉ body) :
      Fits c .lineComment ('/' :: '/' :: body) rest
  /-- The end of the comment is not in what was searched. -/
  | blockComment {body rest : Text} (star : (body ++ rest).head? = some '*')
      (searches : c.searches = true)
      (ahead : closeEnd? (body ++ rest) = (closeEnd? rest).map (body.length + ·)) :
      Fits c (.blockComment (c.offset + 1) c.line) ('/' :: body) rest
  | closing {body rest : Text} (star : (body ++ closeMark).head? = some '*')
      (closes : ClosesAtEnd (body ++ closeMark)) :
      Fits c .closing ('/' :: (body ++ ['*'])) ('/' :: rest)
  | string {body rest : Text} (inside : '"' ∉ body) : Fits c .string ('"' :: body) rest
  | whole {taken rest : Text} (digits : IsDigits taken) : Fits c .whole taken rest
  /-- There are digits behind the point, here or still to come. -/
  | fraction {front back rest : Text} (digits : IsDigits front)
      (places : IsDigits (back ++ rest.takeWhile Char.isDigit)) :
      Fits c .fraction (front ++ '.' :: back) rest
  | word {first : Char} {back rest : Text} (class_eq : CharClass.of first = .letter)
      (inside : ∀ d ∈ back, isWordChar d = true) : Fits c .word (first :: back) rest

/-- What is ahead of a scanner in a call: it makes way with every move, but for the one that starts
to look for the end of a comment. -/
def weight (phase : Phase) (rest : Text) : Nat :=
  2 * rest.length + if phase = .slash then 1 else 0

/-- With less of the source in front of it a scanner has less ahead, whatever the phases. -/
theorem weight_lt {phase phase' : Phase} {rest' : Text} (h : rest'.length < rest.length) :
    weight phase' rest' < weight phase rest := by
  unfold weight
  split <;> omega

/-- **What a move leads to**, when a piece is called for where a cursor stands. -/
inductive Progress (source : Text) (done : List Step) (c : Cursor) (bound : Nat) (m : Scanner) :
    Prop where
  /-- The call goes on, with less ahead. -/
  | within {taken rest : Text} (called : IsCalled source done c taken rest m)
      (fits : Fits c m.phase taken rest) (lt : weight m.phase rest < bound)
  /-- The call returns where the next cursor stands. -/
  | returned {s : Step} {after : Cursor} (next : c.next? = some (s, after))
      (between : IsBetween source (done ++ [s]) after m)

/-- A move that does not fail, and what it leads to. -/
def Proceeds (source : Text) (done : List Step) (c : Cursor) (bound : Nat) (o : Option Scanner) :
    Prop :=
  ∃ next, o = some next ∧ Progress source done c bound next

/-! ### One character further -/

/-- A scanner is in the phase that it enters. -/
@[simp] theorem phase_enter (m : Scanner) (phase : Phase) : (m.enter phase).phase = phase := rfl

/-- A character counts for as many lines as it has line ends: `m.line + newlines [d]`. -/
theorem countLine_eq (m : Scanner) (d : Char) :
    m.countLine d = { m with line := m.line + newlines [d] } := by
  unfold countLine
  split
  next h =>
    rw [h]
    rfl
  next h =>
    have hnone : newlines [d] = 0 := List.count_eq_zero.2 (by simpa using Ne.symm h)
    rw [hnone, Nat.add_zero]

/-- Advancing leaves the phase. -/
@[simp] theorem phase_advance (m : Scanner) (d : Char) : (m.advance (some d)).phase = m.phase := rfl

/-- Counting a line leaves the phase. -/
@[simp] theorem phase_countLine (m : Scanner) (d : Char) : (m.countLine d).phase = m.phase := by
  rw [countLine_eq]

/-- Only a line end is counted: `m.countLine d = m` for any other character. -/
theorem countLine_of_ne {d : Char} (h : d ≠ '\n') (m : Scanner) : m.countLine d = m := if_neg h

/-- Whether a line is counted before its line end is passed or after makes no difference. -/
theorem countLine_advance (m : Scanner) (d : Char) :
    (m.countLine d).advance (some d) = (m.advance (some d)).countLine d := by
  rw [countLine_eq, countLine_eq]
  rfl

/-- In a call a scanner stands behind the steps done, with what it has taken since as its piece. -/
theorem IsCalled.stands (h : IsCalled source done c taken rest m) :
    Stands source (passed done) taken rest m where
  text := by rw [List.append_assoc, h.text, h.behind.text]
  start := by rw [h.start, h.behind.offset]
  current := by rw [h.current, h.behind.offset, utf8Length_append]

/-- Between calls a scanner stands in front of what the cursor has in front of it. -/
theorem IsBetween.stands (h : IsBetween source done c m) :
    ∃ front lexeme, Stands source front lexeme c.rest m := by
  obtain ⟨front, lexeme, heq, hstart⟩ := h.start
  exact ⟨front, lexeme, by rw [heq, h.behind.text], hstart, by rw [h.current, h.behind.offset, heq]⟩

/-- In whatever phase, a scanner in a call is in it. -/
theorem IsCalled.enter (h : IsCalled source done c taken rest m) (phase : Phase) :
    IsCalled source done c taken rest (m.enter phase) :=
  { h with }

/-- One character further, a scanner in a call has taken it: `taken ++ [d]`, with its line
counted. -/
theorem IsCalled.advance {d : Char} (h : IsCalled source done c taken (d :: rest) m) :
    IsCalled source done c (taken ++ [d]) rest ((m.advance (some d)).countLine d) := by
  rw [countLine_eq]
  exact { h with
    text := by rw [List.append_assoc, List.singleton_append, h.text]
    current := by
      show m.current + d.utf8Size = _
      rw [h.current, utf8Length_append, utf8Length_cons, utf8Length_nil, Nat.add_zero,
        Nat.add_assoc]
    line := by
      show m.line + newlines [d] = _
      rw [newlines_append, ← Nat.add_assoc, ← h.line] }

/-- One character further, a scanner in a call has taken it, and counts no line if it is no line
end. -/
theorem IsCalled.advance_of_ne {d : Char} (h : IsCalled source done c taken (d :: rest) m)
    (hd : d ≠ '\n') : IsCalled source done c (taken ++ [d]) rest (m.advance (some d)) := by
  have hnext := h.advance
  rwa [countLine_of_ne hd] at hnext

/-- A scanner that begins a call has taken nothing. -/
theorem IsBetween.called (h : IsBetween source done c m) :
    IsCalled source done c [] c.rest m.called :=
  { h with
    text := rfl
    start := h.current
    startLine := h.line
    calls := by rw [Scanner.called, h.calls] }

/-! ### Returning -/

/-- What is filtered from steps and one more is filtered from the steps, and from the one. -/
theorem filterMap_concat {β : Type} (f : Step → Option β) (done : List Step) (s : Step) :
    (done ++ [s]).filterMap f = done.filterMap f ++ (f s).toList := by
  rw [List.filterMap_append]
  cases h : f s <;> simp [h]

/-- **A call returns** behind the piece that leads, with what it yields. -/
theorem IsCalled.returned {p : Piece} {next : Scanner} (h : IsCalled source done c taken rest m)
    (hp : p.Leads rest) (htext : p.text = taken) (hphase : next.phase = .between)
    (hstart : next.start = m.start) (hcurrent : next.current = m.current)
    (hline : next.line = m.line) (hcalls : next.calls = m.calls)
    (hbarren : next.barrenFrom =
      if c.searches = true ∧ p.OpensInVain rest then some (c.offset + 1) else c.barrenFrom)
    (htokens : next.tokens = m.tokens ++ (p.yield c.line).tokens)
    (herrors : next.errors = m.errors ++ (p.yield c.line).errors) :
    Progress source done c bound next := by
  -- A text has one leading piece, so the step of the cursor takes the same one.
  obtain ⟨s, after, hnext, hs, hrest, hmark⟩ := h.behind.exists_next?_eq hp (htext ▸ h.text)
  have hpiece : s.piece.text = taken := by
    rw [← Piece.text_unmarked, ← htext]
    exact congrArg (fun s : Step => s.piece.text) hs
  have hpassed : passed (done ++ [s]) = passed done ++ s.piece.text := by simp
  have hbehind := h.behind.next hnext
  refine .returned hnext ⟨?records, hphase, ?start, ?current, ?line, ?calls⟩
  case records =>
    constructor
    case reachable => exact .next h.reachable hnext
    case behind => rwa [hpassed]
    case steps =>
      rw [h.steps, Cursor.steps_of_next?_eq_some hnext, List.append_assoc, List.singleton_append]
    case barrenFrom => rw [hbarren, hmark]
    case tokens =>
      have htoken := congrArg (fun s : Step => s.token?.toList) hs
      rw [htokens, h.tokens, filterMap_concat]
      exact congrArg _ htoken.symm
    case errors =>
      have herror := congrArg (fun s : Step => s.error?.toList) hs
      rw [herrors, h.errors, filterMap_concat]
      exact congrArg _ herror.symm
  case start => exact ⟨passed done, taken, by rw [hpassed, hpiece], by rw [hstart, h.stands.start]⟩
  case current => rw [hcurrent, h.stands.current, hbehind.offset, hpiece]
  case line =>
    rw [hline, h.line, h.behind.line, hbehind.line, hpiece, newlines_append, Nat.add_assoc]
  case calls =>
    rw [hcalls, h.calls, List.length_append]
    rfl

/-- Only a text of the class of the slash is a slash. -/
theorem ne_slash {first : Char} {back : Text} (h : CharClass.of first ≠ .slash) :
    first :: back ≠ ['/'] := by
  rintro heq
  obtain ⟨rfl, -⟩ := List.cons.inj heq
  exact h rfl

/-- A piece that is no slash leaves nothing to be kept in mind. -/
theorem not_opensInVain {p : Piece} (h : p.text ≠ ['/']) :
    ¬ (c.searches = true ∧ p.OpensInVain rest) :=
  fun hmark => h hmark.2.1

/-- A call returns with a token. -/
theorem IsCalled.proceeds_addToken? {kind : TokenKind} {literal : Literal}
    (h : IsCalled source done c taken rest m)
    (hp : Piece.Leads { item := .token kind literal, text := taken } rest)
    (hmark : ¬ (c.searches = true ∧
      Piece.OpensInVain { item := .token kind literal, text := taken } rest)) :
    Proceeds source done c bound (m.addToken? source kind literal) := by
  rw [addToken?, h.stands.lexeme?_eq]
  refine ⟨_, rfl, h.returned hp rfl rfl rfl rfl rfl rfl ?_ ?_ (List.append_nil _).symm⟩
  · rw [if_neg hmark]
    exact h.barrenFrom
  · rw [h.startLine]
    rfl

/-- A call returns with an error. -/
theorem IsCalled.progress_report {p : Piece} {e : LexicalError}
    (h : IsCalled source done c taken rest m) (hp : p.Leads rest) (htext : p.text = taken)
    (hmark : p.text ≠ ['/']) (hyield : p.yield c.line = ⟨[], [e]⟩) :
    Progress source done c bound (m.report e) := by
  refine h.returned hp htext rfl rfl rfl rfl rfl ?_ ?_ ?_
  · rw [if_neg (not_opensInVain hmark)]
    exact h.barrenFrom
  · rw [hyield]
    exact (List.append_nil _).symm
  · rw [hyield]
    rfl

/-- A call returns from a blank or a comment. -/
theorem IsCalled.progress_silent {p : Piece} (h : IsCalled source done c taken rest m)
    (hphase : m.phase = .between) (hp : p.Leads rest) (htext : p.text = taken)
    (hmark : p.text ≠ ['/']) (hsilent : p.item.isSilent = true) :
    Progress source done c bound m := by
  have hyield := Piece.yield_of_isSilent hsilent c.line
  refine h.returned hp htext hphase rfl rfl rfl rfl ?_ ?_ ?_
  · rw [if_neg (not_opensInVain hmark)]
    exact h.barrenFrom
  · rw [hyield]
    exact (List.append_nil _).symm
  · rw [hyield]
    exact (List.append_nil _).symm

/-! ### Moves in a call -/

/-- A call goes on past the next character. -/
theorem IsCalled.progress_advance {d : Char} {old phase : Phase}
    (h : IsCalled source done c taken (d :: rest) m) (hd : d ≠ '\n')
    (hfits : Fits c phase (taken ++ [d]) rest) :
    Progress source done c (weight old (d :: rest)) ((m.advance (some d)).enter phase) :=
  .within ((h.advance_of_ne hd).enter phase) hfits (weight_lt (Nat.lt_succ_self _))

/-- A run of characters goes on, or the move behind it is made. -/
theorem IsCalled.proceeds_while? {p : Char → Bool} {pass : Char → Scanner} {stop : Option Scanner}
    {phase : Phase} (h : IsCalled source done c taken rest m) (hphase : m.phase = phase)
    (hpass : ∀ d, p d = true → pass d = (m.advance (some d)).countLine d)
    (hfits : ∀ d more, rest = d :: more → p d = true → Fits c phase (taken ++ [d]) more)
    (hstop : Stops p rest → Proceeds source done c (weight phase rest) stop) :
    Proceeds source done c (weight phase rest) (m.while? source p pass stop) := by
  rw [while?, h.stands.peek?_eq, Option.bind_eq_bind, Option.bind_some]
  cases rest with
  | nil => exact hstop stops_nil
  | cons d more =>
    by_cases hd : p d = true
    · have hsome : (d :: more).head?.filter p = some d := by simp [hd]
      rw [hsome]
      refine ⟨_, rfl, ?_⟩
      rw [hpass d hd]
      refine .within h.advance ?_ (weight_lt (Nat.lt_succ_self _))
      rw [phase_countLine, phase_advance, hphase]
      exact hfits d more rfl hd
    · have hnone : (d :: more).head?.filter p = none := by simp [hd]
      rw [hnone]
      exact hstop (stops_cons.2 (by simpa using hd))

/-- A call returns with an operator, behind the `=` if one follows. -/
theorem IsCalled.proceeds_operator? {first : Char} {alone withEqual : TokenKind}
    (h : IsCalled source done c [first] rest m)
    (hclass : CharClass.of first = .operator alone withEqual) :
    Proceeds source done c bound (m.operator? source alone withEqual) := by
  rw [operator?, h.stands.peek?_eq, Option.bind_eq_bind, Option.bind_some]
  split
  next heq =>
    obtain ⟨more, rfl⟩ := List.head?_eq_some_iff.1 heq
    exact (h.advance_of_ne (by decide)).proceeds_addToken? (.operatorWithEqual hclass)
      (not_opensInVain (by simp))
  next hne =>
    have hstops : Stops (· == '=') rest := stops_of_forall_ne fun more hmore => hne (hmore ▸ rfl)
    exact h.proceeds_addToken? (.operatorAlone hclass hstops)
      (not_opensInVain (ne_slash (by simp [hclass])))

/-- A search is made where the scanner knows of none that failed. -/
theorem IsCalled.knowsBarren_eq (h : IsCalled source done c ['/'] rest m) :
    m.knowsBarren = !c.searches := by
  rw [knowsBarren, h.barrenFrom, h.current, Cursor.searches]
  cases c.barrenFrom with
  | none => rfl
  | some f =>
    show decide (f ≤ c.offset + 1) = !decide (c.offset + 1 < f)
    rw [← decide_not, decide_eq_decide, not_lt]

/-- Behind a slash a call goes on into a comment, or returns with the slash if there is none or no
search is made. -/
theorem IsCalled.proceeds_slash? (h : IsCalled source done c ['/'] rest m) :
    Proceeds source done c (weight .slash rest) (m.slash? source) := by
  rw [slash?, h.stands.peek?_eq, Option.bind_eq_bind, Option.bind_some]
  split
  next heq =>
    obtain ⟨more, rfl⟩ := List.head?_eq_some_iff.1 heq
    refine ⟨_, rfl, h.progress_advance (by decide) ?_⟩
    exact Fits.lineComment (by simp)
  next heq =>
    have hstops : Stops (· == '/') rest := stops_of_head?_eq heq rfl
    rw [h.knowsBarren_eq]
    cases hsearches : c.searches with
    | false =>
      refine h.proceeds_addToken? (.slash hstops fun _ hclose => ?_) (by simp [hsearches])
      -- A close mark would be one in all that is left.
      refine h.behind.not_infix hsearches (hclose.trans ?_)
      rw [← h.text]
      exact (List.suffix_append ['/'] rest).isInfix
    | true =>
      -- The search begins at the star: the scanner stays where it is and nothing is searched yet.
      refine ⟨_, rfl, .within (h.enter _) ?_ (by simp [weight])⟩
      rw [h.current, h.line]
      exact Fits.blockComment heq hsearches (by simp)
  next hline hblock =>
    have hstops : Stops (· == '/') rest :=
      stops_of_forall_ne fun more hmore => hline (hmore ▸ rfl)
    exact h.proceeds_addToken? (.slash hstops fun hstar => absurd hstar hblock)
      fun hmark => hblock hmark.2.2

/-- Without an end of the comment the scanner goes back behind the slash and returns with it. -/
theorem IsCalled.proceeds_rewound {body : Text} (h : IsCalled source done c ('/' :: body) [] m)
    (hstar : body.head? = some '*') (hsearches : c.searches = true)
    (hnone : ¬ closeMark <:+: body) :
    Proceeds source done c bound
      ((m.rewound (c.offset + 1) c.line).addToken? source .slash .absent) := by
  -- In the same call, it is as if the star had not been looked at.
  have hback : IsCalled source done c ['/'] body
      { m with current := c.offset + 1, line := c.line } :=
    { h with
      text := by simpa using h.text
      current := rfl
      line := rfl }
  have hlexeme : (m.rewound (c.offset + 1) c.line).lexeme? source = some ['/'] :=
    hback.stands.lexeme?_eq
  have hstops : Stops (· == '/') body := stops_of_head?_eq hstar rfl
  rw [addToken?, hlexeme]
  refine ⟨_, rfl, hback.returned (.slash hstops fun _ => hnone) rfl rfl rfl rfl rfl rfl ?_ ?_
    (List.append_nil _).symm⟩
  · rw [if_pos ⟨hsearches, rfl, hstar⟩]
    rfl
  · show m.tokens ++ [⟨_, _, _, m.startLine⟩] = _
    rw [h.startLine]
    rfl

/-- In a block comment a call goes on behind the next character, or to the second character of a
close mark; at the end of the source it returns behind the slash. -/
theorem IsCalled.proceeds_blockComment? {body : Text} {old : Phase}
    (h : IsCalled source done c ('/' :: body) rest m)
    (hphase : m.phase = .blockComment (c.offset + 1) c.line)
    (hstar : (body ++ rest).head? = some '*') (hsearches : c.searches = true)
    (hahead : closeEnd? (body ++ rest) = (closeEnd? rest).map (body.length + ·)) :
    Proceeds source done c (weight old rest) (m.blockComment? source (c.offset + 1) c.line) := by
  rw [blockComment?]
  cases rest with
  | nil =>
    -- All has been searched.
    rw [if_pos (h.stands.atEnd_iff.2 rfl)]
    rw [List.append_nil] at hstar hahead
    exact h.proceeds_rewound hstar hsearches (closeEnd?_eq_none_iff.1 hahead)
  | cons d more =>
    rw [if_neg (mt h.stands.atEnd_iff.1 (by simp)), h.stands.peek?_eq, h.stands.peekSecond?_eq]
    simp only [Option.bind_eq_bind, Option.bind_some, List.head?_cons, List.tail_cons]
    split
    next hclose =>
      -- A close mark begins here, and it is the first: the search of all the text ends with it.
      obtain ⟨rfl, hslash⟩ := hclose
      obtain ⟨behind, rfl⟩ := List.head?_eq_some_iff.1 hslash
      refine ⟨_, rfl, h.progress_advance (by decide) ?_⟩
      have hfound : closeEnd? (body ++ '*' :: '/' :: behind) = some (body.length + 2) := hahead
      have hcloses := closesAtEnd_of_closeEnd?_eq_some hfound
      have hsplit : body ++ '*' :: '/' :: behind = body ++ closeMark ++ behind := by
        rw [List.append_assoc]
        rfl
      have hlength : body.length + 2 = (body ++ closeMark).length := by
        rw [List.length_append]
        rfl
      rw [hsplit, hlength, List.take_left] at hcloses
      rw [List.head?_append] at hstar
      exact .closing (by rwa [List.head?_append]) hcloses
    next hopen =>
      have hmark : ¬ closeMark <+: d :: more := by
        rintro ⟨behind, heq⟩
        obtain ⟨rfl, rfl⟩ := List.cons.inj heq
        exact hopen ⟨rfl, rfl⟩
      have hsearched : closeEnd? (body ++ [d] ++ more) =
          (closeEnd? more).map ((body ++ [d]).length + ·) := by
        rw [List.append_assoc, List.singleton_append, hahead, closeEnd?_cons hmark, Option.map_map,
          List.length_append]
        congr 1
        funext n
        simp [Nat.add_assoc]
      refine ⟨_, rfl, .within h.advance ?_ (weight_lt (Nat.lt_succ_self _))⟩
      rw [phase_countLine, phase_advance, hphase]
      exact .blockComment (by simpa using hstar) hsearches hsearched

/-- At the second character of a close mark a call returns behind it. -/
theorem IsCalled.proceeds_closing? {body : Text}
    (h : IsCalled source done c ('/' :: (body ++ ['*'])) ('/' :: rest) m)
    (hstar : (body ++ closeMark).head? = some '*') (hcloses : ClosesAtEnd (body ++ closeMark)) :
    Proceeds source done c bound (m.closing? source) := by
  rw [closing?, h.stands.peek?_eq]
  refine ⟨_, rfl, ((h.advance_of_ne (by decide)).enter .between).progress_silent rfl
    (.blockComment hstar hcloses) ?_ ?_ rfl⟩
  · simp [closeMark]
  · simp [closeMark]

/-- At the end of a string a call returns behind the quote, or with an error if there is none. -/
theorem IsCalled.proceeds_closeString? {body : Text}
    (h : IsCalled source done c ('"' :: body) rest m) (hinside : '"' ∉ body)
    (hstops : Stops (· ≠ '"') rest) :
    Proceeds source done c bound (m.closeString? source) := by
  rw [closeString?]
  cases rest with
  | nil =>
    rw [if_pos (h.stands.atEnd_iff.2 rfl)]
    refine ⟨_, rfl, h.progress_report (.openString hinside) rfl (by simp) ?_⟩
    rw [h.line]
    rfl
  | cons d more =>
    obtain rfl : d = '"' := by simpa using stops_cons.1 hstops
    have hnext := h.advance_of_ne (d := '"') (by decide)
    rw [if_neg (mt h.stands.atEnd_iff.1 (by simp)), h.stands.peek?_eq]
    simp only [Option.bind_eq_bind, Option.bind_some, List.head?_cons, hnext.stands.lexeme?_eq,
      slice?_quoted]
    exact hnext.proceeds_addToken? (.string hinside) (not_opensInVain (by simp))

/-- A call returns with a number. -/
theorem IsCalled.proceeds_number? {n : Numeral} (h : IsCalled source done c taken rest m)
    (hn : Numeral.ofText? taken = some n)
    (hp : Piece.Leads { item := .token .number (.number n.value), text := taken } rest) :
    Proceeds source done c bound (m.number? source) := by
  have hslash : taken ≠ ['/'] := by
    rintro rfl
    contradiction
  rw [number?, h.stands.lexeme?_eq]
  simp only [Option.bind_eq_bind, Option.bind_some, hn]
  exact h.proceeds_addToken? hp (not_opensInVain hslash)

/-- Behind digits a call goes on past a point with a digit behind it, or returns with the number. -/
theorem IsCalled.proceeds_point? {old : Phase} (h : IsCalled source done c taken rest m)
    (hdigits : IsDigits taken) (hstops : Stops Char.isDigit rest) :
    Proceeds source done c (weight old rest) (m.point? source) := by
  rw [point?, h.stands.peek?_eq, h.stands.peekSecond?_eq]
  simp only [Option.bind_eq_bind, Option.bind_some]
  split
  next hpoint =>
    obtain ⟨more, rfl⟩ := List.head?_eq_some_iff.1 hpoint.1
    obtain ⟨d, hd, hdigit⟩ := (Option.any_eq_true ..).1 hpoint.2
    obtain ⟨behind, rfl⟩ := List.head?_eq_some_iff.1 hd
    refine ⟨_, rfl, h.progress_advance (by decide) ?_⟩
    exact .fraction hdigits (isDigits_takeWhile hdigit behind)
  next hnone =>
    refine h.proceeds_number? (ofText?_of_isDigits hdigits) (.whole hdigits hstops ?_)
    intro hpoint d hd
    refine eq_false_of_ne_true fun hdigit => hnone ⟨hpoint, ?_⟩
    exact (Option.any_eq_true ..).2 ⟨d, hd, hdigit⟩

/-- A call returns with a word. -/
theorem IsCalled.proceeds_word? {first : Char} {back : Text}
    (h : IsCalled source done c (first :: back) rest m) (hclass : CharClass.of first = .letter)
    (hinside : ∀ d ∈ back, isWordChar d = true) (hstops : Stops isWordChar rest) :
    Proceeds source done c bound (m.word? source) := by
  rw [word?, h.stands.lexeme?_eq]
  exact h.proceeds_addToken? (.word hclass hinside hstops)
    (not_opensInVain (ne_slash (by simp [hclass])))

/-- **A move in a call.** -/
theorem IsCalled.proceeds_move? (h : IsCalled source done c taken rest m)
    (hfits : Fits c m.phase taken rest) :
    Proceeds source done c (weight m.phase rest) (m.move? source) := by
  have hpass : ∀ d, d ≠ '\n' → (m.advance ∘ some) d = (m.advance (some d)).countLine d :=
    fun d hd => (countLine_of_ne hd _).symm
  have hdigit : ∀ d : Char, d.isDigit = true → d ≠ '\n' := by
    rintro d hd rfl
    contradiction
  rw [move?]
  generalize hphase : m.phase = phase at hfits
  cases hfits with
  | operator hclass => exact h.proceeds_operator? hclass
  | slash => exact h.proceeds_slash?
  | @lineComment body _ hinside =>
    refine h.proceeds_while? hphase (fun d hd => hpass d (of_decide_eq_true hd)) ?_ fun hstops => ?_
    · intro d more _ hd
      have hne : '\n' ∉ [d] := mt List.mem_singleton.1 (Ne.symm (of_decide_eq_true hd))
      exact .lineComment (List.not_mem_append hinside hne)
    · exact ⟨_, rfl, (h.enter .between).progress_silent rfl (.lineComment hinside hstops) rfl
        (by simp) rfl⟩
  | blockComment hstar hsearches hahead =>
    exact h.proceeds_blockComment? hphase hstar hsearches hahead
  | closing hstar hcloses => exact h.proceeds_closing? hstar hcloses
  | @string body _ hinside =>
    refine h.proceeds_while? hphase (fun d _ => countLine_advance m d) ?_ fun hstops =>
      h.proceeds_closeString? hinside hstops
    intro d more _ hd
    have hne : '"' ∉ [d] := mt List.mem_singleton.1 (Ne.symm (of_decide_eq_true hd))
    exact .string (List.not_mem_append hinside hne)
  | whole hdigits =>
    refine h.proceeds_while? hphase (fun d hd => hpass d (hdigit d hd)) ?_ fun hstops =>
      h.proceeds_point? hdigits hstops
    intro d more _ hd
    exact .whole (hdigits.append (by simpa using hd))
  | @fraction front back _ hdigits hplaces =>
    refine h.proceeds_while? hphase (fun d hd => hpass d (hdigit d hd)) ?_ fun hstops => ?_
    · -- A digit to come becomes one that has been taken.
      rintro d more rfl hd
      rw [List.takeWhile_cons_of_pos hd] at hplaces
      rw [List.append_assoc, List.cons_append]
      exact .fraction hdigits (by rwa [List.append_assoc])
    · have hnil : rest.takeWhile Char.isDigit = [] :=
        takeWhile_append_of_stops (t := []) nofun hstops
      rw [hnil, List.append_nil] at hplaces
      exact h.proceeds_number? (ofText?_of_isDigits_point hdigits hplaces)
        (.fraction hdigits hplaces hstops)
  | word hclass hinside =>
    refine h.proceeds_while? hphase (fun d hd => hpass d ?_) ?_ fun hstops =>
      h.proceeds_word? hclass hinside hstops
    · rintro rfl
      exact absurd hd (by decide)
    · intro d more _ hd
      exact .word hclass (List.forall_mem_append.2 ⟨hinside, by simpa using hd⟩)

/-- **The first move of a call.** -/
theorem IsBetween.proceeds_call? (h : IsBetween source done c m) (hrest : c.rest ≠ []) :
    Proceeds source done c (weight .between c.rest) (m.call? source) := by
  have hcalled := h.called
  obtain ⟨first, rest, hcons⟩ := List.exists_cons_of_ne_nil hrest
  rw [hcons] at hcalled ⊢
  rw [call?, hcalled.stands.peek?_eq]
  simp only [Option.bind_eq_bind, Option.bind_some, List.head?_cons]
  by_cases hblank : CharClass.of first = .blank
  · rw [hblank]
    have hphase : ((m.called.advance (some first)).countLine first).phase = .between := by
      rw [phase_countLine, phase_advance]
      exact h.phase
    exact ⟨_, rfl, hcalled.advance.progress_silent hphase (.blank hblank) rfl
      (ne_slash (by simp [hblank])) rfl⟩
  · have hne : first ≠ '\n' := by
      rintro rfl
      exact hblank rfl
    have hnext := hcalled.advance_of_ne hne
    have hwithin {phase : Phase} (hfits : Fits c phase [first] rest) :
        Proceeds source done c (weight .between (first :: rest))
          (some ((m.called.advance (some first)).enter phase)) :=
      ⟨_, rfl, hcalled.progress_advance hne hfits⟩
    cases hclass : CharClass.of first with
    | punctuation kind =>
      exact hnext.proceeds_addToken? (.punctuation hclass)
        (not_opensInVain (ne_slash (by simp [hclass])))
    | operator alone withEqual => exact hwithin (.operator hclass)
    | slash =>
      obtain rfl := Piece.eq_of_of_eq_slash hclass
      exact hwithin .slash
    | blank => contradiction
    | quote =>
      obtain rfl := Piece.eq_of_of_eq_quote hclass
      exact hwithin (Fits.string (by simp))
    | digit =>
      exact hwithin (.whole ⟨by simp, by simpa using Piece.isDigit_of_of_eq_digit hclass⟩)
    | letter => exact hwithin (.word hclass (by simp))
    | other =>
      refine ⟨_, rfl, hnext.progress_report (.stray hclass) rfl (ne_slash (by simp [hclass])) ?_⟩
      rw [hnext.line]
      rfl

end Scanner

end LoxLex
