import LoxLex.Proofs.Scan.Lines
import LoxLex.Proofs.Scan.Search

/-! # Comments that nothing closes

A step opens a comment where it begins at a slash with a star behind it. If no close mark follows,
the slash is a token and the star another. The first step of that sort looks for a close mark in
vain and is the one that the log tells of; from there on there is none, so no block comment is
passed over again and no search is made (`log_unclosedComment`). -/

namespace LoxLex

/-! ### Where steps begin -/

/-- Whether a step begins where the source goes on with `t`. -/
def Step.BeginsAt (source : Text) (s : Step) (t : Text) : Prop :=
  ∃ front, front ++ t = source ∧ s.offset = utf8Length front

/-- Whether a step begins at a slash with a star behind it. -/
def Step.OpensComment (source : Text) (s : Step) : Prop :=
  ∃ rest, s.BeginsAt source ('/' :: '*' :: rest)

/-- Whether a step begins at a slash with a star behind it, and from the star on there is no close
mark. -/
def Step.OpensUnclosed (source : Text) (s : Step) : Prop :=
  ∃ rest, s.BeginsAt source ('/' :: '*' :: rest) ∧ ¬ closeMark <:+: '*' :: rest

section

variable {source t : Text} {done more : List Step} {s : Step}

/-- From where a step begins, the source goes on with its piece and all that is behind it. -/
theorem beginsAt_iff (h : (scan source).steps = done ++ s :: more) :
    s.BeginsAt source t ↔ t = s.piece.text ++ passed more := by
  obtain ⟨htext, hoffset, -, -⟩ := of_steps_scan_eq h
  constructor
  · rintro ⟨front, hfront, hs⟩
    exact (eq_of_utf8Length_eq (hfront.trans htext.symm) (hs.symm.trans hoffset)).2
  · rintro rfl
    exact ⟨passed done, htext, hoffset⟩

/-! ### The piece of such a step -/

/-- A slash as a token. -/
def Piece.slashToken : Piece := { item := .token .slash .absent, text := ['/'] }

/-- A star as a token. -/
def Piece.starToken : Piece := { item := .token .star .absent, text := ['*'] }

/-- A slash leads a star with no close mark from there on. -/
theorem Piece.leads_slashToken {rest : Text} (h : ¬ closeMark <:+: '*' :: rest) :
    slashToken.Leads ('*' :: rest) :=
  .slash (stops_cons.2 rfl) fun _ => h

/-- A star leads whatever is behind it. -/
theorem Piece.leads_starToken (rest : Text) : starToken.Leads rest := .punctuation rfl

/-- At a slash with a star behind it, and no close mark from there on, stands a slash as a token. -/
theorem unmarked_eq_slashToken (h : (scan source).steps = done ++ s :: more) {rest : Text}
    (hbegins : s.BeginsAt source ('/' :: '*' :: rest)) (hnone : ¬ closeMark <:+: '*' :: rest) :
    s.piece.unmarked = Piece.slashToken ∧ passed more = '*' :: rest := by
  obtain ⟨-, -, -, hleads⟩ := of_steps_scan_eq h
  exact hleads.unique (Piece.leads_slashToken hnone) ((beginsAt_iff h).1 hbegins).symm

/-- A step opens a comment that nothing closes if its piece opens one in vain. -/
theorem opensUnclosed_iff (h : (scan source).steps = done ++ s :: more) :
    s.OpensUnclosed source ↔ s.piece.OpensInVain (passed more) := by
  constructor
  · rintro ⟨rest, hbegins, hnone⟩
    obtain ⟨hpiece, hmore⟩ := unmarked_eq_slashToken h hbegins hnone
    rw [Piece.OpensInVain, ← Piece.text_unmarked, hpiece, hmore]
    exact ⟨rfl, rfl⟩
  · intro hvain
    obtain ⟨-, -, -, hleads⟩ := of_steps_scan_eq h
    have hnone : ¬ closeMark <:+: passed more := hleads.not_closeMark_infix_behind hvain
    obtain ⟨hslash, hstar⟩ := hvain
    obtain ⟨rest, hrest⟩ := List.head?_eq_some_iff.1 hstar
    rw [hrest] at hnone
    exact ⟨rest, (beginsAt_iff h).2 (by rw [hslash, hrest]; rfl), hnone⟩

/-- Behind a step and in front of a star stands a star as a token, on the line where the step
ends. -/
theorem exists_starToken (h : (scan source).steps = done ++ s :: more) {rest : Text}
    (hmore : passed more = '*' :: rest) :
    ∃ star behind, more = star :: behind ∧ star.piece.unmarked = Piece.starToken ∧
      star.line = s.endLine := by
  cases more with
  | nil => simp at hmore
  | cons star behind =>
    obtain ⟨-, -, hs, -⟩ := of_steps_scan_eq h
    rw [List.append_cons] at h
    obtain ⟨-, -, hstar, hleads⟩ := of_steps_scan_eq h
    have heq : star.piece.text ++ passed behind = Piece.starToken.text ++ rest := hmore
    refine ⟨star, behind, rfl, (hleads.unique (Piece.leads_starToken rest) heq).1, ?_⟩
    rw [hstar, Step.endLine, hs, passed_append, passed_cons, passed_nil, List.append_nil,
      newlines_append, Nat.add_assoc]

end

/-! ### The first of them -/

/-- The mark is set on the first piece that opens a comment in vain. -/
theorem exists_first_of_not_settled {ps : List Piece} (h : ¬ Settled ps) :
    ∃ before p behind, ps = before ++ p :: behind ∧ p.OpensInVain (joined behind) ∧
      marked ps = before ++ { p with barren := true } :: behind ∧
      ∀ front q between, before = front ++ q :: between →
        ¬ q.OpensInVain (joined (between ++ p :: behind)) := by
  induction ps with
  | nil => exact absurd trivial h
  | cons q ps ih =>
    by_cases hvain : q.OpensInVain (joined ps)
    · refine ⟨[], q, ps, rfl, hvain, ?_, ?_⟩
      · rw [marked, if_pos hvain]
        rfl
      · intro front r between heq
        simp at heq
    · have hps : ¬ Settled ps := fun hsettled => h ⟨hvain, hsettled⟩
      obtain ⟨before, p, behind, rfl, hp, hmarked, hbefore⟩ := ih hps
      refine ⟨q :: before, p, behind, rfl, hp, ?_, ?_⟩
      · rw [marked, if_neg hvain, hmarked]
        rfl
      · intro front r between heq
        cases front with
        | nil =>
          obtain ⟨rfl, rfl⟩ := List.cons.inj heq
          exact hvain
        | cons _ front => exact hbefore front r between (List.cons.inj heq).2

/-- Among settled pieces none opens a comment in vain. -/
theorem Settled.not_opensInVain {before behind : List Piece} {p : Piece}
    (h : Settled (before ++ p :: behind)) : ¬ p.OpensInVain (joined behind) := by
  induction before with
  | nil => exact h.1
  | cons q before ih => exact ih h.2

/-- No more than one piece is marked. -/
theorem countP_barren_marked_le {ps : List Piece} (h : ∀ p ∈ ps, p.barren = false) :
    (marked ps).countP Piece.barren ≤ 1 := by
  induction ps with
  | nil => simp [marked]
  | cons p ps ih =>
    obtain ⟨hp, hps⟩ := List.forall_mem_cons.1 h
    have hnone : ps.countP Piece.barren = 0 := List.countP_eq_zero.2 (by simpa using hps)
    by_cases hvain : p.OpensInVain (joined ps)
    · rw [marked, if_pos hvain, List.countP_cons_of_pos rfl, hnone]
    · rw [marked, if_neg hvain, List.countP_cons_of_neg (by simp [hp])]
      exact ih hps

/-! ### What is logged -/

/-- Whether an event tells of a search that failed. -/
def LogEvent.isUnclosedComment : LogEvent → Bool
  | unclosedComment _ => true
  | _ => false

/-- What steps log. -/
def logged (steps : List Step) : List LogEvent :=
  (steps.flatMap Step.entries).filterMap Entry.event?

/-- `logged [] = []`. -/
@[simp] theorem logged_nil : logged [] = [] := rfl

/-- Steps log what the first logs, and what the others do. -/
theorem logged_cons (s : Step) (steps : List Step) :
    logged (s :: steps) = s.entries.filterMap Entry.event? ++ logged steps := by
  rw [logged, List.flatMap_cons, List.filterMap_append]
  rfl

/-- What a concatenation logs: `logged (done ++ more) = logged done ++ logged more`. -/
theorem logged_append (done more : List Step) :
    logged (done ++ more) = logged done ++ logged more := by
  rw [logged, List.flatMap_append, List.filterMap_append]
  rfl

/-- The log of a scan is what its steps log, and the end of the scan. -/
theorem log_eq (s : Scan) :
    s.log = logged s.steps ++ [.scanned s.stop.offset s.tokens.length s.errors.length] := by
  rw [Scan.log, Scan.trace, List.filterMap_append]
  rfl

/-- A step logs a search that failed if its piece bears a mark, and then its token or error. -/
theorem countP_entries (s : Step) :
    (s.entries.filterMap Entry.event?).countP LogEvent.isUnclosedComment =
      if s.piece.barren then 1 else 0 := by
  obtain ⟨offset, line, item, text, barren⟩ := s
  cases barren <;> cases item <;> rfl

/-- As many searches are logged as pieces bear a mark. -/
theorem countP_logged (steps : List Step) :
    (logged steps).countP LogEvent.isUnclosedComment =
      (steps.map Step.piece).countP Piece.barren := by
  induction steps with
  | nil => rfl
  | cons s steps ih =>
    rw [logged_cons, List.countP_append, countP_entries, ih, List.map_cons, List.countP_cons,
      Nat.add_comm]

/-- A step that takes a token without a mark logs that token. -/
theorem entries_of_unmarked_eq {s : Step} {kind : TokenKind} {lexeme : Text}
    (h : s.piece.unmarked = { item := .token kind .absent, text := lexeme })
    (hbarren : s.piece.barren = false) :
    s.entries = [.event (.token ⟨kind, lexeme, .absent, s.line⟩)] := by
  obtain ⟨offset, line, item, text, barren⟩ := s
  obtain ⟨rfl, rfl, -⟩ := Piece.mk.inj h
  obtain rfl : barren = false := hbarren
  rfl

/-- A step that takes a slash with a mark logs a search that failed, and the slash. -/
theorem entries_of_barren {s : Step} (h : s.piece.unmarked = Piece.slashToken)
    (hbarren : s.piece.barren = true) :
    s.entries = [.event (.unclosedComment s.line),
      .event (.token ⟨.slash, ['/'], .absent, s.line⟩)] := by
  obtain ⟨offset, line, item, text, barren⟩ := s
  obtain ⟨rfl, rfl, -⟩ := Piece.mk.inj h
  obtain rfl : barren = true := hbarren
  rfl

/-! ### Behind the first of them -/

/-- **The first comment that nothing closes.** In the scan of `source` behind the steps `done`, the
step `s` is the first to open a comment that nothing closes, and the steps `more` are behind it. -/
structure FirstUnclosed (source : Text) (done : List Step) (s : Step) (more : List Step) :
    Prop where
  steps : (scan source).steps = done ++ s :: more
  opens : s.OpensUnclosed source
  first : ∀ d ∈ done, ¬ d.OpensUnclosed source
  /-- Its line is that of its slash. -/
  line : s.line = lineBehind (passed done)
  /-- The search that fails is logged behind what the steps before it log, and in front of a slash
  and a star on that line. -/
  log : ∃ behind, (scan source).log = logged done ++ .unclosedComment s.line ::
    .token ⟨.slash, ['/'], .absent, s.line⟩ :: .token ⟨.star, ['*'], .absent, s.line⟩ :: behind
  /-- Whatever opens a comment further on is a slash and a star, and nothing else is logged. -/
  slashes : ∀ between later behind, more = between ++ later :: behind →
    later.OpensComment source → ∃ star rest, behind = star :: rest ∧
      later.entries = [.event (.token ⟨.slash, ['/'], .absent, later.line⟩)] ∧
      star.entries = [.event (.token ⟨.star, ['*'], .absent, later.line⟩)]
  /-- No block comment is passed over further on. -/
  comments : ∀ later ∈ more, later.piece.item ≠ .blockComment

section

variable {source : Text} {done more : List Step} {s : Step}

/-- A block comment is passed over only where there is a close mark. -/
theorem Piece.Leads.closeMark_infix_text {p : Piece} {behind : Text} (h : p.Leads behind)
    (hitem : p.item = .blockComment) : closeMark <:+: p.text := by
  cases h with
  | blockComment hstar hcloses => exact hcloses.1.isInfix.trans (List.suffix_cons ..).isInfix
  | _ => contradiction

/-- A slash is on the line where it ends. -/
theorem Step.endLine_of_slashToken (h : s.piece.unmarked = Piece.slashToken) :
    s.endLine = s.line := by
  rw [endLine, ← Piece.text_unmarked, h]
  rfl

/-- What a step and those behind it pass over ends what those before pass over too. -/
theorem suffix_passed (between : List Step) (s : Step) (behind : List Step) :
    s.piece.text ++ passed behind <:+ passed (between ++ s :: behind) := by
  rw [passed_append, passed_cons]
  exact List.suffix_append ..

/-- Where a search fails, the log tells of it, and then of a slash and a star. -/
theorem log_of_barren (h : (scan source).steps = done ++ s :: more)
    (hopens : s.OpensUnclosed source) (hbarren : s.piece.barren = true)
    (hmore : ∀ later ∈ more, later.piece.barren = false) :
    ∃ behind, (scan source).log = logged done ++ .unclosedComment s.line ::
      .token ⟨.slash, ['/'], .absent, s.line⟩ :: .token ⟨.star, ['*'], .absent, s.line⟩ ::
        behind := by
  obtain ⟨rest, hbegins, hnone⟩ := hopens
  obtain ⟨hslash, hrest⟩ := unmarked_eq_slashToken h hbegins hnone
  obtain ⟨star, behind, rfl, hstar, hline⟩ := exists_starToken h hrest
  have hlog := log_eq (scan source)
  rw [h, logged_append, logged_cons, logged_cons, entries_of_barren hslash hbarren,
    entries_of_unmarked_eq hstar (hmore star (List.mem_cons_self ..)), hline,
    Step.endLine_of_slashToken hslash, List.append_assoc] at hlog
  exact ⟨_, hlog⟩

/-- Where there is no close mark further on and no step bears a mark, whatever opens a comment is a
slash and a star, and nothing else is logged. -/
theorem entries_of_opensComment (h : (scan source).steps = done ++ s :: more)
    (hnone : ¬ closeMark <:+: s.piece.text ++ passed more)
    (hbarren : ∀ d ∈ s :: more, d.piece.barren = false) (hopens : s.OpensComment source) :
    ∃ star rest, more = star :: rest ∧
      s.entries = [.event (.token ⟨.slash, ['/'], .absent, s.line⟩)] ∧
      star.entries = [.event (.token ⟨.star, ['*'], .absent, s.line⟩)] := by
  obtain ⟨hs, hmore⟩ := List.forall_mem_cons.1 hbarren
  obtain ⟨rest, hbegins⟩ := hopens
  have htext : '/' :: '*' :: rest = s.piece.text ++ passed more := (beginsAt_iff h).1 hbegins
  rw [← htext] at hnone
  have hrest : ¬ closeMark <:+: '*' :: rest := by
    intro hmark
    exact hnone (hmark.trans (List.suffix_cons ..).isInfix)
  obtain ⟨hslash, hstar⟩ := unmarked_eq_slashToken h hbegins hrest
  obtain ⟨star, behind, rfl, hpiece, hline⟩ := exists_starToken h hstar
  refine ⟨star, behind, rfl, entries_of_unmarked_eq hslash hs, ?_⟩
  rw [entries_of_unmarked_eq hpiece (hmore star (List.mem_cons_self ..)), hline,
    Step.endLine_of_slashToken hslash]

/-- From a step on that bears the one mark, all is as `FirstUnclosed` says. -/
theorem firstUnclosed_of_barren (h : (scan source).steps = done ++ s :: more)
    (hopens : s.OpensUnclosed source) (hfirst : ∀ d ∈ done, ¬ d.OpensUnclosed source)
    (hbarren : s.piece.barren = true) (hmore : ∀ later ∈ more, later.piece.barren = false) :
    FirstUnclosed source done s more := by
  obtain ⟨-, -, hline, hleads⟩ := of_steps_scan_eq h
  have hnone : ¬ closeMark <:+: passed more :=
    hleads.not_closeMark_infix_behind ((opensUnclosed_iff h).1 hopens)
  constructor
  case steps => exact h
  case opens => exact hopens
  case first => exact hfirst
  case line => exact hline
  case log => exact log_of_barren h hopens hbarren hmore
  case slashes =>
    rintro between later behind rfl hlater
    rw [← List.cons_append, ← List.append_assoc] at h
    refine entries_of_opensComment h ?_ ?_ hlater
    · intro hmark
      exact hnone (hmark.trans (suffix_passed between later behind).isInfix)
    · intro d hd
      exact hmore d (List.mem_append_right _ hd)
  case comments =>
    intro later hlater hitem
    obtain ⟨between, behind, rfl⟩ := List.append_of_mem hlater
    rw [← List.cons_append, ← List.append_assoc] at h
    obtain ⟨-, -, -, hcomment⟩ := of_steps_scan_eq h
    have hmark : closeMark <:+: later.piece.text := hcomment.closeMark_infix_text hitem
    have hinside := hmark.trans (List.prefix_append _ (passed behind)).isInfix
    exact hnone (hinside.trans (suffix_passed between later behind).isInfix)

/-- If a search fails, it does so at the first step that opens a comment that nothing closes. -/
theorem exists_firstUnclosed (h : (scan source).SearchFails) :
    ∃ done s more, FirstUnclosed source done s more := by
  obtain ⟨before, p, behind, hpieces, hp, hmarked, hbefore⟩ :=
    exists_first_of_not_settled ((searchFails_scan_iff source).1 h)
  rw [← map_piece_steps_scan] at hmarked
  obtain ⟨done, left, hsteps, rfl, hleft⟩ := List.map_eq_append_iff.1 hmarked
  obtain ⟨s, more, rfl, hs, rfl⟩ := List.map_eq_cons_iff.1 hleft
  have hbarren : ∀ later ∈ more, later.piece.barren = false := by
    intro later hlater
    have hmem : later.piece ∈ pieces source := by
      rw [hpieces]
      simp [List.mem_map_of_mem hlater]
    exact barren_of_mem_pieces hmem
  refine ⟨done, s, more, firstUnclosed_of_barren hsteps ?_ ?_ (by rw [hs]) hbarren⟩
  · rw [opensUnclosed_iff hsteps, hs, ← joined_map_piece]
    exact hp
  · intro d hd
    obtain ⟨front, between, rfl⟩ := List.append_of_mem hd
    have hd' : (scan source).steps = front ++ d :: (between ++ s :: more) := by
      rw [hsteps, List.append_assoc, List.cons_append]
    have htext : joined (between.map Step.piece ++ p :: more.map Step.piece) =
        passed (between ++ s :: more) := by
      rw [joined_append, joined_cons, joined_map_piece, joined_map_piece, passed_append,
        passed_cons, hs]
    rw [opensUnclosed_iff hd', ← htext]
    exact hbefore _ _ _ (List.map_append ..)

end

/-- **At most one search fails, and the log says where.** The log of a scan holds one event of a
search that failed if a step opens a comment that nothing closes, and none otherwise. The event
stands in the log where the first such step does: a slash and a star on its line come next, and
behind it no comment is searched for its end or passed over. -/
theorem log_unclosedComment (source : Text) :
    (scan source).log.countP LogEvent.isUnclosedComment ≤ 1 ∧
      ((∃ line, LogEvent.unclosedComment line ∈ (scan source).log) ↔
        ∃ s ∈ (scan source).steps, s.OpensUnclosed source) ∧
      ((∃ s ∈ (scan source).steps, s.OpensUnclosed source) →
        ∃ done s more, FirstUnclosed source done s more) := by
  have hiff : (scan source).SearchFails ↔
      ∃ s ∈ (scan source).steps, s.OpensUnclosed source := by
    constructor
    · intro h
      obtain ⟨done, s, more, hs⟩ := exists_firstUnclosed h
      exact ⟨s, by rw [hs.steps]; simp, hs.opens⟩
    · rintro ⟨s, hs, hopens⟩
      rw [searchFails_scan_iff]
      intro hsettled
      obtain ⟨done, more, hsteps⟩ := List.append_of_mem hs
      have hvain : s.piece.OpensInVain (passed more) := (opensUnclosed_iff hsteps).1 hopens
      rw [← map_unmarked_piece_steps_scan, hsteps, List.map_append, List.map_cons] at hsettled
      apply hsettled.not_opensInVain
      rwa [joined_map_unmarked_piece]
  refine ⟨?_, hiff, fun h => exists_firstUnclosed (hiff.2 h)⟩
  rw [log_eq, List.countP_append, countP_logged, map_piece_steps_scan]
  exact countP_barren_marked_le fun _ => barren_of_mem_pieces

end LoxLex
