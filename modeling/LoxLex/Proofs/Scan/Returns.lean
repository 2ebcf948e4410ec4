import LoxLex.Proofs.Scan.Lines
import LoxLex.Proofs.Scan.Yield
import LoxLex.Proofs.Text.Returns

/-! # Sources with returns in front of line ends

A source has the same tokens and errors with and without the returns in front of its line ends, but
for those returns in strings (`scan_dropReturns`). Each piece keeps its place (`Leads.dropReturns`),
since no piece looks for a line end, nor for anything that a return keeps apart from one; only a
return that is a piece itself goes, and one at the end of a line comment goes out of it. -/

namespace LoxLex

/-! ### Close marks -/

section

variable {t u v : Text}

/-- A close mark has been there before. -/
theorem exists_closeMark_of_dropReturns_eq (h : t.dropReturns = u ++ closeMark ++ v) :
    ∃ s w, t = s ++ closeMark ++ w ∧ Text.dropReturns s = u ∧ Text.dropReturns w = v := by
  rw [List.append_assoc] at h
  obtain ⟨s, mark, rfl, hs, hmark⟩ := Text.exists_of_dropReturns_eq_append h (by simp [closeMark])
  obtain ⟨slash, rfl, hslash⟩ := Text.exists_of_dropReturns_eq_cons hmark (by decide)
  obtain ⟨w, rfl, hw⟩ := Text.exists_of_dropReturns_eq_cons hslash (by decide)
  exact ⟨s, w, by simp [closeMark], hs, hw⟩

/-- A close mark in a text without returns in front of line feeds is one in the text. -/
theorem infix_of_infix_dropReturns (h : closeMark <:+: t.dropReturns) : closeMark <:+: t := by
  obtain ⟨u, v, heq⟩ := h
  obtain ⟨s, w, rfl, -, -⟩ := exists_closeMark_of_dropReturns_eq heq.symm
  exact ⟨s, w, rfl⟩

/-- A text that closes at its end does so without returns. -/
theorem ClosesAtEnd.dropReturns (h : ClosesAtEnd t) : ClosesAtEnd t.dropReturns := by
  obtain ⟨⟨body, rfl⟩, honly⟩ := h
  constructor
  · refine ⟨Text.dropReturns body, ?_⟩
    rw [Text.dropReturns_append fun _ => by simp [closeMark]]
    rfl
  · intro u v heq
    obtain ⟨s, w, hsplit, -, hw⟩ := exists_closeMark_of_dropReturns_eq heq
    rw [← hw, honly s w hsplit, Text.dropReturns_nil]

end

/-! ### Tokens and pieces without returns -/

/-- A value without the returns in front of line ends. -/
def Literal.dropReturns : Literal → Literal
  | text t => text t.dropReturns
  | l => l

/-- A token without the returns in front of line ends. -/
def Token.dropReturns (t : Token) : Token :=
  { t with lexeme := t.lexeme.dropReturns, literal := t.literal.dropReturns }

/-- The same yield without the returns in front of line ends. -/
def Yield.dropReturns (y : Yield) : Yield := ⟨y.tokens.map Token.dropReturns, y.errors⟩

/-- Returns are dropped from two yields as from each. -/
theorem Yield.dropReturns_append (y z : Yield) :
    (y ++ z).dropReturns = y.dropReturns ++ z.dropReturns := by
  ext1
  · exact List.map_append
  · rfl

namespace Piece

/-- A piece without the returns in front of line ends. -/
def dropReturns (p : Piece) : Piece where
  item :=
    match p.item with
    | .token kind literal => .token kind literal.dropReturns
    | item => item
  text := p.text.dropReturns

variable {p : Piece} {behind : Text}

/-- A piece overlooks that the text behind it loses returns in front of line ends. -/
theorem overlooks_dropReturns (p : Piece) (behind : Text) :
    p.Overlooks behind behind.dropReturns := by
  constructor
  case run =>
    intro q hq hstops
    refine Text.stops_dropReturns ?_ hstops
    exact Bool.eq_false_iff.2 (List.any_eq_false.1 (any_blank_of_mem_sought hq) '\n' (by simp))
  case lineEnd =>
    intro _ hstops
    exact Text.stops_lineEnd_dropReturns hstops
  case point =>
    intro hpoint hhead
    obtain ⟨more, hmore⟩ := List.head?_eq_some_iff.1 hhead
    obtain ⟨rest, rfl, hrest⟩ := Text.exists_of_dropReturns_eq_cons hmore (by decide)
    rw [hmore, List.tail_cons, ← hrest]
    exact Text.stops_dropReturns rfl (hpoint rfl)
  case mark =>
    intro _ hunclosed hstar hmark
    obtain ⟨more, hmore⟩ := List.head?_eq_some_iff.1 hstar
    have hinside : closeMark <:+: behind := infix_of_infix_dropReturns hmark
    obtain ⟨rest, rfl, -⟩ := Text.exists_of_dropReturns_eq_cons hmore (by decide)
    exact hunclosed rfl hinside
  case stop =>
    rintro _ rfl
    rfl

/-- A text of other characters than line ends is left alone. -/
theorem dropReturns_of_forall {t : Text} {q : Char → Bool} (hq : q '\n' = false)
    (h : ∀ c ∈ t, q c = true) : t.dropReturns = t := by
  apply Text.dropReturns_of_not_mem
  intro hmem
  have htrue := h '\n' hmem
  rw [hq] at htrue
  contradiction

/-- A piece leads the text behind it without the returns in the piece. -/
theorem Leads.dropReturns_text (h : p.Leads behind) : p.dropReturns.Leads behind := by
  -- One rule after the other: the text of the piece is the same, unless it may hold line ends.
  cases h with
  | @punctuation c _ _ hc =>
    simp only [Piece.dropReturns, Text.dropReturns_singleton c]
    exact .punctuation hc
  | @operatorAlone c _ _ _ hc hstops =>
    simp only [Piece.dropReturns, Text.dropReturns_singleton c]
    exact .operatorAlone hc hstops
  | @operatorWithEqual c alone withEqual _ hc =>
    have htext : Text.dropReturns [c, '='] = [c, '='] :=
      (Text.dropReturns_cons fun h => absurd h.2 (by decide)).trans (by simp)
    simp only [Piece.dropReturns, htext]
    exact .operatorWithEqual hc
  | slash hstops hunclosed => exact .slash hstops hunclosed
  | @lineComment body _ hinside hstops =>
    have htext : Text.dropReturns ('/' :: '/' :: body) = '/' :: '/' :: body :=
      Text.dropReturns_of_not_mem (by simpa using hinside)
    simp only [Piece.dropReturns, htext]
    exact .lineComment hinside hstops
  | @blockComment body _ hstar hcloses =>
    have htext : Text.dropReturns ('/' :: body) = '/' :: body.dropReturns :=
      Text.dropReturns_cons_of_ne (by decide)
    have hstar' : body.dropReturns.head? = some '*' := by
      obtain ⟨rest, rfl⟩ := List.head?_eq_some_iff.1 hstar
      rw [Text.dropReturns_cons_of_ne (by decide)]
      rfl
    simp only [Piece.dropReturns, htext]
    exact .blockComment hstar' hcloses.dropReturns
  | @blank c _ hc =>
    simp only [Piece.dropReturns, Text.dropReturns_singleton c]
    exact .blank hc
  | @string body _ hinside =>
    have htext : Text.dropReturns ('"' :: (body ++ ['"'])) =
        '"' :: (body.dropReturns ++ ['"']) := by
      rw [Text.dropReturns_cons_of_ne (by decide), Text.dropReturns_append fun _ => by simp,
        Text.dropReturns_singleton]
    simp only [Piece.dropReturns, htext]
    exact .string fun hmem => hinside ((Text.dropReturns_sublist body).subset hmem)
  | @openString body hinside =>
    have htext : Text.dropReturns ('"' :: body) = '"' :: body.dropReturns :=
      Text.dropReturns_cons_of_ne (by decide)
    simp only [Piece.dropReturns, htext]
    exact .openString fun hmem => hinside ((Text.dropReturns_sublist body).subset hmem)
  | @whole t _ hdigits hstops hpoint =>
    have htext : t.dropReturns = t := dropReturns_of_forall rfl hdigits.2
    simp only [Piece.dropReturns, htext]
    exact .whole hdigits hstops hpoint
  | @fraction t u _ hdigits hplaces hstops =>
    have htext : Text.dropReturns (t ++ '.' :: u) = t ++ '.' :: u := by
      rw [Text.dropReturns_append fun _ => by simp, Text.dropReturns_cons_of_ne (by decide),
        dropReturns_of_forall rfl hdigits.2, dropReturns_of_forall rfl hplaces.2]
    simp only [Piece.dropReturns, htext]
    exact .fraction hdigits hplaces hstops
  | @word c t _ hc hinside hstops =>
    have hall : ∀ d ∈ c :: t, isWordChar d = true :=
      List.forall_mem_cons.2 ⟨by simp [isWordChar, isAlpha_of_of_eq_letter hc], hinside⟩
    have htext : Text.dropReturns (c :: t) = c :: t := dropReturns_of_forall rfl hall
    simp only [Piece.dropReturns, htext]
    exact .word hc hinside hstops
  | @stray c _ hc =>
    simp only [Piece.dropReturns, Text.dropReturns_singleton c]
    exact .stray hc

/-- **Pieces keep their places.** What leads a text does so without returns in front of line
ends. -/
theorem Leads.dropReturns (h : p.Leads behind) : p.dropReturns.Leads behind.dropReturns :=
  h.dropReturns_text.of_overlooks (overlooks_dropReturns p.dropReturns behind)

/-- A piece yields the same without the returns in it. -/
theorem Leads.yield_dropReturns (h : p.Leads behind) (line : Nat) :
    p.dropReturns.yield line = (p.yield line).dropReturns := by
  have hlines : newlines p.text.dropReturns = newlines p.text := Text.newlines_dropReturns p.text
  cases h with
  | stray | openString =>
    simp only [Piece.yield, Step.error?, Step.endLine, Piece.dropReturns, hlines]
    rfl
  | _ => rfl

/-- A return at the end of a piece, with something behind it, is the piece or the end of a line
comment. -/
theorem Leads.of_getLast?_eq_return (h : p.Leads behind) (hne : behind ≠ [])
    (hlast : p.text.getLast? = some '\r') :
    p = { item := .blank, text := ['\r'] } ∨
      ∃ text, p = { item := .lineComment, text := text ++ ['\r'] } ∧
        Leads { item := .lineComment, text } behind := by
  have hmem : '\r' ∈ p.text := List.mem_of_getLast? hlast
  cases h with
  | punctuation hc | operatorAlone hc _ | stray hc =>
    obtain rfl := List.mem_singleton.1 hmem
    contradiction
  | operatorWithEqual | slash => simp at hlast
  | @lineComment body _ hinside hstops =>
    have hbody : body.getLast? = some '\r' := by
      cases body with
      | nil => simp at hlast
      | cons c body => simpa using hlast
    obtain ⟨front, rfl⟩ := List.getLast?_eq_some_iff.1 hbody
    exact .inr ⟨'/' :: '/' :: front, rfl, .lineComment (by simp_all) hstops⟩
  | blockComment _ hcloses =>
    obtain ⟨front, rfl⟩ := hcloses.1
    rw [← List.cons_append, List.getLast?_append] at hlast
    simp [closeMark] at hlast
  | blank =>
    rw [List.mem_singleton.1 hmem]
    exact .inl rfl
  | string =>
    rw [← List.cons_append, List.getLast?_append] at hlast
    simp at hlast
  | openString => exact absurd rfl hne
  | whole hdigits => exact absurd (hdigits.2 _ hmem) (by decide)
  | fraction hdigits hplaces =>
    rcases List.mem_append.1 hmem with hin | hin
    · exact absurd (hdigits.2 _ hin) (by decide)
    · exact absurd (hplaces.2 _ (List.mem_of_ne_of_mem (by decide) hin)) (by decide)
  | word hc hinside =>
    rcases List.mem_cons.1 hmem with rfl | hin
    · contradiction
    · exact absurd (hinside _ hin) (by decide)

end Piece

/-! ### Sources -/

/-- **Returns go.** The text of some pieces without the returns in front of line ends falls into
pieces that yield the same, but for these returns. -/
theorem Consecutive.exists_dropReturns {ps : List Piece} (h : Consecutive ps) :
    ∃ qs, Consecutive qs ∧ joined qs = (joined ps).dropReturns ∧
      ∀ line, yieldFrom line qs = (yieldFrom line ps).dropReturns := by
  induction ps with
  | nil => exact ⟨[], trivial, rfl, fun _ => rfl⟩
  | cons p ps ih =>
    obtain ⟨hleads, hps⟩ := h
    obtain ⟨qs, hqs, htext, hyield⟩ := ih hps
    by_cases hpair : p.text.getLast? = some '\r' ∧ (joined ps).head? = some '\n'
    · -- The return at the end of the piece is in front of a line end.
      obtain ⟨hlast, hhead⟩ := hpair
      have hne : joined ps ≠ [] := by
        intro hnil
        simp [hnil] at hhead
      rcases hleads.of_getLast?_eq_return hne hlast with rfl | ⟨text, rfl, hcomment⟩
      · refine ⟨qs, hqs, ?_, ?_⟩
        · rw [htext, joined_cons]
          exact (Text.dropReturns_cons_return hhead).symm
        · intro line
          rw [hyield, yieldFrom_cons, Piece.yield_of_isSilent rfl, Yield.nothing_append]
          rfl
      · refine ⟨Piece.dropReturns { item := .lineComment, text } :: qs, ⟨?_, hqs⟩, ?_, ?_⟩
        · rw [htext]
          exact hcomment.dropReturns
        · rw [joined_cons, htext, joined_cons, Text.dropReturns_append_return text hhead]
          rfl
        · intro line
          have hlines : newlines (text ++ ['\r']) = newlines text := by simp [newlines]
          rw [yieldFrom_cons, yieldFrom_cons, Piece.yield_of_isSilent rfl,
            Piece.yield_of_isSilent rfl, Yield.nothing_append, Yield.nothing_append, hyield, hlines]
          show (yieldFrom (line + newlines text.dropReturns) ps).dropReturns = _
          rw [Text.newlines_dropReturns]
    · refine ⟨p.dropReturns :: qs, ⟨?_, hqs⟩, ?_, ?_⟩
      · rw [htext]
        exact hleads.dropReturns
      · rw [joined_cons, htext, joined_cons]
        exact (Text.dropReturns_append fun hlast hhead => hpair ⟨hlast, hhead⟩).symm
      · intro line
        rw [yieldFrom_cons, yieldFrom_cons, hleads.yield_dropReturns, hyield,
          Yield.dropReturns_append]
        show _ ++ (yieldFrom (line + newlines p.text.dropReturns) ps).dropReturns = _
        rw [Text.newlines_dropReturns]

/-- **Line ends of other systems.** A source without the returns in front of its line ends has the
same tokens, but for those returns in their lexemes and values, and the same errors. -/
theorem scan_dropReturns (source : Text) :
    (scan source.dropReturns).tokens = (scan source).tokens.map Token.dropReturns ∧
      (scan source.dropReturns).errors = (scan source).errors := by
  obtain ⟨qs, hqs, htext, hyield⟩ := (consecutive_pieces source).exists_dropReturns
  rw [joined_pieces] at htext
  have hpieces : pieces source.dropReturns = qs := pieces_eq_iff.2 ⟨hqs, htext⟩
  constructor
  · rw [tokens_scan_eq, tokens_scan_eq source, hpieces, hyield, Text.newlines_dropReturns,
      List.map_append]
    rfl
  · rw [errors_scan_eq, errors_scan_eq source, hpieces, hyield]
    rfl

/-- A return that another follows stays, in code and in strings. -/
example : Text.dropReturns "1\r\r\n\"\r\n\r\"".toList = "1\r\n\"\n\r\"".toList := by decide

end LoxLex
