import LoxLex.Proofs.Scan.Lines
import LoxLex.Proofs.Scan.Search
import LoxLex.Proofs.Scan.Yield

/-! # Blanks between texts

A blank ends whatever stands in front of it but for a string, and a line comment unless it is a line
end; and a comment that was opened in vain may find its close mark behind the blank. Nothing else of
a text sees what comes behind a blank (`Leads.append_blank`). So two texts with a line end between
them are scanned one after the other, unless the first leaves a string open, or leaves a comment
open that the second closes (`scan_append_newline`). -/

namespace LoxLex

/-! ### What a blank ends -/

/-- The class of white space is `blank`. -/
theorem of_eq_blank {c : Char} (h : c ∈ [' ', '\t', '\r', '\n']) : CharClass.of c = .blank := by
  simp only [List.mem_cons, List.not_mem_nil, or_false] at h
  rcases h with rfl | rfl | rfl | rfl <;> rfl

section

variable {front back : Text} {c : Char}

/-- A blank stops every run that takes no blanks. -/
theorem stops_of_of_eq_blank (hc : CharClass.of c = .blank) {p : Char → Bool}
    (hp : [' ', '\t', '\r', '\n'].any p = false) : Stops p (c :: back) := by
  have hc' : p c ≠ true := List.any_eq_false.1 hp c (mem_of_of_eq_blank hc)
  exact stops_cons.2 (by simpa using hc')

/-- A text that begins with a character, up to a blank, does so in front of the blank. -/
theorem head?_of_head?_append_blank (hc : CharClass.of c = .blank) {d : Char}
    (hd : CharClass.of d ≠ .blank) (h : (front ++ c :: back).head? = some d) :
    front.head? = some d := by
  cases front with
  | nil =>
    obtain rfl : c = d := by simpa using h
    exact absurd hc hd
  | cons e front => simpa using h

/-- A close mark lies on one side of a blank. -/
theorem not_closeMark_infix_append_blank (hc : CharClass.of c = .blank)
    (hfront : ¬ closeMark <:+: front) (hback : ¬ closeMark <:+: back) :
    ¬ closeMark <:+: front ++ c :: back := by
  have hstar : c ≠ '*' := by rintro rfl; exact absurd hc (by decide)
  have hslash : c ≠ '/' := by rintro rfl; exact absurd hc (by decide)
  rintro ⟨before, behind, heq⟩
  rw [List.append_assoc] at heq
  rcases List.append_eq_append_iff.1 heq with ⟨between, rfl, hmark⟩ | ⟨between, rfl, hmark⟩
  · -- the mark begins in front of the blank, so it ends there too
    rcases between with _ | ⟨first, _ | ⟨second, more⟩⟩
    · exact hstar (List.cons.inj hmark).1.symm
    · exact hslash (List.cons.inj (List.cons.inj hmark).2).1.symm
    · obtain ⟨hfirst, hmark⟩ := List.cons.inj hmark
      obtain ⟨hsecond, -⟩ := List.cons.inj hmark
      exact hfront ⟨before, more, by simp [closeMark, ← hfirst, ← hsecond]⟩
  · cases between with
    | nil => exact hstar (List.cons.inj hmark).1
    | cons _ more =>
      obtain ⟨-, rfl⟩ := List.cons.inj hmark
      exact hback ⟨more, behind, by simp⟩

/-- **What a blank ends.** A piece leads a text also with a blank behind that text and whatever may
follow, if it is no open string, no line comment that the blank would belong to, and no slash whose
comment would find its end now. -/
theorem Piece.Leads.append_blank {p : Piece} (h : p.Leads front) (hc : CharClass.of c = .blank)
    (hopen : p.item ≠ .openString) (hline : p.item = .lineComment → front = [] → c = '\n')
    (hvain : ¬ p.OpensInVain front ∨ ¬ closeMark <:+: back) : p.Leads (front ++ c :: back) := by
  apply h.of_overlooks
  constructor
  case run =>
    intro q hq hstops
    exact hstops.append (stops_of_of_eq_blank hc (any_blank_of_mem_sought hq))
  case lineEnd =>
    intro hitem hstops
    by_cases hnil : front = []
    · rw [hnil, hline hitem hnil]
      exact stops_cons.2 (by simp)
    · exact hstops.append_right hnil
  case point =>
    intro hpoint hhead
    -- a point in front of the blank: what is behind the point goes up to the blank as well
    have hpoint' : front.head? = some '.' := head?_of_head?_append_blank hc (by decide) hhead
    obtain ⟨more, rfl⟩ := List.head?_eq_some_iff.1 hpoint'
    exact (hpoint rfl).append (stops_of_of_eq_blank hc (by decide))
  case mark =>
    intro htext hunclosed hhead
    have hstar : front.head? = some '*' := head?_of_head?_append_blank hc (by decide) hhead
    rcases hvain with hsettled | hback
    · exact absurd ⟨htext, hstar⟩ hsettled
    · exact not_closeMark_infix_append_blank hc (hunclosed hstar) hback
  case stop =>
    intro hitem
    exact absurd hitem hopen

end

/-! ### Strings that are left open -/

/-- Whether a scan reports a string that runs into the end of the source. -/
def Scan.LeavesStringOpen (s : Scan) : Prop :=
  ∃ line, LexicalError.unterminatedString line ∈ s.errors

/-- A string is left open where the piece of a step is an open string. -/
theorem Scan.leavesStringOpen_iff {s : Scan} :
    s.LeavesStringOpen ↔ ∃ step ∈ s.steps, step.piece.item = .openString := by
  constructor
  · rintro ⟨line, h⟩
    obtain ⟨step, hstep, herror⟩ := List.mem_filterMap.1 h
    exact ⟨step, hstep, (Step.of_error?_eq_unterminatedString herror).1⟩
  · rintro ⟨step, hstep, hitem⟩
    exact ⟨step.endLine, List.mem_filterMap.2 ⟨step, hstep, by simp [Step.error?, hitem]⟩⟩

/-- Whether a scan leaves a string open can be read off its steps. -/
instance (s : Scan) : Decidable s.LeavesStringOpen :=
  decidable_of_iff _ Scan.leavesStringOpen_iff.symm

/-- A string is left open where a piece of the source is an open string. -/
theorem leavesStringOpen_scan_iff (source : Text) :
    (scan source).LeavesStringOpen ↔ ∃ p ∈ pieces source, p.item = .openString := by
  rw [Scan.leavesStringOpen_iff, ← map_piece_placed 0 1 (pieces source), ← map_unmarked_steps_scan]
  simp [Step.unmarked, Piece.unmarked]

/-! ### A line end between two texts -/

/-- A line end as a piece. -/
def Piece.lineEnd : Piece := { item := .blank, text := ['\n'] }

/-- Pieces with a line end behind them, and the pieces of another text behind that. -/
theorem Consecutive.append_lineEnd {ps : List Piece} {back : Text} (h : Consecutive ps)
    (hopen : ∀ p ∈ ps, p.item ≠ .openString) (hvain : Settled ps ∨ ¬ closeMark <:+: back) :
    Consecutive (ps ++ Piece.lineEnd :: pieces back) := by
  induction ps with
  | nil => exact ⟨.blank rfl, consecutive_pieces back⟩
  | cons p ps ih =>
    obtain ⟨hp, hps⟩ := List.forall_mem_cons.1 hopen
    have htext : joined (ps ++ Piece.lineEnd :: pieces back) = joined ps ++ '\n' :: back := by
      rw [joined_append, joined_cons, joined_pieces]
      rfl
    refine ⟨?_, ih h.2 hps (hvain.imp_left And.right)⟩
    show p.Leads (joined (ps ++ Piece.lineEnd :: pieces back))
    rw [htext]
    exact h.1.append_blank rfl hp (fun _ _ => rfl) (hvain.imp_left And.left)

/-- The pieces of two texts with a line end between them. -/
theorem pieces_append_lineEnd {front back : Text} (hopen : ¬ (scan front).LeavesStringOpen)
    (hvain : ¬ (scan front).SearchFails ∨ ¬ closeMark <:+: back) :
    pieces (front ++ '\n' :: back) = pieces front ++ Piece.lineEnd :: pieces back := by
  rw [leavesStringOpen_scan_iff] at hopen
  rw [searchFails_scan_iff, not_not] at hvain
  refine pieces_eq_iff.2 ⟨(consecutive_pieces front).append_lineEnd ?_ hvain, ?_⟩
  · intro p hp hitem
    exact hopen ⟨p, hp, hitem⟩
  · rw [joined_append, joined_cons, joined_pieces, joined_pieces]
    rfl

/-- What two texts yield with a line end between them, from any line on. -/
theorem yieldFrom_append_lineEnd (line : Nat) {front back : Text}
    (hopen : ¬ (scan front).LeavesStringOpen)
    (hvain : ¬ (scan front).SearchFails ∨ ¬ closeMark <:+: back) :
    yieldFrom line (pieces (front ++ '\n' :: back)) =
      yieldFrom line (pieces front) ++ yieldFrom (line + newlines front + 1) (pieces back) := by
  rw [pieces_append_lineEnd hopen hvain, yieldFrom_append, yieldFrom_cons, joined_pieces,
    Piece.yield_of_isSilent rfl, Yield.nothing_append]
  rfl

/-- **Line by line.** Let a text leave no string open, and no comment that the text behind it
closes. Then with a line end between them the two texts have the tokens of the first but for the end
of input, and below them those of the second; and likewise the errors. -/
theorem scan_append_newline (front back : Text) (hopen : ¬ (scan front).LeavesStringOpen)
    (hvain : ¬ (scan front).SearchFails ∨ ¬ closeMark <:+: back) :
    (scan (front ++ '\n' :: back)).tokens =
        (scan front).tokens.dropLast ++
          (scan back).tokens.map (Token.below (1 + newlines front)) ∧
      (scan (front ++ '\n' :: back)).errors =
        (scan front).errors ++
          (scan back).errors.map (LexicalError.below (1 + newlines front)) := by
  have hyield := yieldFrom_append_lineEnd 1 hopen hvain
  rw [yieldFrom_add, yieldFrom_pieces front] at hyield
  constructor
  · have hlast : 1 + newlines (front ++ '\n' :: back) =
        1 + newlines front + (1 + newlines back) := by
      rw [newlines_append, newlines_cons_self]
      omega
    rw [tokens_scan_eq, tokens_scan_eq back, hyield, hlast, Yield.tokens_append,
      List.append_assoc, List.map_append, List.map_singleton, Token.below_endOfInput]
    rfl
  · rw [errors_scan_eq, errors_scan_eq back, hyield]
    rfl

/-- The law where a number with a point behind it stands at the end of the first text, a search has
failed there, and the second text holds stars and slashes but no close mark. -/
theorem scan_append_newline_open_comment :
    (¬ (scan "/* \"é\n\" &\n1.".toList).LeavesStringOpen ∧
        ¬ closeMark <:+: "2 /* / *".toList) ∧
      (scan ("/* \"é\n\" &\n1.".toList ++ '\n' :: "2 /* / *".toList)).tokens =
        (scan "/* \"é\n\" &\n1.".toList).tokens.dropLast ++
          (scan "2 /* / *".toList).tokens.map (Token.below 3) ∧
      (scan ("/* \"é\n\" &\n1.".toList ++ '\n' :: "2 /* / *".toList)).errors =
        (scan "/* \"é\n\" &\n1.".toList).errors ++
          (scan "2 /* / *".toList).errors.map (LexicalError.below 3) := by
  have hopen : ¬ (scan "/* \"é\n\" &\n1.".toList).LeavesStringOpen := by decide +kernel
  have hmark : ¬ closeMark <:+: "2 /* / *".toList := closeEnd?_eq_none_iff.1 (by decide)
  exact ⟨⟨hopen, hmark⟩, scan_append_newline _ _ hopen (.inr hmark)⟩

end LoxLex
