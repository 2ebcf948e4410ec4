import LoxLex.Scan.Basic
import LoxLex.Proofs.Scan.Pieces

/-! # Positions of pieces

`placed offset line ps` gives each of some consecutive pieces its position, as a scan would that
begins there: this joins the pieces of a text to the steps of a scan. Where a scan begins shows in
its tokens and errors by their lines alone, and there it is added (`filterMap_token?_placed`,
`filterMap_error?_placed`). -/

namespace LoxLex

/-- A step as such, without the mark of a search that failed. -/
def Step.unmarked (s : Step) : Step := { s with piece := s.piece.unmarked }

/-- The text that steps pass over. -/
def passed (steps : List Step) : Text := steps.flatMap fun s => s.piece.text

/-- `passed [] = []`. -/
@[simp] theorem passed_nil : passed [] = [] := rfl

/-- Steps pass the text of the first and what the others pass:
`passed (s :: steps) = s.piece.text ++ passed steps`. -/
@[simp] theorem passed_cons (s : Step) (steps : List Step) :
    passed (s :: steps) = s.piece.text ++ passed steps := rfl

/-- What a concatenation passes: `passed (done ++ more) = passed done ++ passed more`. -/
@[simp] theorem passed_append (done more : List Step) :
    passed (done ++ more) = passed done ++ passed more :=
  List.flatMap_append

/-- Steps pass over the text of their pieces. -/
theorem joined_map_piece (steps : List Step) : joined (steps.map Step.piece) = passed steps :=
  List.flatMap_map ..

/-- Steps pass over the text of their pieces, marked or not. -/
theorem joined_map_unmarked_piece (steps : List Step) :
    joined (steps.map fun s => s.piece.unmarked) = passed steps :=
  List.flatMap_map ..

/-- The mark of a search that failed has no part in what is passed over. -/
@[simp] theorem passed_map_unmarked (steps : List Step) :
    passed (steps.map Step.unmarked) = passed steps :=
  List.flatMap_map ..

/-- The same token with more lines above it. -/
def Token.below (lines : Nat) (t : Token) : Token := { t with line := lines + t.line }

/-- With more lines above it the end of input is that of a lower line. -/
@[simp] theorem Token.below_endOfInput (lines line : Nat) :
    (endOfInput line).below lines = endOfInput (lines + line) := rfl

/-- The same error with more lines above it. -/
def LexicalError.below (lines : Nat) : LexicalError → LexicalError
  | unexpectedCharacter line c => unexpectedCharacter (lines + line) c
  | unterminatedString line => unterminatedString (lines + line)
  | invalidNumber line lexeme => invalidNumber (lines + line) lexeme

/-- The steps past some pieces, from an offset and a line on. -/
def placed (offset line : Nat) : List Piece → List Step
  | [] => []
  | p :: ps =>
    ⟨offset, line, p⟩ :: placed (offset + utf8Length p.text) (line + newlines p.text) ps

/-- `placed offset line [] = []`. -/
@[simp] theorem placed_nil (offset line : Nat) : placed offset line [] = [] := rfl

/-- The first of placed pieces stands at the offset and on the line, and the others behind its
text. -/
theorem placed_cons (offset line : Nat) (p : Piece) (ps : List Piece) :
    placed offset line (p :: ps) =
      ⟨offset, line, p⟩ :: placed (offset + utf8Length p.text) (line + newlines p.text) ps := rfl

/-- The pieces behind some others are placed behind their text. -/
theorem placed_append (offset line : Nat) (ps qs : List Piece) :
    placed offset line (ps ++ qs) =
      placed offset line ps ++
        placed (offset + utf8Length (joined ps)) (line + newlines (joined ps)) qs := by
  induction ps generalizing offset line with
  | nil => simp
  | cons p ps ih =>
    rw [List.cons_append, placed_cons, placed_cons, ih, joined_cons, utf8Length_append,
      newlines_append, List.cons_append, Nat.add_assoc, Nat.add_assoc]

/-- Placed pieces are the pieces: `(placed offset line ps).map Step.piece = ps`. -/
@[simp] theorem map_piece_placed (offset line : Nat) (ps : List Piece) :
    (placed offset line ps).map Step.piece = ps := by
  induction ps generalizing offset line with
  | nil => rfl
  | cons p ps ih => rw [placed_cons, List.map_cons, ih]

/-- Placed pieces pass the text that the pieces make up:
`passed (placed offset line ps) = joined ps`. -/
@[simp] theorem passed_placed (offset line : Nat) (ps : List Piece) :
    passed (placed offset line ps) = joined ps := by
  rw [← joined_map_piece, map_piece_placed]

/-- A placed piece stands behind the text that the steps before it pass over. -/
theorem position_of_placed_eq {offset line : Nat} {ps : List Piece} {done more : List Step}
    {s : Step} (h : placed offset line ps = done ++ s :: more) :
    s.offset = offset + utf8Length (passed done) ∧ s.line = line + newlines (passed done) := by
  induction done generalizing offset line ps with
  | nil =>
    cases ps with
    | nil => simp at h
    | cons p ps =>
      rw [placed_cons, List.nil_append, List.cons.injEq] at h
      simp [← h.1]
  | cons d done ih =>
    cases ps with
    | nil => simp at h
    | cons p ps =>
      rw [placed_cons, List.cons_append, List.cons.injEq] at h
      obtain ⟨hoffset, hline⟩ := ih h.2
      have hpiece : p = d.piece := congrArg Step.piece h.1
      rw [passed_cons, utf8Length_append, newlines_append, hoffset, hline, hpiece]
      omega

/-! ### Lines above -/

/-- With more lines above it a step has its token further down, whatever the offset. -/
theorem token?_placed (offset offset' line lines : Nat) (p : Piece) :
    Step.token? ⟨offset, lines + line, p⟩ =
      (Step.token? ⟨offset', line, p⟩).map (Token.below lines) := by
  obtain ⟨item, text, barren⟩ := p
  cases item <;> rfl

/-- With more lines above it a step has its error further down, whatever the offset. -/
theorem error?_placed (offset offset' line lines : Nat) (p : Piece) :
    Step.error? ⟨offset, lines + line, p⟩ =
      (Step.error? ⟨offset', line, p⟩).map (LexicalError.below lines) := by
  obtain ⟨item, text, barren⟩ := p
  cases item <;> simp [Step.error?, Step.endLine, LexicalError.below, Nat.add_assoc]

/-- The tokens of pieces that are placed further down are the same tokens further down. -/
theorem filterMap_token?_placed (offset offset' line lines : Nat) (ps : List Piece) :
    (placed offset (lines + line) ps).filterMap Step.token? =
      ((placed offset' line ps).filterMap Step.token?).map (Token.below lines) := by
  induction ps generalizing offset offset' line with
  | nil => rfl
  | cons p ps ih =>
    rw [placed_cons, placed_cons, List.filterMap_cons, List.filterMap_cons,
      token?_placed offset offset', Nat.add_assoc, ih _ (offset' + utf8Length p.text)]
    cases Step.token? ⟨offset', line, p⟩ <;> rfl

/-- The errors of pieces that are placed further down are the same errors further down. -/
theorem filterMap_error?_placed (offset offset' line lines : Nat) (ps : List Piece) :
    (placed offset (lines + line) ps).filterMap Step.error? =
      ((placed offset' line ps).filterMap Step.error?).map (LexicalError.below lines) := by
  induction ps generalizing offset offset' line with
  | nil => rfl
  | cons p ps ih =>
    rw [placed_cons, placed_cons, List.filterMap_cons, List.filterMap_cons,
      error?_placed offset offset', Nat.add_assoc, ih _ (offset' + utf8Length p.text)]
    cases Step.error? ⟨offset', line, p⟩ <;> rfl

end LoxLex
