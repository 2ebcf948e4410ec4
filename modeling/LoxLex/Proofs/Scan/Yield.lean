import LoxLex.Proofs.Scan.Invariant

/-! # What pieces yield

The tokens and errors of a source are those of its pieces, and of where a piece stands they show
nothing but the line. `yieldFrom line ps` is what pieces yield that begin on `line`: what pieces
behind others yield comes behind what these yield (`yieldFrom_append`), blanks and comments yield
nothing (`Piece.yield_of_isSilent`), and more lines above are added to every line (`yieldFrom_add`).
So a law between scans is a law between lists of pieces. -/

namespace LoxLex

/-- Tokens, with the errors that come up beside them. -/
@[ext] structure Yield where
  tokens : List Token
  errors : List LexicalError

/-- The same token on another line. -/
def Token.onLine (line : Nat) (t : Token) : Token := { t with line }

/-- The same error on another line. -/
def LexicalError.onLine (line : Nat) : LexicalError → LexicalError
  | unexpectedCharacter _ c => unexpectedCharacter line c
  | unterminatedString _ => unterminatedString line
  | invalidNumber _ lexeme => invalidNumber line lexeme

/-- On another line an error has that line. -/
@[simp] theorem LexicalError.line_onLine (line : Nat) (e : LexicalError) :
    (e.onLine line).line = line := by
  cases e <;> rfl

namespace Yield

/-- No token and no error. -/
def nothing : Yield := ⟨[], []⟩

/-- Yields one behind the other: their tokens, and their errors. -/
instance : Append Yield := ⟨fun y z => ⟨y.tokens ++ z.tokens, y.errors ++ z.errors⟩⟩

/-- The same with more lines above it. -/
def below (lines : Nat) (y : Yield) : Yield :=
  ⟨y.tokens.map (Token.below lines), y.errors.map (LexicalError.below lines)⟩

/-- The same, all on one line. -/
def onLine (line : Nat) (y : Yield) : Yield :=
  ⟨y.tokens.map (Token.onLine line), y.errors.map (LexicalError.onLine line)⟩

variable (y z w : Yield) (line lines : Nat)

/-- The yield `nothing` has no tokens. -/
@[simp] theorem tokens_nothing : nothing.tokens = [] := rfl

/-- The yield `nothing` has no errors. -/
@[simp] theorem errors_nothing : nothing.errors = [] := rfl

/-- The tokens of two yields: `(y ++ z).tokens = y.tokens ++ z.tokens`. -/
@[simp] theorem tokens_append : (y ++ z).tokens = y.tokens ++ z.tokens := rfl

/-- The errors of two yields: `(y ++ z).errors = y.errors ++ z.errors`. -/
@[simp] theorem errors_append : (y ++ z).errors = y.errors ++ z.errors := rfl

/-- The yield `nothing` can be left out in front: `nothing ++ y = y`. -/
@[simp] theorem nothing_append : nothing ++ y = y := rfl

/-- The yield `nothing` can be left out behind: `y ++ nothing = y`. -/
@[simp] theorem append_nothing : y ++ nothing = y := by
  ext1 <;> simp

/-- Yields are put together in any grouping: `y ++ z ++ w = y ++ (z ++ w)`. -/
theorem append_assoc : y ++ z ++ w = y ++ (z ++ w) := by
  ext1 <;> simp

/-- Two yields are moved to a line as each is:
`(y ++ z).onLine line = y.onLine line ++ z.onLine line`. -/
theorem onLine_append : (y ++ z).onLine line = y.onLine line ++ z.onLine line := by
  ext1 <;> simp [onLine]

end Yield

/-! ### The yield of pieces -/

/-- What a piece yields that begins on `line`. -/
def Piece.yield (line : Nat) (p : Piece) : Yield :=
  ⟨(Step.token? ⟨0, line, p⟩).toList, (Step.error? ⟨0, line, p⟩).toList⟩

/-- What pieces yield, one behind the other, of which the first begins on `line`. -/
def yieldFrom (line : Nat) : List Piece → Yield
  | [] => .nothing
  | p :: ps => p.yield line ++ yieldFrom (line + newlines p.text) ps

/-- No pieces yield nothing: `yieldFrom line [] = .nothing`. -/
@[simp] theorem yieldFrom_nil (line : Nat) : yieldFrom line [] = .nothing := rfl

/-- Pieces yield what the first does, and what the others do behind its line ends. -/
theorem yieldFrom_cons (line : Nat) (p : Piece) (ps : List Piece) :
    yieldFrom line (p :: ps) = p.yield line ++ yieldFrom (line + newlines p.text) ps := rfl

/-- What pieces yield behind others. -/
theorem yieldFrom_append (line : Nat) (ps qs : List Piece) :
    yieldFrom line (ps ++ qs) =
      yieldFrom line ps ++ yieldFrom (line + newlines (joined ps)) qs := by
  induction ps generalizing line with
  | nil => rfl
  | cons p ps ih =>
    rw [List.cons_append, yieldFrom_cons, ih, yieldFrom_cons, Yield.append_assoc, joined_cons,
      newlines_append, Nat.add_assoc]

/-- What the steps of a scan yield is the yield of their pieces: offsets have no part in it. -/
theorem yieldFrom_eq (offset line : Nat) (ps : List Piece) :
    yieldFrom line ps =
      ⟨(placed offset line ps).filterMap Step.token?,
        (placed offset line ps).filterMap Step.error?⟩ := by
  induction ps generalizing offset line with
  | nil => rfl
  | cons p ps ih =>
    have hfirst : p.yield line =
        ⟨(Step.token? ⟨offset, line, p⟩).toList, (Step.error? ⟨offset, line, p⟩).toList⟩ := rfl
    rw [yieldFrom_cons, ih (offset + utf8Length p.text), hfirst, placed_cons, List.filterMap_cons,
      List.filterMap_cons]
    ext1
    · cases Step.token? ⟨offset, line, p⟩ <;> rfl
    · cases Step.error? ⟨offset, line, p⟩ <;> rfl

/-- **The yield of a source.** The tokens but for the end of input, and the errors, are what the
pieces yield from line 1 on. -/
theorem yieldFrom_pieces (source : Text) :
    yieldFrom 1 (pieces source) = ⟨(scan source).tokens.dropLast, (scan source).errors⟩ := by
  rw [yieldFrom_eq 0, tokens_scan, errors_scan, List.dropLast_concat]

/-- The tokens of a source are what its pieces yield, with the end of input last. -/
theorem tokens_scan_eq (source : Text) :
    (scan source).tokens =
      (yieldFrom 1 (pieces source)).tokens ++ [Token.endOfInput (1 + newlines source)] := by
  rw [yieldFrom_eq 0, tokens_scan]

/-- The errors of a source are what its pieces yield. -/
theorem errors_scan_eq (source : Text) :
    (scan source).errors = (yieldFrom 1 (pieces source)).errors := by
  rw [yieldFrom_pieces]

/-! ### Lines -/

/-- Pieces that begin further down yield the same further down. -/
theorem yieldFrom_add (lines line : Nat) (ps : List Piece) :
    yieldFrom (lines + line) ps = (yieldFrom line ps).below lines := by
  rw [yieldFrom_eq 0, yieldFrom_eq 0, filterMap_token?_placed 0 0, filterMap_error?_placed 0 0]
  rfl

/-- A piece without a line end yields all that it yields on its line. -/
theorem Piece.yield_of_newlines_eq_zero {p : Piece} (h : newlines p.text = 0) (line other : Nat) :
    p.yield line = (p.yield other).onLine line := by
  obtain ⟨item, text, barren⟩ := p
  have htext : newlines text = 0 := h
  cases item <;>
    simp [Piece.yield, Yield.onLine, Step.token?, Step.error?, Step.endLine, Token.onLine,
      LexicalError.onLine, htext]

/-- Pieces without a line end yield all that they yield on one line. -/
theorem yieldFrom_of_newlines_eq_zero {ps : List Piece} (h : newlines (joined ps) = 0)
    (line other : Nat) : yieldFrom line ps = (yieldFrom other ps).onLine line := by
  induction ps with
  | nil => rfl
  | cons p ps ih =>
    rw [joined_cons, newlines_append] at h
    have hp : newlines p.text = 0 := by omega
    have hps : newlines (joined ps) = 0 := by omega
    rw [yieldFrom_cons, yieldFrom_cons, hp, Nat.add_zero, Nat.add_zero, ih hps,
      Piece.yield_of_newlines_eq_zero hp line other, Yield.onLine_append]

/-- A text without a line end yields on any line what it yields on line 1. -/
theorem yieldFrom_pieces_of_not_mem {t : Text} (h : '\n' ∉ t) (line : Nat) :
    yieldFrom line (pieces t) = (yieldFrom 1 (pieces t)).onLine line := by
  apply yieldFrom_of_newlines_eq_zero
  rw [joined_pieces]
  exact List.count_eq_zero.2 h

/-- Every error of a text without a line end is on line 1. -/
theorem line_eq_one_of_mem_errors {t : Text} (h : '\n' ∉ t) {e : LexicalError}
    (he : e ∈ (scan t).errors) : e.line = 1 := by
  rw [errors_scan_eq, yieldFrom_pieces_of_not_mem h] at he
  obtain ⟨e', -, rfl⟩ := List.mem_map.1 he
  exact LexicalError.line_onLine 1 e'

/-! ### Silent pieces -/

namespace Item

/-- Whether a piece of this sort is there for the reader alone: space and comments are. -/
def isSilent : Item → Bool
  | blank | lineComment | blockComment => true
  | _ => false

end Item

/-- Space and comments yield nothing. -/
theorem Piece.yield_of_isSilent {p : Piece} (h : p.item.isSilent = true) (line : Nat) :
    p.yield line = .nothing := by
  obtain ⟨item, text, barren⟩ := p
  cases item <;> first | rfl | contradiction

end LoxLex
