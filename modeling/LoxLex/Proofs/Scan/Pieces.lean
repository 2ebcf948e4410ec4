import LoxLex.Proofs.Piece.Front

/-! # The pieces of a text

`pieces t` takes one leading piece after the other off a text, with nothing else in mind: no offset,
no line, no search that failed. Its pieces are `Consecutive`, each leading the text of those behind
it, and no other consecutive pieces make up that text (`pieces_eq_iff`). So a claim on how a text
falls into pieces is proved by naming the pieces and looking at each with its surroundings. -/

namespace LoxLex

/-- The text that pieces make up. -/
def joined (ps : List Piece) : Text := ps.flatMap Piece.text

/-- `joined [] = []`. -/
@[simp] theorem joined_nil : joined [] = [] := rfl

/-- Pieces make up the text of the first and that of the others:
`joined (p :: ps) = p.text ++ joined ps`. -/
@[simp] theorem joined_cons (p : Piece) (ps : List Piece) :
    joined (p :: ps) = p.text ++ joined ps := rfl

/-- The text of a concatenation: `joined (ps ++ qs) = joined ps ++ joined qs`. -/
@[simp] theorem joined_append (ps qs : List Piece) : joined (ps ++ qs) = joined ps ++ joined qs :=
  List.flatMap_append

/-- Pieces of which each leads the text of those behind it. -/
def Consecutive : List Piece → Prop
  | [] => True
  | p :: ps => p.Leads (joined ps) ∧ Consecutive ps

/-- The pieces of a text. -/
def pieces : Text → List Piece
  | [] => []
  | c :: rest => (Piece.front true c rest).1.unmarked :: pieces (Piece.front true c rest).2
termination_by t => t.length
decreasing_by exact Piece.length_front_lt ..

/-- `pieces [] = []`. -/
@[simp] theorem pieces_nil : pieces [] = [] := by rw [pieces]

/-- The pieces of a text are the one at its front, without a mark, and those of what is left. -/
theorem pieces_cons (c : Char) (rest : Text) :
    pieces (c :: rest) =
      (Piece.front true c rest).1.unmarked :: pieces (Piece.front true c rest).2 := by
  rw [pieces]

/-- **One piece after the other.** A leading piece is the first of the text. -/
theorem pieces_append_of_leads {p : Piece} {behind : Text} (h : p.Leads behind) :
    pieces (p.text ++ behind) = p :: pieces behind := by
  have hne : p.text ++ behind ≠ [] := by
    intro hnil
    exact h.text_ne_nil (List.append_eq_nil_iff.1 hnil).1
  obtain ⟨c, rest, heq⟩ := List.exists_cons_of_ne_nil hne
  obtain ⟨hpiece, hbehind⟩ := Piece.front_of_leads h heq
  rw [heq, pieces_cons, hpiece, hbehind]

/-! ### Nothing is lost, and each piece leads -/

/-- **Nothing is lost**: the pieces of a text make it up, `joined (pieces t) = t`. -/
@[simp] theorem joined_pieces (t : Text) : joined (pieces t) = t := by
  induction t using pieces.induct with
  | case1 => simp
  | case2 c rest ih =>
    rw [pieces_cons, joined_cons, ih, Piece.text_unmarked, Piece.text_append_front]

/-- Each piece of a text leads what is behind it: `Consecutive (pieces t)`. -/
theorem consecutive_pieces (t : Text) : Consecutive (pieces t) := by
  induction t using pieces.induct with
  | case1 => simp [Consecutive]
  | case2 c rest ih =>
    rw [pieces_cons]
    refine ⟨?_, ih⟩
    rw [joined_pieces]
    exact Piece.leads_front (by simp)

/-- Consecutive pieces are the pieces of the text that they make up. -/
theorem pieces_joined {ps : List Piece} (h : Consecutive ps) : pieces (joined ps) = ps := by
  induction ps with
  | nil => simp
  | cons p ps ih =>
    obtain ⟨hleads, hps⟩ := h
    rw [joined_cons, pieces_append_of_leads hleads, ih hps]

/-- **The pieces of a text** are the one list of consecutive pieces that makes it up. -/
theorem pieces_eq_iff {t : Text} {ps : List Piece} :
    pieces t = ps ↔ Consecutive ps ∧ joined ps = t := by
  constructor
  · rintro rfl
    exact ⟨consecutive_pieces t, joined_pieces t⟩
  · rintro ⟨hps, rfl⟩
    exact pieces_joined hps

/-! ### Between pieces -/

variable {ps qs : List Piece}

/-- The first of some consecutive pieces lead whatever the last of them are cut down to. -/
theorem Consecutive.of_append_left (h : Consecutive (ps ++ qs)) : Consecutive ps := by
  induction ps with
  | nil => trivial
  | cons p ps ih =>
    have hleads : p.Leads (joined (ps ++ qs)) := h.1
    rw [joined_append] at hleads
    exact ⟨hleads.of_append, ih h.2⟩

/-- The last of some consecutive pieces are consecutive. -/
theorem Consecutive.of_append_right (h : Consecutive (ps ++ qs)) : Consecutive qs := by
  induction ps with
  | nil => exact h
  | cons p ps ih => exact ih h.2

/-- **A text can be parted between two of its pieces**, and each part has its own of them. -/
theorem pieces_eq_of_append {t : Text} (h : pieces t = ps ++ qs) :
    pieces (joined ps) = ps ∧ pieces (joined qs) = qs := by
  have hall : Consecutive (ps ++ qs) := h ▸ consecutive_pieces t
  exact ⟨pieces_joined hall.of_append_left, pieces_joined hall.of_append_right⟩

end LoxLex
