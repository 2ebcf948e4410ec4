import LoxLex.Text.Basic

/-! # Slices

A slice of a text is told by the bytes in front of its ends. There is none where an end lies beyond
the text or inside a character, nor where it would end before it begins, so the functions here are
partial. What they find are the parts of the text with these lengths and nothing else
(`splitAt?_eq_some_iff`, `sliceFrom?_eq_some_iff`, `slice?_eq_some_iff`). -/

namespace LoxLex

/-- A text in two parts, the first of `n` bytes, if a character ends there. -/
def splitAt? : Text → Nat → Option (Text × Text)
  | [], n => if n = 0 then some ([], []) else none
  | c :: t, n =>
    if n = 0 then some ([], c :: t)
    else if c.utf8Size ≤ n then
      (splitAt? t (n - c.utf8Size)).map fun parts => (c :: parts.1, parts.2)
    else none

/-- The text from an offset on. -/
def sliceFrom? (t : Text) (n : Nat) : Option Text := (splitAt? t n).map Prod.snd

/-- The text between two offsets. -/
def slice? (t : Text) (i j : Nat) : Option Text :=
  (splitAt? t j).bind fun parts => sliceFrom? parts.1 i

/-- Whether an offset lies on a boundary of characters: at an end of the text, or between two. -/
def IsBoundary (t : Text) (n : Nat) : Prop :=
  ∃ front back, front ++ back = t ∧ utf8Length front = n

variable {t front back s : Text} {i j n : Nat}

/-- No boundary is behind the end of the text: `n ≤ utf8Length t`. -/
theorem IsBoundary.le_utf8Length (h : IsBoundary t n) : n ≤ utf8Length t := by
  obtain ⟨front, back, rfl, rfl⟩ := h
  rw [utf8Length_append]
  exact Nat.le_add_right ..

/-- A text is parted behind any of its beginnings. -/
theorem splitAt?_append (front back : Text) :
    splitAt? (front ++ back) (utf8Length front) = some (front, back) := by
  induction front with
  | nil => cases back <;> simp [splitAt?]
  | cons c front ih =>
    have hpos := c.utf8Size_pos
    rw [List.cons_append, utf8Length_cons, splitAt?, if_neg (by omega), if_pos (by omega),
      Nat.add_sub_cancel_left, ih, Option.map_some]

/-- A text is split into `front` and `back` at the length of `front`, and at no other offset. -/
theorem splitAt?_eq_some_iff :
    splitAt? t n = some (front, back) ↔ front ++ back = t ∧ utf8Length front = n := by
  constructor
  · intro h
    induction t generalizing n front with
    | nil =>
      rw [splitAt?, Option.ite_none_right_eq_some, Option.some.injEq, Prod.mk.injEq] at h
      obtain ⟨rfl, rfl, rfl⟩ := h
      exact ⟨rfl, rfl⟩
    | cons c t ih =>
      rw [splitAt?] at h
      split at h
      next hzero =>
        rw [Option.some.injEq, Prod.mk.injEq] at h
        obtain ⟨rfl, rfl⟩ := h
        exact ⟨rfl, hzero.symm⟩
      next =>
        rw [Option.ite_none_right_eq_some, Option.map_eq_some_iff] at h
        obtain ⟨hle, ⟨front, back⟩, hsplit, heq⟩ := h
        rw [Prod.mk.injEq] at heq
        obtain ⟨rfl, rfl⟩ := heq
        obtain ⟨rfl, hlength⟩ := ih hsplit
        refine ⟨rfl, ?_⟩
        rw [utf8Length_cons, hlength]
        omega
  · rintro ⟨rfl, rfl⟩
    exact splitAt?_append ..

/-- What stands from an offset on is what some beginning of that length leaves of the text. -/
theorem sliceFrom?_eq_some_iff :
    sliceFrom? t n = some back ↔ ∃ front, front ++ back = t ∧ utf8Length front = n := by
  simp [sliceFrom?, splitAt?_eq_some_iff]

/-- What stands from `i` to `j` is what stands behind a beginning of length `i`, and ends at `j`. -/
theorem slice?_eq_some_iff :
    slice? t i j = some s ↔
      ∃ front back, front ++ s ++ back = t ∧ utf8Length front = i ∧
        utf8Length (front ++ s) = j := by
  simp only [slice?, Option.bind_eq_some_iff, Prod.exists, splitAt?_eq_some_iff,
    sliceFrom?_eq_some_iff]
  constructor
  · rintro ⟨_, back, ⟨rfl, rfl⟩, front, rfl, rfl⟩
    exact ⟨front, back, rfl, rfl, rfl⟩
  · rintro ⟨front, back, rfl, rfl, rfl⟩
    exact ⟨_, back, ⟨rfl, rfl⟩, front, rfl, rfl⟩

end LoxLex
