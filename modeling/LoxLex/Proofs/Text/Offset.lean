import LoxLex.Text.Basic

/-! # Offsets

A place in a text is told by the number of bytes in front of it. No character takes zero bytes, so
two beginnings of one text lie in each other as their lengths in bytes say
(`eq_append_of_utf8Length_le`), and a place has one beginning (`eq_of_utf8Length_eq`). -/

namespace LoxLex

/-- Only the empty text takes no bytes. -/
@[simp] theorem utf8Length_eq_zero_iff {t : Text} : utf8Length t = 0 ↔ t = [] := by
  cases t with
  | nil => simp
  | cons c t =>
    have := c.utf8Size_pos
    simp only [utf8Length_cons, reduceCtorEq, iff_false]
    omega

/-- Of two beginnings of a text, the one of no more bytes is a beginning of the other. -/
theorem eq_append_of_utf8Length_le {a b c d : Text} (h : a ++ b = c ++ d)
    (hle : utf8Length a ≤ utf8Length c) : ∃ between, c = a ++ between ∧ b = between ++ d := by
  rcases List.append_eq_append_iff.1 h with hshort | ⟨between, ha, hd⟩
  · exact hshort
  · rw [ha, utf8Length_append] at hle
    have hnil : between = [] := by rw [← utf8Length_eq_zero_iff]; omega
    subst hnil
    exact ⟨[], by simpa using ha.symm, by simpa using hd.symm⟩

/-- Two beginnings of a text that take the same bytes are the same. -/
theorem eq_of_utf8Length_eq {a b c d : Text} (h : a ++ b = c ++ d)
    (heq : utf8Length a = utf8Length c) : a = c ∧ b = d := by
  obtain ⟨between, hc, hb⟩ := eq_append_of_utf8Length_le h (Nat.le_of_eq heq)
  have hnil : between = [] := by
    rw [← utf8Length_eq_zero_iff]
    rw [hc, utf8Length_append] at heq
    omega
  subst hnil
  exact ⟨by simpa using hc.symm, by simpa using hb⟩

end LoxLex
