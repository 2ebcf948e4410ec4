import LoxLex.Proofs.Text.Run

/-! # Returns in front of line ends

A text from another system may have a return in front of each line end. `Text.dropReturns` takes
these returns away, each that a line end follows in the text as it is given. Only what is in front
of a line end gets another neighbour by that: two texts are taken apart as before, unless the first
ends in a return and the second begins with a line end (`dropReturns_append`), and what does not
begin with a line end has been there before (`exists_of_dropReturns_eq_append`). -/

namespace LoxLex

namespace Text

/-- A text without the returns that stand right in front of a line end. -/
def dropReturns : Text → Text
  | [] => []
  | c :: rest =>
    if c = '\r' ∧ rest.head? = some '\n' then dropReturns rest else c :: dropReturns rest

variable {s t u v rest : Text} {c : Char}

/-- `dropReturns [] = []`. -/
@[simp] theorem dropReturns_nil : dropReturns [] = [] := rfl

/-- One character is kept: `dropReturns [c] = [c]`. -/
@[simp] theorem dropReturns_singleton (c : Char) : dropReturns [c] = [c] :=
  if_neg fun h => absurd h.2 (by simp)

/-- A return in front of a line feed is dropped: `dropReturns ('\r' :: rest) = dropReturns rest`. -/
theorem dropReturns_cons_return (h : rest.head? = some '\n') :
    dropReturns ('\r' :: rest) = dropReturns rest :=
  if_pos ⟨rfl, h⟩

/-- Any other character is kept: `dropReturns (c :: rest) = c :: dropReturns rest`. -/
theorem dropReturns_cons (h : ¬ (c = '\r' ∧ rest.head? = some '\n')) :
    dropReturns (c :: rest) = c :: dropReturns rest :=
  if_neg h

/-- A character that is no return is kept. -/
theorem dropReturns_cons_of_ne (h : c ≠ '\r') : dropReturns (c :: rest) = c :: dropReturns rest :=
  dropReturns_cons fun hc => h hc.1

/-- Nothing is put in. -/
theorem dropReturns_sublist (t : Text) : t.dropReturns.Sublist t := by
  induction t with
  | nil => exact List.Sublist.refl _
  | cons c rest ih =>
    unfold dropReturns
    split
    · exact ih.cons c
    · exact ih.cons_cons c

/-- A text without a line end is left alone. -/
theorem dropReturns_of_not_mem (h : '\n' ∉ t) : t.dropReturns = t := by
  induction t with
  | nil => rfl
  | cons c rest ih =>
    rw [List.mem_cons, not_or] at h
    have hhead : ¬ (c = '\r' ∧ rest.head? = some '\n') := fun hc => h.2 (List.mem_of_head? hc.2)
    rw [dropReturns_cons hhead, ih h.2]

/-- Every line end is kept. -/
@[simp] theorem newlines_dropReturns (t : Text) : newlines t.dropReturns = newlines t := by
  induction t with
  | nil => rfl
  | cons c rest ih =>
    unfold dropReturns
    unfold newlines at ih ⊢
    split
    next h => rw [ih, List.count_cons_of_ne (by rw [h.1]; decide)]
    next => rw [List.count_cons, List.count_cons, ih]

/-! ### Behind one another -/

/-- Two texts are treated apart, unless a return at the end of the first stands in front of a line
end. -/
theorem dropReturns_append (h : s.getLast? = some '\r' → t.head? ≠ some '\n') :
    (s ++ t).dropReturns = s.dropReturns ++ t.dropReturns := by
  induction s with
  | nil => rfl
  | cons c rest ih =>
    cases rest with
    | nil =>
      have hc : ¬ (c = '\r' ∧ t.head? = some '\n') := by
        rintro ⟨rfl, hhead⟩
        exact h rfl hhead
      rw [dropReturns_singleton]
      exact dropReturns_cons hc
    | cons d rest =>
      rw [List.getLast?_cons_cons] at h
      by_cases hc : c = '\r' ∧ (d :: rest).head? = some '\n'
      · obtain ⟨rfl, hhead⟩ := hc
        rw [dropReturns_cons_return hhead, ← ih h]
        exact dropReturns_cons_return hhead
      · rw [dropReturns_cons hc]
        show dropReturns (c :: (d :: rest ++ t)) = c :: (dropReturns (d :: rest) ++ t.dropReturns)
        rw [← ih h]
        exact dropReturns_cons hc

/-- A return at the end of a text goes if a line end follows. -/
theorem dropReturns_append_return (s : Text) (h : t.head? = some '\n') :
    (s ++ ['\r'] ++ t).dropReturns = s.dropReturns ++ t.dropReturns := by
  rw [List.append_assoc, dropReturns_append (by simp), List.singleton_append,
    dropReturns_cons_return h]

/-! ### What was there before -/

/-- A character in front that is no line end has been there before. -/
theorem exists_of_dropReturns_eq_cons (h : t.dropReturns = c :: u) (hc : c ≠ '\n') :
    ∃ rest, t = c :: rest ∧ dropReturns rest = u := by
  cases t with
  | nil => contradiction
  | cons d rest =>
    by_cases hd : d = '\r' ∧ rest.head? = some '\n'
    · -- The return is gone, and a line end is in front.
      obtain ⟨rfl, hhead⟩ := hd
      obtain ⟨more, rfl⟩ := List.head?_eq_some_iff.1 hhead
      rw [dropReturns_cons_return hhead, dropReturns_cons_of_ne (by decide)] at h
      exact absurd (List.cons.inj h).1.symm hc
    · rw [dropReturns_cons hd] at h
      obtain ⟨rfl, hrest⟩ := List.cons.inj h
      exact ⟨rest, rfl, hrest⟩

/-- What is left of a text can be taken apart as the text can, in front of any character but a line
end. -/
theorem exists_of_dropReturns_eq_append (h : t.dropReturns = u ++ v) (hv : v.head? ≠ some '\n') :
    ∃ s w, t = s ++ w ∧ dropReturns s = u ∧ dropReturns w = v := by
  induction t generalizing u with
  | nil =>
    obtain ⟨rfl, rfl⟩ := List.append_eq_nil_iff.1 h.symm
    exact ⟨[], [], rfl, rfl, rfl⟩
  | cons c rest ih =>
    cases u with
    | nil => exact ⟨[], c :: rest, rfl, rfl, h⟩
    | cons d u =>
      by_cases hc : c = '\r' ∧ rest.head? = some '\n'
      · rw [dropReturns, if_pos hc] at h
        obtain ⟨s, w, rfl, hs, hw⟩ := ih h
        -- The line end behind the return is the first character of the first part.
        cases s with
        | nil => contradiction
        | cons e s => exact ⟨c :: e :: s, w, rfl, by rw [dropReturns, if_pos ⟨hc.1, hc.2⟩, hs], hw⟩
      · rw [dropReturns_cons hc] at h
        obtain ⟨rfl, hrest⟩ := List.cons.inj h
        obtain ⟨s, w, rfl, hs, hw⟩ := ih hrest
        refine ⟨c :: s, w, rfl, ?_, hw⟩
        have hcs : ¬ (c = '\r' ∧ s.head? = some '\n') := by
          rintro ⟨hreturn, hhead⟩
          exact hc ⟨hreturn, by rw [List.head?_append, hhead, Option.some_or]⟩
        rw [dropReturns_cons hcs, hs]

/-! ### Runs -/

/-- What stops a run that takes no line end stops it without returns. -/
theorem stops_dropReturns {p : Char → Bool} (hp : p '\n' = false) (h : Stops p t) :
    Stops p t.dropReturns := by
  intro d hd
  obtain ⟨u, hu⟩ := List.head?_eq_some_iff.1 (Option.mem_def.1 hd)
  by_cases hline : d = '\n'
  · rw [hline, hp]
  · obtain ⟨rest, rfl, -⟩ := exists_of_dropReturns_eq_cons hu hline
    exact stops_cons.1 h

/-- What ends a line ends it without returns. -/
theorem stops_lineEnd_dropReturns (h : Stops (· ≠ '\n') t) : Stops (· ≠ '\n') t.dropReturns := by
  cases t with
  | nil => exact stops_nil
  | cons c rest =>
    obtain rfl : c = '\n' := by simpa using h
    rw [dropReturns_cons_of_ne (by decide)]
    exact stops_cons.2 (by simp)

end Text

end LoxLex
