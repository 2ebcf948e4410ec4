import LoxLex.Piece.Basic

/-! # The end of a block comment

A block comment ends with the first `*/` at or after its star. `ClosesAtEnd` says of a text that
this is where it ends, without a word on how the end is looked for; `closeEnd?_append_eq_some` and
`closeEnd?_eq_none_iff` say that the search finds it, and finds nothing only where there is none. -/

namespace LoxLex

/-- What closes a block comment. -/
def closeMark : Text := ['*', '/']

/-- A text whose one close mark stands at its end. -/
def ClosesAtEnd (t : Text) : Prop :=
  closeMark <:+ t ∧ ∀ before behind, t = before ++ closeMark ++ behind → behind = []

/-! ### The search, one character at a time -/

/-- The empty text has no close mark: `closeEnd? [] = none`. -/
@[simp] theorem closeEnd?_nil : closeEnd? [] = none := rfl

/-- A close mark in front ends behind its two characters:
`closeEnd? (closeMark ++ behind) = some 2`. -/
theorem closeEnd?_closeMark_append (behind : Text) :
    closeEnd? (closeMark ++ behind) = some 2 := rfl

/-- Where no close mark begins, the search goes on behind the first character. -/
theorem closeEnd?_cons {c : Char} {rest : Text} (h : ¬ closeMark <+: c :: rest) :
    closeEnd? (c :: rest) = (closeEnd? rest).map (1 + ·) := by
  have hnot : ¬ (c = '*' ∧ rest.head? = some '/') := by
    rintro ⟨rfl, hhead⟩
    obtain ⟨behind, rfl⟩ := List.head?_eq_some_iff.1 hhead
    exact h ⟨behind, rfl⟩
  rw [closeEnd?, closeEndFrom, if_neg hnot, closeEndFrom_eq]

/-! ### What the search finds -/

/-- The search fails only in a text without a close mark. -/
theorem closeEnd?_eq_none_iff {t : Text} : closeEnd? t = none ↔ ¬ closeMark <:+: t := by
  induction t with
  | nil => simp [closeMark]
  | cons c rest ih =>
    rw [List.infix_cons_iff]
    by_cases h : closeMark <+: c :: rest
    · -- A close mark begins here.
      obtain ⟨behind, hbehind⟩ := h
      simp [← hbehind, closeEnd?_closeMark_append]
    · simp [closeEnd?_cons h, ih, h]

/-- A text has its first character before its one close mark unless it is that mark. -/
theorem closesAtEnd_cons_iff {c : Char} {rest : Text} (h : ¬ closeMark <+: c :: rest) :
    ClosesAtEnd (c :: rest) ↔ ClosesAtEnd rest := by
  constructor
  · rintro ⟨hend, honly⟩
    constructor
    · rcases List.suffix_cons_iff.1 hend with heq | hsuffix
      · exact absurd (heq ▸ List.prefix_refl _) h
      · exact hsuffix
    · intro before behind heq
      have heq' : c :: rest = (c :: before) ++ closeMark ++ behind := by simp [heq]
      exact honly (c :: before) behind heq'
  · rintro ⟨hend, honly⟩
    refine ⟨hend.trans (List.suffix_cons ..), ?_⟩
    intro before behind heq
    cases before with
    | nil => exact absurd ⟨behind, heq.symm⟩ h
    | cons d before =>
      obtain ⟨-, hrest⟩ := List.cons.inj heq
      exact honly before behind hrest

/-- The search finds the end of a text that closes at its end, whatever stands behind it. -/
theorem closeEnd?_append_eq_some {t : Text} (h : ClosesAtEnd t) (behind : Text) :
    closeEnd? (t ++ behind) = some t.length := by
  induction t with
  | nil => simp [ClosesAtEnd, closeMark] at h
  | cons c rest ih =>
    by_cases hmark : closeMark <+: c :: rest
    · obtain ⟨more, hmore⟩ := hmark
      have hnil : more = [] := h.2 [] more hmore.symm
      rw [← hmore, hnil, List.append_nil, closeEnd?_closeMark_append]
      rfl
    · -- A close mark that begins here lies inside the text, since the text ends with one.
      have hmark' : ¬ closeMark <+: c :: (rest ++ behind) := by
        intro hpre
        have hlength : closeMark.length ≤ (c :: rest).length := h.1.length_le
        exact hmark (List.prefix_of_prefix_length_le hpre (List.prefix_append ..) hlength)
      rw [List.cons_append, closeEnd?_cons hmark', ih ((closesAtEnd_cons_iff hmark).1 h)]
      simp [Nat.add_comm]

/-- What the search finds closes at its end. -/
theorem closesAtEnd_of_closeEnd?_eq_some {t : Text} {n : Nat} (h : closeEnd? t = some n) :
    ClosesAtEnd (t.take n) := by
  induction t generalizing n with
  | nil => simp at h
  | cons c rest ih =>
    by_cases hmark : closeMark <+: c :: rest
    · obtain ⟨behind, hbehind⟩ := hmark
      rw [← hbehind, closeEnd?_closeMark_append, Option.some.injEq] at h
      subst h
      rw [← hbehind]
      refine ⟨List.suffix_refl _, ?_⟩
      -- What is found is the close mark and nothing else, so there is nothing around it.
      intro before after heq
      have hlength := congrArg List.length heq
      simp only [closeMark, List.length_append, List.length_take, List.length_cons,
        List.length_nil] at hlength
      have hzero : after.length = 0 := by omega
      exact List.length_eq_zero_iff.1 hzero
    · rw [closeEnd?_cons hmark, Option.map_eq_some_iff] at h
      obtain ⟨m, hm, rfl⟩ := h
      have hmark' : ¬ closeMark <+: c :: rest.take m := by
        intro hpre
        exact hmark (hpre.trans (List.cons_prefix_cons.2 ⟨rfl, List.take_prefix ..⟩))
      rw [Nat.add_comm, List.take_succ_cons, closesAtEnd_cons_iff hmark']
      exact ih hm

end LoxLex
