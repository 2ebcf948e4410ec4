import LoxLex.Proofs.Text.Utf8

/-! # Undamaged bytes

Bytes in which no damage is found are the UTF-8 form of a text (`exists_encode_of_undamaged`), so
`decode?` takes the UTF-8 forms of texts and nothing else (`decode?_eq_some_iff`). A first byte and
those that it owes, each in its range, are the form of one character; that this character is read
from them is known already (`unitsAfter_utf8EncodeChar`), so its bits need not be followed here. -/

namespace LoxLex.Utf8

/-! ### Characters of given bytes -/

section

variable {b b₁ b₂ b₃ : UInt8}

/-- The code of a character is the number that it was made from, if that is the code of one. -/
theorem toNat_ofNat_of_lt {n : Nat} (h : n < 0xD800 ∨ 0xDFFF < n ∧ n < 0x110000) :
    (Char.ofNat n).toNat = n := by
  rw [Char.ofNat, dif_pos h]
  rfl

/-- A byte is told by its value. -/
theorem ofNat_eq_of_toNat_eq {n : Nat} (h : n = b.toNat) : UInt8.ofNat n = b := by
  rw [h, UInt8.ofNat_toNat]

/-- A byte below `0x80` is the UTF-8 form of a character. -/
theorem exists_char_of_one (h : b.toNat < 0x80) : ∃ c, String.utf8EncodeChar c = [b] := by
  have hcode : (Char.ofNat b.toNat).toNat = b.toNat := toNat_ofNat_of_lt (by omega)
  refine ⟨Char.ofNat b.toNat, ?_⟩
  rw [utf8EncodeChar_of_lt (by omega), hcode, UInt8.ofNat_toNat]

/-- A first byte from `0xC2` to `0xDF` and one that continues it are the form of a character. -/
theorem exists_char_of_two (hlow : 0xC2 ≤ b.toNat) (hhigh : b.toNat < 0xE0)
    (h₁ : 0x80 ≤ b₁.toNat ∧ b₁.toNat ≤ 0xBF) : ∃ c, String.utf8EncodeChar c = [b, b₁] := by
  obtain ⟨n, hn⟩ : ∃ n, n = b.toNat % 0x20 * 0x40 + b₁.toNat % 0x40 := ⟨_, rfl⟩
  have hcode : (Char.ofNat n).toNat = n := toNat_ofNat_of_lt (by omega)
  refine ⟨Char.ofNat n, ?_⟩
  rw [String.utf8EncodeChar, Char.toNat_val, hcode, if_neg (by omega), if_pos (by omega),
    ofNat_eq_of_toNat_eq (b := b) (by omega), ofNat_eq_of_toNat_eq (b := b₁) (by omega)]

/-- The second of three bytes keeps out shorter forms and surrogates. -/
theorem exists_char_of_three (hlow : 0xE0 ≤ b.toNat) (hhigh : b.toNat < 0xF0)
    (h₁ : (if b.toNat = 0xE0 then 0xA0 else 0x80) ≤ b₁.toNat ∧
      b₁.toNat ≤ if b.toNat = 0xED then 0x9F else 0xBF)
    (h₂ : 0x80 ≤ b₂.toNat ∧ b₂.toNat ≤ 0xBF) : ∃ c, String.utf8EncodeChar c = [b, b₁, b₂] := by
  have hrange : (0x80 ≤ b₁.toNat ∧ b₁.toNat ≤ 0xBF) ∧
      (b.toNat = 0xE0 → 0xA0 ≤ b₁.toNat) ∧ (b.toNat = 0xED → b₁.toNat ≤ 0x9F) := by
    -- Without the choices in the bounds, the arithmetic below is linear.
    obtain ⟨hlow₁, hhigh₁⟩ := h₁
    split at hlow₁ <;> split at hhigh₁ <;> omega
  obtain ⟨n, hn⟩ : ∃ n, n = (b.toNat % 0x10 * 0x40 + b₁.toNat % 0x40) * 0x40 + b₂.toNat % 0x40 :=
    ⟨_, rfl⟩
  -- The bounds on the second byte are what keeps this number from being a surrogate.
  have hcode : (Char.ofNat n).toNat = n := toNat_ofNat_of_lt (by omega)
  refine ⟨Char.ofNat n, ?_⟩
  rw [String.utf8EncodeChar, Char.toNat_val, hcode, if_neg (by omega), if_neg (by omega),
    if_pos (by omega), ofNat_eq_of_toNat_eq (b := b) (by omega),
    ofNat_eq_of_toNat_eq (b := b₁) (by omega), ofNat_eq_of_toNat_eq (b := b₂) (by omega)]

/-- The second of four bytes keeps out shorter forms and what is past the last character. -/
theorem exists_char_of_four (hlow : 0xF0 ≤ b.toNat) (hhigh : b.toNat < 0xF5)
    (h₁ : (if b.toNat = 0xF0 then 0x90 else 0x80) ≤ b₁.toNat ∧
      b₁.toNat ≤ if b.toNat = 0xF4 then 0x8F else 0xBF)
    (h₂ : 0x80 ≤ b₂.toNat ∧ b₂.toNat ≤ 0xBF) (h₃ : 0x80 ≤ b₃.toNat ∧ b₃.toNat ≤ 0xBF) :
    ∃ c, String.utf8EncodeChar c = [b, b₁, b₂, b₃] := by
  have hrange : (0x80 ≤ b₁.toNat ∧ b₁.toNat ≤ 0xBF) ∧
      (b.toNat = 0xF0 → 0x90 ≤ b₁.toNat) ∧ (b.toNat = 0xF4 → b₁.toNat ≤ 0x8F) := by
    obtain ⟨hlow₁, hhigh₁⟩ := h₁
    split at hlow₁ <;> split at hhigh₁ <;> omega
  obtain ⟨n, hn⟩ : ∃ n, n = ((b.toNat % 0x08 * 0x40 + b₁.toNat % 0x40) * 0x40 +
      b₂.toNat % 0x40) * 0x40 + b₃.toNat % 0x40 := ⟨_, rfl⟩
  have hcode : (Char.ofNat n).toNat = n := toNat_ofNat_of_lt (by omega)
  refine ⟨Char.ofNat n, ?_⟩
  rw [String.utf8EncodeChar, Char.toNat_val, hcode, if_neg (by omega), if_neg (by omega),
    if_neg (by omega), ofNat_eq_of_toNat_eq (b := b) (by omega),
    ofNat_eq_of_toNat_eq (b := b₁) (by omega), ofNat_eq_of_toNat_eq (b := b₂) (by omega),
    ofNat_eq_of_toNat_eq (b := b₃) (by omega)]

end

/-! ### Reading without damage -/

/-- Whether no damage is found in some bytes, after what is pending. -/
def Undamaged (pending : Option Pending) (bytes : Bytes) : Prop := none ∉ unitsAfter pending bytes

variable {p : Pending} {b : UInt8} {bytes : Bytes}

/-- Where bytes are not damaged, the first of them completes no damaged place, and those behind it
are not damaged after what it leaves pending. -/
theorem undamaged_cons {pending : Option Pending} (h : Undamaged pending (b :: bytes)) :
    none ∉ (step pending b).1 ∧ Undamaged (step pending b).2 bytes := by
  rw [Undamaged, unitsAfter_cons, List.mem_append, not_or] at h
  exact h

/-- **A byte that is owed** comes next and is in its range; if more are owed, they come behind. -/
theorem exists_owed (h : Undamaged (some p) bytes) :
    ∃ b rest, bytes = b :: rest ∧ (p.low ≤ b.toNat ∧ b.toNat ≤ p.high) ∧
      (2 ≤ p.owed → ∃ bits, Undamaged (some ⟨bits, p.owed - 1, 0x80, 0xBF⟩) rest) := by
  cases bytes with
  | nil => simp [Undamaged, unitsAfter, unitsFrom] at h
  | cons b rest =>
    obtain ⟨hhere, hrest⟩ := undamaged_cons h
    rw [step, Pending.next] at hhere hrest
    by_cases hrange : p.low ≤ b.toNat ∧ b.toNat ≤ p.high
    · refine ⟨b, rest, rfl, hrange, ?_⟩
      intro howed
      rw [if_pos hrange, if_neg (by omega)] at hrest
      exact ⟨_, hrest⟩
    · rw [if_neg hrange] at hhere
      simp at hhere

/-- **The first character.** Undamaged bytes begin with the form of a character. -/
theorem exists_char_of_undamaged (h : Undamaged none (b :: bytes)) :
    ∃ c rest, b :: bytes = String.utf8EncodeChar c ++ rest := by
  obtain ⟨hhere, hbytes⟩ := undamaged_cons h
  rw [step, first] at hhere hbytes
  -- One case for each row of the table of first bytes.
  split at hhere
  next hone =>
    obtain ⟨c, hc⟩ := exists_char_of_one hone
    exact ⟨c, bytes, by rw [hc]; rfl⟩
  split at hhere
  next => simp at hhere
  split at hhere
  next hone hlow htwo =>
    rw [if_neg hone, if_neg hlow, if_pos htwo] at hbytes
    obtain ⟨b₁, rest, rfl, h₁, -⟩ := exists_owed hbytes
    obtain ⟨c, hc⟩ := exists_char_of_two (by omega) htwo h₁
    exact ⟨c, rest, by rw [hc]; rfl⟩
  split at hhere
  next hone hlow htwo hthree =>
    rw [if_neg hone, if_neg hlow, if_neg htwo, if_pos hthree] at hbytes
    obtain ⟨b₁, _, rfl, h₁, hmore⟩ := exists_owed hbytes
    obtain ⟨_, hbytes⟩ := hmore (Nat.le_refl 2)
    obtain ⟨b₂, rest, rfl, h₂, -⟩ := exists_owed hbytes
    obtain ⟨c, hc⟩ := exists_char_of_three (by omega) hthree h₁ h₂
    exact ⟨c, rest, by rw [hc]; rfl⟩
  split at hhere
  next hone hlow htwo hthree hfour =>
    rw [if_neg hone, if_neg hlow, if_neg htwo, if_neg hthree, if_pos hfour] at hbytes
    obtain ⟨b₁, _, rfl, h₁, hmore⟩ := exists_owed hbytes
    obtain ⟨_, hbytes⟩ := hmore (Nat.le_succ 2)
    obtain ⟨b₂, _, rfl, h₂, hmore⟩ := exists_owed hbytes
    obtain ⟨_, hbytes⟩ := hmore (Nat.le_refl 2)
    obtain ⟨b₃, rest, rfl, h₃, -⟩ := exists_owed hbytes
    obtain ⟨c, hc⟩ := exists_char_of_four (by omega) hfour h₁ h₂ h₃
    exact ⟨c, rest, by rw [hc]; rfl⟩
  next => simp at hhere

/-- **Undamaged bytes** are the form of a text. -/
theorem exists_encode_of_undamaged {bytes : Bytes} (h : Undamaged none bytes) :
    ∃ t, encode t = bytes := by
  match bytes with
  | [] => exact ⟨[], rfl⟩
  | b :: bytes =>
    obtain ⟨c, rest, heq⟩ := exists_char_of_undamaged h
    -- Behind a whole character nothing is pending, so what follows is read afresh.
    have hrest : Undamaged none rest := by
      rw [heq, Undamaged, unitsAfter_utf8EncodeChar, List.mem_cons, not_or] at h
      exact h.2
    have hlength : rest.length < (b :: bytes).length := by
      rw [heq, List.length_append]
      have := List.length_pos_iff.2 (String.utf8EncodeChar_ne_nil (c := c))
      omega
    obtain ⟨t, ht⟩ := exists_encode_of_undamaged hrest
    exact ⟨c :: t, by rw [encode_cons, ht, heq]⟩
termination_by bytes.length
decreasing_by exact hlength

/-- **Decoding.** The text that is found in bytes is the one whose UTF-8 form they are. -/
theorem decode?_eq_some_iff {bytes : Bytes} {t : Text} :
    decode? bytes = some t ↔ encode t = bytes := by
  constructor
  · intro h
    have hall : (units bytes).all Option.isSome = true := by
      by_contra hnot
      rw [decode?, if_neg hnot] at h
      contradiction
    have hundamaged : Undamaged none bytes := by
      intro hmem
      simpa using List.all_eq_true.1 hall none hmem
    obtain ⟨u, rfl⟩ := exists_encode_of_undamaged hundamaged
    rw [decode?_encode, Option.some.injEq] at h
    rw [h]
  · rintro rfl
    exact decode?_encode t

/-- Bytes in which no text is found are the UTF-8 form of none. -/
theorem decode?_eq_none_iff {bytes : Bytes} : decode? bytes = none ↔ ∀ t, encode t ≠ bytes := by
  rw [Option.eq_none_iff_forall_ne_some]
  exact forall_congr' fun _ => not_congr decode?_eq_some_iff

end LoxLex.Utf8
