import Mathlib.Data.List.Basic
import LoxLex.Text.Utf8

/-! # UTF-8 there and back

A text is read back from its UTF-8 form: `decode?` finds it (`decode?_encode`), and where damage is
marked there is none to mark (`decodeReplacing_encode`). The bytes of one character are read as that
character whatever bytes follow (`unitsAfter_utf8EncodeChar`): the first tells how many more are
owed, and each of these adds six bits. -/

namespace LoxLex.Utf8

/-! ### Byte by byte -/

/-- The units of some bytes, after what is pending. -/
def unitsAfter (pending : Option Pending) (bytes : Bytes) : List (Option Char) :=
  (unitsFrom #[] pending bytes).toList

/-- The units of `b :: bytes` are those that `b` completes, and behind them those of `bytes`, after
what `b` leaves pending. -/
theorem unitsAfter_cons (pending : Option Pending) (b : UInt8) (bytes : Bytes) :
    unitsAfter pending (b :: bytes) =
      (step pending b).1 ++ unitsAfter (step pending b).2 bytes := by
  rw [unitsAfter, unitsFrom, toList_unitsFrom]
  simp [unitsAfter]

/-! ### The bytes of a character -/

/-- The first of two bytes holds five bits. -/
theorem first_of_two {a : Nat} (hlow : 2 ≤ a) (hhigh : a < 0x20) :
    first (a + 192) = ([], some ⟨a, 1, 0x80, 0xBF⟩) := by
  have hbits : (a + 192) % 0x20 = a := by omega
  rw [first, if_neg (by omega), if_neg (by omega), if_pos (by omega), hbits]

/-- The first of three bytes holds four bits. -/
theorem first_of_three {a : Nat} (h : a < 0x10) :
    first (a + 224) =
      ([], some ⟨a, 2, if a = 0 then 0xA0 else 0x80, if a = 13 then 0x9F else 0xBF⟩) := by
  have hbits : (a + 224) % 0x10 = a := by omega
  rw [first, if_neg (by omega), if_neg (by omega), if_neg (by omega), if_pos (by omega), hbits]
  simp

/-- The first of four bytes holds three bits. -/
theorem first_of_four {a : Nat} (h : a < 5) :
    first (a + 240) =
      ([], some ⟨a, 3, if a = 0 then 0x90 else 0x80, if a = 4 then 0x8F else 0xBF⟩) := by
  have hbits : (a + 240) % 0x08 = a := by omega
  rw [first, if_neg (by omega), if_neg (by omega), if_neg (by omega), if_neg (by omega),
    if_pos (by omega), hbits]
  simp

variable {p : Pending} {n : Nat} (bytes : Bytes)

/-- A first byte leaves a character pending. -/
theorem unitsAfter_first (hn : n < 256) (h : first n = ([], some p)) :
    unitsAfter none (UInt8.ofNat n :: bytes) = unitsAfter (some p) bytes := by
  rw [unitsAfter_cons, step, UInt8.toNat_ofNat_of_lt' hn, h]
  rfl

/-- A byte that a character owes before the last adds six bits. -/
theorem unitsAfter_more {owed : Nat} (howed : p.owed = owed + 2) (hbits : p.bits = n / 64)
    (hlow : p.low ≤ n % 64 + 128) (hhigh : n % 64 + 128 ≤ p.high) :
    unitsAfter (some p) (UInt8.ofNat (n % 64 + 128) :: bytes) =
      unitsAfter (some ⟨n, owed + 1, 0x80, 0xBF⟩) bytes := by
  have hbyte : n % 64 + 128 < 256 := by omega
  have hvalue : p.bits * 64 + (n % 64 + 128) % 64 = n := by omega
  have hrest : p.owed - 1 = owed + 1 := by omega
  have hstep : p.next (n % 64 + 128) = ([], some ⟨n, owed + 1, 0x80, 0xBF⟩) := by
    rw [Pending.next, if_pos ⟨hlow, hhigh⟩, hvalue, if_neg (by omega), hrest]
  rw [unitsAfter_cons, step, UInt8.toNat_ofNat_of_lt' hbyte, hstep]
  rfl

/-- The last byte that a character owes completes it. -/
theorem unitsAfter_last (howed : p.owed = 1) (hbits : p.bits = n / 64)
    (hlow : p.low ≤ n % 64 + 128) (hhigh : n % 64 + 128 ≤ p.high) :
    unitsAfter (some p) (UInt8.ofNat (n % 64 + 128) :: bytes) =
      some (Char.ofNat n) :: unitsAfter none bytes := by
  have hbyte : n % 64 + 128 < 256 := by omega
  have hvalue : p.bits * 64 + (n % 64 + 128) % 64 = n := by omega
  have hstep : p.next (n % 64 + 128) = ([some (Char.ofNat n)], none) := by
    rw [Pending.next, if_pos ⟨hlow, hhigh⟩, hvalue, if_pos (by omega)]
  rw [unitsAfter_cons, step, UInt8.toNat_ofNat_of_lt' hbyte, hstep]
  rfl

/-- **A character is read from its bytes**, whatever follows them. -/
theorem unitsAfter_utf8EncodeChar (c : Char) :
    unitsAfter none (String.utf8EncodeChar c ++ bytes) = some c :: unitsAfter none bytes := by
  have hcode : c.toNat < 0xD800 ∨ 0xDFFF < c.toNat ∧ c.toNat < 0x110000 := c.valid
  have hc : Char.ofNat c.toNat = c := Char.ofNat_toNat c
  rw [String.utf8EncodeChar, Char.toNat_val]
  generalize c.toNat = n at hcode hc
  subst hc
  -- One case for each number of bytes, and in it one lemma for each byte.
  split
  · have hbyte : n < 256 := by omega
    have hfirst : first n = ([some (Char.ofNat n)], none) := by
      rw [first, if_pos (by omega)]
    rw [List.singleton_append, unitsAfter_cons, step, UInt8.toNat_ofNat_of_lt' hbyte, hfirst]
    rfl
  split
  · have hlead : n / 64 % 32 = n / 64 := by omega
    rw [hlead, List.cons_append, List.singleton_append,
      unitsAfter_first _ (by omega) (first_of_two (by omega) (by omega)),
      unitsAfter_last _ rfl rfl (by simp) (by simp; omega)]
  split
  · have hlead : n / 4096 % 16 = n / 64 / 64 := by omega
    rw [hlead, List.cons_append, List.cons_append, List.singleton_append,
      unitsAfter_first _ (by omega) (first_of_three (by omega)),
      unitsAfter_more _ rfl rfl (by dsimp only; split <;> omega) (by dsimp only; split <;> omega),
      unitsAfter_last _ rfl rfl (by simp) (by simp; omega)]
  · have hlead : n / 262144 % 8 = n / 64 / 64 / 64 := by omega
    have hnext : n / 4096 = n / 64 / 64 := by omega
    rw [hlead, hnext, List.cons_append, List.cons_append, List.cons_append, List.singleton_append,
      unitsAfter_first _ (by omega) (first_of_four (by omega)),
      unitsAfter_more _ rfl rfl (by dsimp only; split <;> omega) (by dsimp only; split <;> omega),
      unitsAfter_more _ rfl rfl (by simp) (by simp; omega),
      unitsAfter_last _ rfl rfl (by simp) (by simp; omega)]

/-! ### Bytes that are characters by themselves -/

/-- A character below 0x80 is one byte. -/
theorem utf8EncodeChar_of_lt {c : Char} (h : c.toNat < 0x80) :
    String.utf8EncodeChar c = [UInt8.ofNat c.toNat] := by
  rw [String.utf8EncodeChar, Char.toNat_val, if_pos (by omega)]

/-- That byte is in the form of no other character. -/
theorem eq_of_mem_utf8EncodeChar {c d : Char} (hc : c.toNat < 0x80)
    (h : UInt8.ofNat c.toNat ∈ String.utf8EncodeChar d) : d = c := by
  -- Every byte of a longer form has its upper bit.
  have hbyte : ∀ k < 256, UInt8.ofNat c.toNat = UInt8.ofNat k → c.toNat = k := by
    intro k hk heq
    have hcode : c.toNat < 256 := by omega
    rw [← UInt8.toNat_ofNat_of_lt' hk, ← heq, UInt8.toNat_ofNat_of_lt' hcode]
  have hupper : ∀ k < 256, 0x80 ≤ k → UInt8.ofNat c.toNat ≠ UInt8.ofNat k := by
    intro k hk hhigh heq
    have := hbyte k hk heq
    omega
  rw [String.utf8EncodeChar, Char.toNat_val] at h
  split at h
  · have hcode := hbyte d.toNat (by omega) (List.mem_singleton.1 h)
    rw [← Char.ofNat_toNat d, ← hcode, Char.ofNat_toNat]
  all_goals exfalso
  split at h
  · rw [List.mem_cons, List.mem_singleton] at h
    rcases h with h | h <;> exact hupper _ (by omega) (by omega) h
  split at h
  · rw [List.mem_cons, List.mem_cons, List.mem_singleton] at h
    rcases h with h | h | h <;> exact hupper _ (by omega) (by omega) h
  · rw [List.mem_cons, List.mem_cons, List.mem_cons, List.mem_singleton] at h
    rcases h with h | h | h | h <;> exact hupper _ (by omega) (by omega) h

/-! ### Texts -/

/-- `encode [] = []`. -/
@[simp] theorem encode_nil : encode [] = [] := rfl

/-- The form of a text begins with that of its first character. -/
@[simp] theorem encode_cons (c : Char) (t : Text) :
    encode (c :: t) = String.utf8EncodeChar c ++ encode t := rfl

/-- The form of a concatenation: `encode (s ++ t) = encode s ++ encode t`. -/
@[simp] theorem encode_append (s t : Text) : encode (s ++ t) = encode s ++ encode t :=
  List.flatMap_append

/-- Only the empty text has an empty form. -/
theorem encode_eq_nil_iff {t : Text} : encode t = [] ↔ t = [] := by
  cases t with
  | nil => simp
  | cons c t => simp

variable {c : Char} {t : Text}

/-- A character below 0x80 is in a text if its byte is in the UTF-8 form. -/
theorem mem_encode_iff (hc : c.toNat < 0x80) : UInt8.ofNat c.toNat ∈ encode t ↔ c ∈ t := by
  rw [encode, List.mem_flatMap]
  constructor
  · rintro ⟨d, hd, hmem⟩
    exact eq_of_mem_utf8EncodeChar hc hmem ▸ hd
  · intro h
    exact ⟨c, h, by rw [utf8EncodeChar_of_lt hc, List.mem_singleton]⟩

/-- A character below 0x80 is the last of a text if its byte is the last of the UTF-8 form. -/
theorem getLast?_encode_eq_some_iff (hc : c.toNat < 0x80) :
    (encode t).getLast? = some (UInt8.ofNat c.toNat) ↔ t.getLast? = some c := by
  rw [@List.getLast?_eq_some_iff _ t]
  constructor
  · intro h
    rcases List.eq_nil_or_concat' t with rfl | ⟨front, d, rfl⟩
    · contradiction
    have hlast : (String.utf8EncodeChar d).getLast? = some (UInt8.ofNat c.toNat) := by
      rw [encode_append, encode_cons, encode_nil, List.append_nil,
        List.getLast?_append_of_ne_nil _ String.utf8EncodeChar_ne_nil] at h
      exact h
    rw [eq_of_mem_utf8EncodeChar hc (List.mem_of_getLast? hlast)]
    exact ⟨front, rfl⟩
  · rintro ⟨front, rfl⟩
    rw [encode_append, encode_cons, utf8EncodeChar_of_lt hc]
    exact List.getLast?_concat

/-! ### There and back -/

/-- **The units of a form** are the characters of the text, none damaged. -/
theorem units_encode (t : Text) : units (encode t) = t.map some := by
  show unitsAfter none (encode t) = t.map some
  induction t with
  | nil => rfl
  | cons c t ih => rw [encode_cons, unitsAfter_utf8EncodeChar, ih, List.map_cons]

/-- There is no damage to mark in the UTF-8 form of a text. -/
theorem decodeReplacing_encode (t : Text) : decodeReplacing (encode t) = t := by
  rw [decodeReplacing, units_encode, List.map_map]
  exact List.map_id t

/-- **There and back.** The UTF-8 form of a text is read as that text. -/
theorem decode?_encode (t : Text) : decode? (encode t) = some t := by
  rw [decode?, decodeReplacing_encode, units_encode, if_pos (by simp)]

/-- Two texts of one UTF-8 form are the same. -/
theorem encode_inj {s t : Text} : encode s = encode t ↔ s = t := by
  constructor
  · intro h
    rw [← decodeReplacing_encode s, h, decodeReplacing_encode]
  · rintro rfl
    rfl

end LoxLex.Utf8
