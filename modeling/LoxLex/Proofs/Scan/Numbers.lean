import LoxLex.Proofs.Numeral
import LoxLex.Proofs.Scan.Genuine

/-! # Numbers

No run of digits is without a value, and the value is right: a number token carries the binary64
number nearest to what its lexeme denotes (`scan_numbers`). The lexemes are what the rules of
leading pieces leave, digits with a point among them at most, so the reading of numerals never
fails; and the nearest number has no sign, nor is it a NaN. -/

namespace LoxLex

open Binary64

/-! ### No number fails -/

/-- No rule makes a piece of digits that is not a number. -/
theorem Piece.Leads.item_ne_badNumber {p : Piece} {behind : Text} (h : p.Leads behind) :
    p.item ≠ .badNumber := by
  cases h <;> simp

/-- Only a step with a number without a value reports one. -/
theorem Step.error?_ne_invalidNumber {s : Step} (h : s.piece.item ≠ .badNumber) (line : Nat)
    (lexeme : Text) : s.error? ≠ some (.invalidNumber line lexeme) := by
  unfold Step.error?
  cases hitem : s.piece.item with
  | badNumber => exact absurd hitem h
  | _ => simp

/-- **No number is without a value**, in any source. -/
theorem invalidNumber_not_mem_errors (source : Text) (line : Nat) (lexeme : Text) :
    .invalidNumber line lexeme ∉ (scan source).errors := by
  intro hmem
  obtain ⟨s, hs, herror⟩ := List.mem_filterMap.1 hmem
  obtain ⟨done, more, hsteps⟩ := List.append_of_mem hs
  obtain ⟨-, -, -, hleads⟩ := of_steps_scan_eq hsteps
  have hitem : s.piece.item ≠ .badNumber := hleads.item_ne_badNumber
  exact Step.error?_ne_invalidNumber hitem line lexeme herror

/-! ### Values of numbers -/

/-- A number token of a scan is written as a number, and carries the number nearest to what its
lexeme denotes. -/
theorem exists_isNearest_of_mem_tokens {source : Text} {t : Token} (h : t ∈ (scan source).tokens)
    (hkind : t.kind = .number) :
    IsLexeme .number t.lexeme ∧ ∃ x, t.literal = .number x ∧ x.IsNearest (denoted t.lexeme) := by
  cases genuine_of_mem_tokens h with
  | ofLexeme hwritten =>
    obtain rfl := hkind
    exact ⟨hwritten, exists_isNearest_of_isLexeme hwritten⟩
  | endOfInput => contradiction

/-- **Numbers.** No source has a number without a value, and every number token carries the number
nearest to what its lexeme denotes: from `2^1024 - 2^970` on the infinity, up to `2^(-1075)` the
zero without a sign, and never a NaN or a number with a sign. -/
theorem scan_numbers (source : Text) :
    (∀ line lexeme, .invalidNumber line lexeme ∉ (scan source).errors) ∧
      ∀ t ∈ (scan source).tokens, t.kind = .number →
        IsLexeme .number t.lexeme ∧
          ∃ x : Binary64, t.literal = .number x ∧ x.IsNearest (denoted t.lexeme) ∧
            (2 ^ 1024 - 2 ^ 970 ≤ denoted t.lexeme → x = infinity) ∧
            (denoted t.lexeme ≤ 1 / 2 ^ 1075 → x = zero) ∧
            x.isNaN = false ∧ x.isNegative = false := by
  refine ⟨invalidNumber_not_mem_errors source, ?_⟩
  intro t ht hkind
  obtain ⟨hwritten, x, hliteral, hx⟩ := exists_isNearest_of_mem_tokens ht hkind
  exact ⟨hwritten, x, hliteral, hx, hx.infinite, hx.eq_zero_of_le (denoted_nonneg _),
    hx.isNaN_eq_false, hx.sign⟩

/-- Halfway between `2^53` and the next number, but for what stands at the end of twenty places. -/
theorem scan_numbers_above_midpoint :
    let lexeme := "9007199254740993.00000000000000000001".toList
    let x : Binary64 := ⟨0x4340000000000001⟩
    ⟨.number, lexeme, .number x, 1⟩ ∈ (scan lexeme).tokens ∧
      denoted lexeme = 9007199254740993 + 1 / 10 ^ 20 ∧ x.IsNearest (denoted lexeme) := by
  intro lexeme x
  have htoken : ⟨.number, lexeme, .number x, 1⟩ ∈ (scan lexeme).tokens := by decide +kernel
  have hdenoted : denoted lexeme = 9007199254740993 + 1 / 10 ^ 20 := by
    have hdigits : Nat.ofDigitChars 10 (lexeme.filter Char.isDigit) 0 =
        900719925474099300000000000000000001 := by decide +kernel
    have hplaces : (lexeme.dropWhile (· ≠ '.')).countP Char.isDigit = 20 := by decide +kernel
    rw [denoted, hdigits, hplaces]
    norm_num
  obtain ⟨-, y, hliteral, hy, -⟩ := (scan_numbers lexeme).2 _ htoken rfl
  obtain rfl := Literal.number.inj hliteral
  exact ⟨htoken, hdenoted, hy⟩

end LoxLex
