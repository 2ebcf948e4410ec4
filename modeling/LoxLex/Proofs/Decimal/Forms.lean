import Mathlib.Data.List.DropRight
import LoxLex.Proofs.Decimal

/-! # The written forms of decimals, read back

A shown number is a numeral in the plain form, or has a power of ten behind it in the exponent form.
`shownDenoted` reads either form by its characters alone, `significant` takes its digits but for the
zeros at either end, and the predicates of the forms leave no zero that could be left out. Both
forms of a decimal without zeros at its end denote it and show its digits
(`isShownAs_plain`, `isShownAs_withExponent`). -/

namespace LoxLex

/-! ### Reading -/

/-- The whole number that digits write, below zero behind a minus sign. -/
def wholeDenoted : Text → ℤ
  | '-' :: t => -Nat.ofDigitChars 10 t 0
  | t => Nat.ofDigitChars 10 t 0

/-- What a number shown without a sign denotes: a numeral, times the power of ten behind the mark of
the exponent, if there is one. -/
def magnitudeDenoted (t : Text) : ℚ :=
  denoted (t.takeWhile (· ≠ 'e')) * 10 ^ wholeDenoted ((t.dropWhile (· ≠ 'e')).drop 1)

/-- What stands behind the sign, if there is one. -/
def unsigned : Text → Text
  | '-' :: t => t
  | t => t

/-- **What a shown number denotes.** It is below zero behind a minus sign. -/
def shownDenoted (t : Text) : ℚ :=
  if t.head? = some '-' then -magnitudeDenoted (unsigned t) else magnitudeDenoted (unsigned t)

/-- The significant digits of a shown number: those in front of the mark of the exponent, but for
zeros at either end. -/
def significant (t : Text) : Text :=
  (((t.takeWhile (· ≠ 'e')).filter Char.isDigit).dropWhile (· = '0')).rdropWhile (· = '0')

/-! ### Forms -/

/-- Digits with no zero in front but for zero itself. -/
structure IsWhole (t : Text) : Prop where
  isDigits : IsDigits t
  lead : t.head? = some '0' → t = ['0']

/-- Digits behind a point, with no zero at the end but for a single one. -/
structure IsPlaces (t : Text) : Prop where
  isDigits : IsDigits t
  trail : t.getLast? = some '0' → t = ['0']

/-- The plain form, always with a fractional part. -/
inductive IsPlainForm : Text → Prop where
  | mk {front back : Text} (front_isWhole : IsWhole front) (back_isPlaces : IsPlaces back) :
      IsPlainForm (front ++ '.' :: back)

/-- An exponent as written. -/
inductive IsExponent : Text → Prop where
  | nonneg {t : Text} (isWhole : IsWhole t) : IsExponent t
  | neg {t : Text} (isWhole : IsWhole t) : IsExponent ('-' :: t)

/-- The exponent form: one digit, the others behind a point if there are any, and the exponent. -/
inductive IsExponentForm : Text → Prop where
  | single {c : Char} {exponent : Text} (digit : c.isDigit = true) (nonzero : c ≠ '0')
      (isExponent : IsExponent exponent) : IsExponentForm (c :: 'e' :: exponent)
  | fraction {c : Char} {places exponent : Text} (digit : c.isDigit = true) (nonzero : c ≠ '0')
      (isDigits : IsDigits places) (trail : places.getLast? ≠ some '0')
      (isExponent : IsExponent exponent) :
      IsExponentForm (c :: '.' :: (places ++ 'e' :: exponent))

/-! ### Digits of whole numbers -/

/-- The digit of a number other than zero is not `0`. -/
theorem digitChar_ne_zero {n : Nat} (hlt : n < 10) (h : n ≠ 0) : n.digitChar ≠ '0' := by
  have hall : ∀ m < 10, m ≠ 0 → m.digitChar ≠ '0' := by decide
  exact hall n hlt h

/-- A number other than zero is written without a zero in front. -/
theorem head?_decimalText {n : Nat} (h : n ≠ 0) : (decimalText n).head? ≠ some '0' := by
  induction n using Nat.strongRecOn with
  | ind n ih =>
    rw [decimalText]
    rcases Nat.lt_or_ge n 10 with hlt | hge
    · rw [Nat.toDigits_of_lt_base hlt, List.head?_cons, Ne, Option.some.injEq]
      exact digitChar_ne_zero hlt h
    · rw [Nat.toDigits_of_base_le (by decide) hge,
        List.head?_append_of_ne_nil _ Nat.toDigits_ne_nil]
      exact ih (n / 10) (by omega) (by omega)

/-- A number that ten does not divide is written without a zero at the end. -/
theorem getLast?_decimalText {n : Nat} (h : n % 10 ≠ 0) : (decimalText n).getLast? ≠ some '0' := by
  have hlast : (decimalText n).getLast? = some (n % 10).digitChar := by
    rw [decimalText]
    rcases Nat.lt_or_ge n 10 with hlt | hge
    · rw [Nat.toDigits_of_lt_base hlt, Nat.mod_eq_of_lt hlt]
      rfl
    · rw [Nat.toDigits_of_base_le (by decide) hge, List.getLast?_concat]
  rw [hlast, Ne, Option.some.injEq]
  exact digitChar_ne_zero (Nat.mod_lt n (by decide)) h

/-- A natural number is written with no zero in front but for zero itself:
`IsWhole (decimalText n)`. -/
theorem isWhole_decimalText (n : Nat) : IsWhole (decimalText n) where
  isDigits := isDigits_decimalText n
  lead h := by
    rcases eq_or_ne n 0 with rfl | hne
    · rfl
    · exact absurd h (head?_decimalText hne)

/-- The mark of an exponent is no digit. -/
theorem IsDigits.ne_mark {t : Text} (h : IsDigits t) : ∀ c ∈ t, decide (c ≠ 'e') = true := by
  intro c hc
  refine decide_eq_true ?_
  rintro rfl
  exact absurd (h.2 _ hc) (by decide)

/-- Digits begin with a digit. -/
theorem IsDigits.head?_any {t : Text} (h : IsDigits t) : t.head?.any Char.isDigit = true := by
  obtain ⟨c, rest, rfl⟩ := List.exists_cons_of_ne_nil h.1
  exact h.2 c (List.mem_cons_self ..)

/-- Digits do not begin with a hyphen. -/
theorem IsDigits.head?_ne_hyphen {t : Text} (h : IsDigits t) : t.head? ≠ some '-' := by
  intro hhead
  have hdigit := h.2 '-' (List.mem_of_head? hhead)
  contradiction

/-- Without a sign, digits denote the number that they write. -/
theorem wholeDenoted_of_isDigits {t : Text} (h : IsDigits t) :
    wholeDenoted t = Nat.ofDigitChars 10 t 0 := by
  unfold wholeDenoted
  split
  · exact absurd rfl h.head?_ne_hyphen
  · rfl

/-- A whole number is written as an exponent is. -/
theorem isExponent_wholeText (n : Int) : IsExponent (Decimal.wholeText n) := by
  unfold Decimal.wholeText
  split
  · exact .neg (isWhole_decimalText _)
  · exact .nonneg (isWhole_decimalText _)

/-- **What a whole number is written as** denotes it: `wholeDenoted (Decimal.wholeText n) = n`. -/
theorem wholeDenoted_wholeText (n : Int) : wholeDenoted (Decimal.wholeText n) = n := by
  unfold Decimal.wholeText
  split
  · rw [wholeDenoted, decimalText, Nat.ofDigitChars_ten_toDigits]
    omega
  · rw [wholeDenoted_of_isDigits (isDigits_decimalText _), decimalText,
      Nat.ofDigitChars_ten_toDigits]
    omega

/-! ### Zeros at either end -/

/-- Zeros on either side of a text are dropped, and no more if it has none at its ends. -/
theorem drop_zeros {t : Text} (hhead : t.head? ≠ some '0') (hlast : t.getLast? ≠ some '0')
    (hne : t ≠ []) (j k : Nat) :
    ((List.replicate j '0' ++ (t ++ List.replicate k '0')).dropWhile (· = '0')).rdropWhile
      (· = '0') = t := by
  have hzeros (k : Nat) : ∀ c ∈ List.replicate k '0', decide (c = '0') = true := by
    intro c hc
    exact decide_eq_true (List.eq_of_mem_replicate hc)
  have hstops {u : Text} (hu : u.head? ≠ some '0') : Stops (· = '0') u := by
    intro d hd
    refine decide_eq_false ?_
    rintro rfl
    exact hu hd
  have hfront : (t ++ List.replicate k '0').head? ≠ some '0' := by
    rwa [List.head?_append_of_ne_nil _ hne]
  have hback : t.reverse.head? ≠ some '0' := by rwa [List.head?_reverse]
  rw [dropWhile_append_of_stops (hzeros j) (hstops hfront), List.rdropWhile, List.reverse_append,
    List.reverse_replicate, dropWhile_append_of_stops (hzeros k) (hstops hback),
    List.reverse_reverse]

/-! ### The forms of a decimal -/

namespace Decimal

variable {d : Decimal}

/-- A decimal with a coefficient that ten does not divide has no zero in front of its digits. -/
theorem head?_digits (h : d.coefficient % 10 ≠ 0) : d.digits.head? ≠ some '0' :=
  head?_decimalText (by omega)

/-- A decimal with a coefficient that ten does not divide has no zero at the end of its digits. -/
theorem getLast?_digits (h : d.coefficient % 10 ≠ 0) : d.digits.getLast? ≠ some '0' :=
  getLast?_decimalText h

/-- A text shows a decimal: it denotes it, and its significant digits are those of the decimal. -/
structure IsShownAs (d : Decimal) (t : Text) : Prop where
  denoted : magnitudeDenoted t = d.value
  significant : significant t = d.digits
  head : t.head?.any Char.isDigit = true

/-- Digits on either side of a point, as the plain form has them. -/
structure IsSplit (d : Decimal) (front back : Text) : Prop extends d.IsPlain front back where
  front_isWhole : IsWhole front
  back_isPlaces : IsPlaces back
  zeros : ∃ j k, front ++ back = List.replicate j '0' ++ (d.digits ++ List.replicate k '0')

/-- The plain form of a decimal with a coefficient that ten does not divide has its digits on either
side of a point, and zeros only to fill up to it. -/
theorem exists_isSplit (h : d.coefficient % 10 ≠ 0) : ∃ front back, d.IsSplit front back := by
  have hhead := head?_digits h
  have hlast := getLast?_digits h
  have hne := d.isDigits_digits.1
  rcases le_or_gt 0 d.exponent with hwhole | hfraction
  · have hplain := isPlain_of_nonneg hwhole
    refine ⟨_, _, hplain, ⟨hplain.front_isDigits, fun hzero => ?_⟩,
      ⟨hplain.back_isDigits, fun _ => rfl⟩, 0, d.exponent.toNat + 1, by simp [List.replicate_succ']⟩
    rw [List.head?_append_of_ne_nil _ hne] at hzero
    exact absurd hzero hhead
  · by_cases hpoint : 0 < d.point
    · have hplain := isPlain_of_point_pos hfraction hpoint
      refine ⟨_, _, hplain, ⟨hplain.front_isDigits, fun hzero => ?_⟩,
        ⟨hplain.back_isDigits, fun hzero => ?_⟩, 0, 0, by simp⟩
      · rw [List.head?_take, if_neg (by omega)] at hzero
        exact absurd hzero hhead
      · rw [List.getLast?_drop] at hzero
        split at hzero
        · contradiction
        · exact absurd hzero hlast
    · have hplain := isPlain_of_point_nonpos hfraction hpoint
      refine ⟨_, _, hplain, ⟨hplain.front_isDigits, fun _ => rfl⟩,
        ⟨hplain.back_isDigits, fun hzero => ?_⟩, (-d.point).toNat + 1, 0,
        by simp [List.replicate_succ]⟩
      rw [List.getLast?_append_of_ne_nil _ hne] at hzero
      exact absurd hzero hlast

/-- A decimal with a coefficient that ten does not divide has a plain form:
`IsPlainForm d.plain`. -/
theorem isPlainForm_plain (h : d.coefficient % 10 ≠ 0) : IsPlainForm d.plain := by
  obtain ⟨front, back, hsplit⟩ := exists_isSplit h
  rw [hsplit.text]
  exact ⟨hsplit.front_isWhole, hsplit.back_isPlaces⟩

/-- **The plain form** shows its decimal. -/
theorem isShownAs_plain (h : d.coefficient % 10 ≠ 0) : d.IsShownAs d.plain := by
  obtain ⟨front, back, hsplit⟩ := exists_isSplit h
  obtain ⟨j, k, hzeros⟩ := hsplit.zeros
  have hmark : ∀ c ∈ d.plain, decide (c ≠ 'e') = true := by
    rw [hsplit.text]
    exact List.forall_mem_append.2 ⟨hsplit.front_isDigits.ne_mark,
      List.forall_mem_cons.2 ⟨rfl, hsplit.back_isDigits.ne_mark⟩⟩
  have hfront : d.plain.takeWhile (· ≠ 'e') = d.plain := List.takeWhile_eq_self_iff.2 hmark
  have hdigits : d.plain.filter Char.isDigit = front ++ back := by
    rw [hsplit.text, List.filter_append, List.filter_eq_self.2 hsplit.front_isDigits.2,
      List.filter_cons_of_neg (by decide), List.filter_eq_self.2 hsplit.back_isDigits.2]
  constructor
  case denoted =>
    rw [magnitudeDenoted, hfront, List.dropWhile_eq_nil_iff.2 hmark, denoted_plain]
    exact mul_one _
  case significant =>
    rw [LoxLex.significant, hfront, hdigits, hzeros,
      drop_zeros (head?_digits h) (getLast?_digits h) d.isDigits_digits.1]
  case head =>
    rw [hsplit.text, List.head?_append_of_ne_nil _ hsplit.front_isDigits.1]
    exact hsplit.front_isDigits.head?_any

/-- The exponent form has the first digit in front of the point, if there are others. -/
theorem withExponent_eq (d : Decimal) :
    ∃ c places, d.digits = c :: places ∧ IsDigits (c :: places) ∧
      d.withExponent =
        (if places = [] then [c] else c :: '.' :: places) ++ 'e' :: wholeText (d.point - 1) := by
  have hdigits := d.isDigits_digits
  unfold withExponent
  obtain ⟨c, places, heq⟩ := List.exists_cons_of_ne_nil hdigits.1
  rw [heq] at hdigits ⊢
  refine ⟨c, places, rfl, hdigits, ?_⟩
  by_cases hnil : places = [] <;> simp [hnil]

/-- A decimal with a coefficient that ten does not divide has an exponent form:
`IsExponentForm d.withExponent`. -/
theorem isExponentForm_withExponent (h : d.coefficient % 10 ≠ 0) :
    IsExponentForm d.withExponent := by
  have hhead := head?_digits h
  have hlast := getLast?_digits h
  obtain ⟨c, places, heq, hdigits, hform⟩ := d.withExponent_eq
  rw [heq] at hhead hlast
  obtain ⟨hfirst, hplaces⟩ := List.forall_mem_cons.1 hdigits.2
  have hnonzero : c ≠ '0' := by simpa using hhead
  have hexponent := isExponent_wholeText (d.point - 1)
  rw [hform]
  split
  · exact .single hfirst hnonzero hexponent
  next hne =>
    rw [List.getLast?_cons_of_ne_nil hne] at hlast
    exact .fraction hfirst hnonzero ⟨hne, hplaces⟩ hlast hexponent

/-- The first digit of the exponent form and the others denote the coefficient, divided by ten for
each of the others. -/
theorem denoted_mantissa {c : Char} {places : Text} (h : IsDigits (c :: places)) :
    denoted (if places = [] then [c] else c :: '.' :: places) =
      digitsValue (c :: places) / 10 ^ places.length := by
  obtain ⟨hfirst, hplaces⟩ := List.forall_mem_cons.1 h.2
  have hsingle : IsDigits [c] := ⟨by simp, by simpa using hfirst⟩
  split
  next hnil =>
    subst hnil
    rw [denoted_whole hsingle, List.length_nil, pow_zero, div_one]
  next hne => exact denoted_fraction hsingle ⟨hne, hplaces⟩

/-- **The exponent form** shows its decimal. -/
theorem isShownAs_withExponent (h : d.coefficient % 10 ≠ 0) : d.IsShownAs d.withExponent := by
  have hhead := head?_digits h
  have hlast := getLast?_digits h
  obtain ⟨c, places, heq, hdigits, hform⟩ := d.withExponent_eq
  obtain ⟨hfirst, hplaces⟩ := List.forall_mem_cons.1 hdigits.2
  have hmark : ∀ b ∈ (if places = [] then [c] else c :: '.' :: places),
      decide (b ≠ 'e') = true := by
    obtain ⟨hc, hmarks⟩ := List.forall_mem_cons.1 hdigits.ne_mark
    split
    · simpa using hc
    · exact List.forall_mem_cons.2 ⟨hc, List.forall_mem_cons.2 ⟨rfl, hmarks⟩⟩
  have hstops : Stops (· ≠ 'e') ('e' :: wholeText (d.point - 1)) := stops_cons.2 (by simp)
  have hfront : d.withExponent.takeWhile (· ≠ 'e') =
      if places = [] then [c] else c :: '.' :: places := by
    rw [hform, takeWhile_append_of_stops hmark hstops]
  have hback : d.withExponent.dropWhile (· ≠ 'e') = 'e' :: wholeText (d.point - 1) := by
    rw [hform, dropWhile_append_of_stops hmark hstops]
  constructor
  case denoted =>
    have hcoefficient : digitsValue (c :: places) = d.coefficient := by
      rw [digitsValue_eq, ← heq, ofDigitChars_digits]
    have hpoint : d.point - 1 = d.exponent + places.length := by
      rw [point, heq, List.length_cons]
      omega
    have hpos : (10 : ℚ) ^ places.length ≠ 0 := by positivity
    rw [magnitudeDenoted, hfront, hback, denoted_mantissa hdigits, hcoefficient, List.drop_one,
      List.tail_cons, wholeDenoted_wholeText, hpoint, zpow_add₀ (by norm_num), zpow_natCast, value]
    field_simp
  case significant =>
    have hfilter : (if places = [] then [c] else c :: '.' :: places).filter Char.isDigit =
        d.digits := by
      rw [heq]
      split
      next hnil => simp [hnil, hfirst]
      next =>
        rw [List.filter_cons_of_pos hfirst, List.filter_cons_of_neg (by decide),
          List.filter_eq_self.2 hplaces]
    have hdrop := drop_zeros hhead hlast d.isDigits_digits.1 0 0
    rw [LoxLex.significant, hfront, hfilter]
    simpa using hdrop
  case head =>
    rw [hform]
    split <;> exact hfirst

end Decimal

/-! ### One form or the other -/

/-- Only the exponent form has the mark of an exponent. -/
theorem IsPlainForm.not_isExponentForm {t : Text} (h : IsPlainForm t) : ¬ IsExponentForm t := by
  have hmark : 'e' ∉ t := by
    obtain ⟨hfront, hback⟩ := h
    intro hmem
    rcases List.mem_append.1 hmem with hin | hin
    · exact absurd (hfront.isDigits.2 _ hin) (by decide)
    · rcases List.mem_cons.1 hin with heq | hin
      · contradiction
      · exact absurd (hback.isDigits.2 _ hin) (by decide)
  rintro ⟨⟩ <;> simp at hmark

end LoxLex
