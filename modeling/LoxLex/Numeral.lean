import LoxLex.Text.Basic
import LoxLex.Binary64.Nearest

/-! # Numerals

A numeral is one or more decimal digits, or two such runs with a point between them. It denotes the
whole number that all its digits write, divided by ten for each digit behind the point; its value is
the binary64 number nearest to that. -/

namespace LoxLex

/-! ### Runs of digits -/

/-- The value of a decimal digit. -/
def digitValue (c : Char) : Nat := c.toNat - '0'.toNat

/-- The whole number that a run of decimal digits writes. A long run is read as two halves, so that
the work stays near that of multiplying the results. -/
def digitsValue (t : Text) : Nat :=
  if t.length ≤ 16 then t.foldl (fun n c => n * 10 + digitValue c) 0
  else
    let behind := t.length / 2
    let front := t.length - behind
    digitsValue (t.take front) * Nat.pow 10 behind + digitsValue (t.drop front)
termination_by t.length
decreasing_by all_goals (simp only [List.length_take, List.length_drop]; omega)

/-! ### Numerals -/

/-- A numeral: the whole number that its digits write, and how many of them stand behind the
point. -/
structure Numeral where
  digits : Nat
  places : Nat
  deriving DecidableEq, Repr

namespace Numeral

/-- The numeral that a text is, if it is one. -/
def ofText? (t : Text) : Option Numeral :=
  let front := t.takeWhile Char.isDigit
  match t.dropWhile Char.isDigit with
  | [] => if front = [] then none else some ⟨digitsValue front, 0⟩
  | '.' :: behind =>
    if front ≠ [] ∧ behind ≠ [] ∧ behind.all Char.isDigit then
      some ⟨digitsValue (front ++ behind), behind.length⟩
    else none
  | _ => none

/-- The binary64 number nearest to what a numeral denotes. -/
def value (n : Numeral) : Binary64 := Binary64.nearest n.digits (Nat.pow 10 n.places)

end Numeral

end LoxLex
