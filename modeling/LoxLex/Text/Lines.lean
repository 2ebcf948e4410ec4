import LoxLex.Text.Basic

/-! # Lines

The lines of an input, as bytes. A line feed ends a line and is dropped, with one carriage return in
front of it; what follows the last line feed is a line unless it is empty, and keeps all its bytes.
`lines_of_eq_cons` and `lines_of_eq_nil` say so for the first and for the last line. -/

namespace LoxLex

/-- A line without the carriage return at its end, if one is there. -/
def withoutReturn (line : Bytes) : Bytes :=
  if line.getLast? = some 0x0D then line.dropLast else line

/-- What comes behind a line feed is shorter than the input. -/
theorem length_lt_of_dropWhile_eq {input rest : Bytes} {b : UInt8}
    (h : input.dropWhile (· ≠ 0x0A) = b :: rest) : rest.length < input.length := by
  have := (List.dropWhile_sublist (l := input) (fun b => decide (b ≠ 0x0A))).length_le
  rw [h, List.length_cons] at this
  omega

/-- The lines of an input, put after those already found. -/
def linesFrom (done : Array Bytes) (input : Bytes) : Array Bytes :=
  match _h : input.dropWhile (· ≠ 0x0A) with
  | [] => if input = [] then done else done.push input
  | _ :: rest => linesFrom (done.push (withoutReturn (input.takeWhile (· ≠ 0x0A)))) rest
termination_by input.length
decreasing_by exact length_lt_of_dropWhile_eq _h

/-- The lines of an input. -/
def lines (input : Bytes) : List Bytes := (linesFrom #[] input).toList

/-- An input without a line feed is one line, put after those `done`, unless it is empty. -/
theorem linesFrom_of_eq_nil {input : Bytes} (h : input.dropWhile (· ≠ 0x0A) = [])
    (done : Array Bytes) : linesFrom done input = if input = [] then done else done.push input := by
  rw [linesFrom]
  split
  · rfl
  next hcons => rw [h] at hcons; contradiction

/-- An input with a line feed has what stands in front of it as its first line, without a return at
its end, and goes on with the lines of what comes behind. -/
theorem linesFrom_of_eq_cons {input rest : Bytes} {b : UInt8}
    (h : input.dropWhile (· ≠ 0x0A) = b :: rest) (done : Array Bytes) :
    linesFrom done input =
      linesFrom (done.push (withoutReturn (input.takeWhile (· ≠ 0x0A)))) rest := by
  rw [linesFrom]
  split
  next hnil => rw [h] at hnil; contradiction
  next hcons => rw [h] at hcons; cases hcons; rfl

/-- The lines already found only stand in front. -/
theorem toList_linesFrom (done : Array Bytes) (input : Bytes) :
    (linesFrom done input).toList = done.toList ++ lines input := by
  rw [lines]
  match h : input.dropWhile (· ≠ 0x0A) with
  | [] =>
    rw [linesFrom_of_eq_nil h, linesFrom_of_eq_nil h]
    split <;> simp
  | _ :: rest =>
    rw [linesFrom_of_eq_cons h, linesFrom_of_eq_cons h, toList_linesFrom, toList_linesFrom]
    simp
termination_by input.length
decreasing_by all_goals exact length_lt_of_dropWhile_eq h

/-- An input without a line feed is one line, unless it is empty. -/
theorem lines_of_eq_nil {input : Bytes} (h : input.dropWhile (· ≠ 0x0A) = []) :
    lines input = if input = [] then [] else [input] := by
  rw [lines, linesFrom_of_eq_nil h]
  split <;> rfl

/-- A line feed ends the first line. -/
theorem lines_of_eq_cons {input rest : Bytes} {b : UInt8}
    (h : input.dropWhile (· ≠ 0x0A) = b :: rest) :
    lines input = withoutReturn (input.takeWhile (· ≠ 0x0A)) :: lines rest := by
  rw [lines, linesFrom_of_eq_cons h, toList_linesFrom]
  rfl

end LoxLex
