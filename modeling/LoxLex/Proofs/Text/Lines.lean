import LoxLex.Text.Lines
import LoxLex.Proofs.Text.Run
import LoxLex.Proofs.Text.Utf8

/-! # The lines of a text

`Text.lines` says what the lines of a text are, by the text alone: it is split at every line end, no
line keeps a return that stood in front of its line end, and what is left behind the last line end
is a line if it is not empty. They are what `lines` finds in the UTF-8 form of the text, byte by
byte (`lines_encode`): a line end and a return are bytes that occur in no other character. Both
sides are taken line by line, from the last line upwards (`line_induction`). -/

namespace LoxLex

/-- What holds of every list without a separator, and of such a list with a separator and another
list behind it if it holds of that list, holds of every list. -/
@[elab_as_elim] theorem line_induction {α : Type} (sep : α) {motive : List α → Prop}
    (last : ∀ t, sep ∉ t → motive t)
    (line : ∀ s t, sep ∉ s → motive t → motive (s ++ sep :: t)) (t : List α) : motive t := by
  by_cases h : sep ∈ t
  · obtain ⟨s, below, heq, hs⟩ := List.eq_append_cons_of_mem h
    have hlength : below.length < t.length := by
      rw [heq, List.length_append, List.length_cons]
      omega
    rw [heq]
    exact line s below hs (line_induction sep last line below)
  · exact last t h
termination_by t.length

/-- If one entry is taken away from the end of a list when it stands there, it is all that is. -/
theorem ite_getLast?_cases {α : Type} [DecidableEq α] (a : α) (l : List α) :
    (if l.getLast? = some a then l.dropLast else l) = l ∨
      l = (if l.getLast? = some a then l.dropLast else l) ++ [a] := by
  split
  next h =>
    obtain ⟨front, rfl⟩ := List.getLast?_eq_some_iff.1 h
    exact .inr (by rw [List.dropLast_concat])
  next => exact .inl rfl

/-! ### Lines of characters -/

namespace Text

/-- A line without the return at its end, if one is there. -/
def withoutReturn (line : Text) : Text :=
  if line.getLast? = some '\r' then line.dropLast else line

/-- The lines of a text. -/
def lines (t : Text) : List Text :=
  (t.splitOn '\n').dropLast.map withoutReturn ++
    (t.splitOn '\n').getLast?.toList.filter (· ≠ [])

variable {s t : Text}

/-- A return at the end of a line is all that is taken away. -/
theorem withoutReturn_cases (line : Text) :
    line.withoutReturn = line ∨ line = line.withoutReturn ++ ['\r'] :=
  ite_getLast?_cases '\r' line

/-- A text without a line end is one line, unless it is empty. -/
theorem lines_of_not_mem (h : '\n' ∉ t) : lines t = if t = [] then [] else [t] := by
  rw [lines, List.splitOn_eq_singleton h]
  split
  next hnil => rw [hnil]; rfl
  next hne => simp [hne]

/-- A line end ends the first line. -/
theorem lines_append (h : '\n' ∉ s) : lines (s ++ '\n' :: t) = withoutReturn s :: lines t := by
  have hne : t.splitOn '\n' ≠ [] := List.splitOn_ne_nil _ _
  rw [lines, List.splitOn_append_cons_self_of_not_mem h, List.dropLast_cons_of_ne_nil hne,
    List.getLast?_cons_of_ne_nil hne]
  rfl

end Text

/-! ### Lines of bytes -/

/-- A return at the end of a line of bytes is all that is taken away. -/
theorem withoutReturn_cases (line : Bytes) :
    withoutReturn line = line ∨ line = withoutReturn line ++ [0x0D] :=
  ite_getLast?_cases 0x0D line

/-- Bytes without a line feed are one line, unless there are none. -/
theorem lines_of_not_mem {input : Bytes} (h : 0x0A ∉ input) :
    lines input = if input = [] then [] else [input] := by
  refine lines_of_eq_nil ?_
  rw [← List.append_nil input, List.dropWhile_append_of_pos (forall_ne_of_not_mem h),
    List.dropWhile_nil]

/-- A line feed ends the first line of bytes. -/
theorem lines_append {front : Bytes} (h : 0x0A ∉ front) (behind : Bytes) :
    lines (front ++ 0x0A :: behind) = withoutReturn front :: lines behind := by
  have hall : ∀ b ∈ front, decide (b ≠ 0x0A) = true := forall_ne_of_not_mem h
  have hdrop : (front ++ 0x0A :: behind).dropWhile (· ≠ 0x0A) = 0x0A :: behind := by
    rw [List.dropWhile_append_of_pos hall, List.dropWhile_cons_of_neg (by simp)]
  have htake : (front ++ 0x0A :: behind).takeWhile (· ≠ 0x0A) = front := by
    rw [List.takeWhile_append_of_pos hall, List.takeWhile_cons_of_neg (by simp), List.append_nil]
  rw [lines_of_eq_cons hdrop, htake]

/-- No line of bytes holds a line feed. -/
theorem not_mem_of_mem_lines {input line : Bytes} (h : line ∈ lines input) : 0x0A ∉ line := by
  induction input using line_induction (0x0A : UInt8) with
  | last t ht =>
    rw [lines_of_not_mem ht] at h
    split at h
    · contradiction
    · rw [List.mem_singleton.1 h]
      exact ht
  | line s t hs ih =>
    rw [lines_append hs, List.mem_cons] at h
    rcases h with rfl | h
    · intro hmem
      rcases withoutReturn_cases s with heq | heq
      · exact hs (heq ▸ hmem)
      · rw [heq] at hs
        exact hs (List.mem_append_left _ hmem)
    · exact ih h

/-! ### Lines in UTF-8 -/

/-- In UTF-8 a line end is a line feed, and nothing else has one in it. -/
theorem lineFeed_mem_encode_iff {t : Text} : 0x0A ∈ Utf8.encode t ↔ '\n' ∈ t :=
  Utf8.mem_encode_iff (show '\n'.toNat < 0x80 by decide)

/-- A return at the end of a line is one at the end of its UTF-8 form. -/
theorem withoutReturn_encode (line : Text) :
    withoutReturn (Utf8.encode line) = Utf8.encode line.withoutReturn := by
  have hlast : (Utf8.encode line).getLast? = some 0x0D ↔ line.getLast? = some '\r' :=
    Utf8.getLast?_encode_eq_some_iff (show '\r'.toNat < 0x80 by decide)
  rw [withoutReturn, Text.withoutReturn]
  by_cases h : line.getLast? = some '\r'
  · rw [if_pos (hlast.2 h), if_pos h]
    obtain ⟨front, rfl⟩ := List.getLast?_eq_some_iff.1 h
    rw [List.dropLast_concat, Utf8.encode_append]
    exact List.dropLast_concat
  · rw [if_neg (mt hlast.1 h), if_neg h]

/-- **The lines of a text** are found in its UTF-8 form. -/
theorem lines_encode (t : Text) : lines (Utf8.encode t) = t.lines.map Utf8.encode := by
  induction t using line_induction '\n' with
  | last t h =>
    rw [lines_of_not_mem (mt lineFeed_mem_encode_iff.1 h), Text.lines_of_not_mem h]
    by_cases ht : t = []
    · rw [if_pos ht, if_pos (Utf8.encode_eq_nil_iff.2 ht), List.map_nil]
    · rw [if_neg ht, if_neg (mt Utf8.encode_eq_nil_iff.1 ht), List.map_singleton]
  | line s t h ih =>
    have hbytes : Utf8.encode (s ++ '\n' :: t) = Utf8.encode s ++ 0x0A :: Utf8.encode t :=
      Utf8.encode_append s ('\n' :: t)
    rw [hbytes, lines_append (mt lineFeed_mem_encode_iff.1 h), Text.lines_append h, ih,
      withoutReturn_encode, List.map_cons]

end LoxLex
