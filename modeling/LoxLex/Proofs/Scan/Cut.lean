import LoxLex.Proofs.Scan.Invariant
import LoxLex.Proofs.Text.Offset

/-! # Cutting a source

A source may be cut wherever a step of its scan begins. The first part is scanned as it was, though
less text follows now; the second part is scanned as it was, though nothing precedes it now but for
the lines (`scan_append_of_cut`). So a step depends on what is before it through its line alone. -/

namespace LoxLex

variable {front back : Text}

/-- Where a step begins, and at the end of a source, the pieces on either side make up the text on
either side. -/
theorem exists_pieces_of_cut
    (h : (∃ s ∈ (scan (front ++ back)).steps, s.offset = utf8Length front) ∨ back = []) :
    ∃ ps qs, pieces (front ++ back) = ps ++ qs ∧ joined ps = front ∧ joined qs = back := by
  rcases h with ⟨s, hs, hoffset⟩ | rfl
  · obtain ⟨done, more, hsteps⟩ := List.append_of_mem hs
    obtain ⟨htext, hdone, -, -⟩ := of_steps_scan_eq hsteps
    -- Both texts in front of the step are beginnings of the source, of the same number of bytes.
    obtain ⟨hfront, hback⟩ := eq_of_utf8Length_eq htext (hdone.symm.trans hoffset)
    refine ⟨(done.map Step.unmarked).map Step.piece,
      ((s :: more).map Step.unmarked).map Step.piece, ?_, ?_, ?_⟩
    · rw [← List.map_append, ← List.map_append, ← hsteps, map_unmarked_steps_scan,
        map_piece_placed]
    · rw [joined_map_piece, passed_map_unmarked, hfront]
    · rw [joined_map_piece, passed_map_unmarked, passed_cons, hback]
  · exact ⟨pieces front, [], by simp⟩

/-- The pieces of a source that is cut where a step begins are those of its parts. -/
theorem pieces_append_of_cut
    (h : (∃ s ∈ (scan (front ++ back)).steps, s.offset = utf8Length front) ∨ back = []) :
    pieces (front ++ back) = pieces front ++ pieces back := by
  obtain ⟨ps, qs, hpieces, rfl, rfl⟩ := exists_pieces_of_cut h
  obtain ⟨hps, hqs⟩ := pieces_eq_of_append hpieces
  rw [hpieces, hps, hqs]

/-- The pieces of a second part are placed below the first part. -/
theorem placed_pieces_append (h : pieces (front ++ back) = pieces front ++ pieces back) :
    placed 0 1 (pieces (front ++ back)) =
      placed 0 1 (pieces front) ++
        placed (utf8Length front) (newlines front + 1) (pieces back) := by
  rw [h, placed_append, joined_pieces, Nat.zero_add, Nat.add_comm 1]

/-- **Cut law.** A source that is cut where a step begins, or at its end, has the tokens of its
first part but for the end of input, and below them those of its second part; and likewise the
errors. -/
theorem scan_append_of_cut (front back : Text)
    (h : (∃ s ∈ (scan (front ++ back)).steps, s.offset = utf8Length front) ∨ back = []) :
    (scan (front ++ back)).tokens =
        (scan front).tokens.dropLast ++ (scan back).tokens.map (Token.below (newlines front)) ∧
      (scan (front ++ back)).errors =
        (scan front).errors ++ (scan back).errors.map (LexicalError.below (newlines front)) := by
  have hplaced := placed_pieces_append (pieces_append_of_cut h)
  constructor
  · rw [tokens_scan, tokens_scan front, tokens_scan back, hplaced, List.filterMap_append,
      List.dropLast_concat, List.map_append, filterMap_token?_placed _ 0, List.append_assoc,
      List.map_singleton, Token.below_endOfInput, newlines_append, Nat.add_left_comm]
  · rw [errors_scan, errors_scan front, errors_scan back, hplaced, List.filterMap_append,
      filterMap_error?_placed _ 0]

/-- The cut law behind a number whose point belongs to no number, where a string of two lines and a
search for the end of a comment have gone before. -/
theorem scan_append_of_cut_at_point :
    (∃ s ∈ (scan ("\"é\n\"/*1".toList ++ ".x \"".toList)).steps,
        s.offset = utf8Length "\"é\n\"/*1".toList) ∧
      (scan ("\"é\n\"/*1".toList ++ ".x \"".toList)).tokens =
        (scan "\"é\n\"/*1".toList).tokens.dropLast ++
          (scan ".x \"".toList).tokens.map (Token.below 1) ∧
      (scan ("\"é\n\"/*1".toList ++ ".x \"".toList)).errors =
        (scan "\"é\n\"/*1".toList).errors ++
          (scan ".x \"".toList).errors.map (LexicalError.below 1) := by
  have hcut : ∃ s ∈ (scan ("\"é\n\"/*1".toList ++ ".x \"".toList)).steps,
      s.offset = utf8Length "\"é\n\"/*1".toList := by decide +kernel
  exact ⟨hcut, scan_append_of_cut _ _ (.inl hcut)⟩

end LoxLex
