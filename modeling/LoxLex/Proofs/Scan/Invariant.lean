import LoxLex.Proofs.Scan.Positions
import LoxLex.Proofs.Text.Offset

/-! # Where a scan stands

Between two steps a scan stands behind the text that it has passed over, which its offset and its
line are counted from, and it may keep in mind from where the end of a comment was last looked for
in vain. `Cursor.StandsBehind` is the invariant: it holds at the start, and a step keeps it
(`StandsBehind.next`), since from the offset kept in mind on there is no close mark. By it every
step takes a leading piece, so a scan takes the pieces of its source (`map_unmarked_steps_scan`).
The tokens and errors of a source are those of its pieces (`tokens_scan`, `errors_scan`), and
`of_steps_scan_eq` says of any step what is before and behind it. So the steps are in order, in
offset and in line (`endsBefore_of_mem`). -/

namespace LoxLex

/-! ### What one step does -/

namespace Piece

/-- No operator bears a mark. -/
theorem barren_operator (alone withEqual : TokenKind) (c : Char) (rest : Text) :
    (operator alone withEqual c rest).1.barren = false := by
  unfold operator
  split <;> rfl

/-- No string bears a mark. -/
theorem barren_string (rest : Text) : (string rest).1.barren = false := by
  unfold string
  split <;> rfl

/-- No numeral bears a mark. -/
theorem barren_numeral (lexeme rest : Text) : (numeral lexeme rest).1.barren = false := by
  unfold numeral
  split <;> rfl

/-- No number bears a mark. -/
theorem barren_number (t : Text) : (number t).1.barren = false := by
  unfold number
  split
  · split <;> exact barren_numeral ..
  · exact barren_numeral ..

/-- What bears a mark behind a slash is the slash alone, and no close mark is in what is left. -/
theorem of_barren_slash {search : Bool} {rest : Text} (h : (slash search rest).1.barren = true) :
    (slash search rest).1.text = ['/'] ∧ ¬ closeMark <:+: (slash search rest).2 := by
  unfold slash at h ⊢
  split at h
  · contradiction
  next behind =>
    cases search with
    | false => contradiction
    | true =>
      cases hend : closeEnd? ('*' :: behind) with
      | none => simp [closeEnd?_eq_none_iff.1 hend]
      | some n => simp [hend] at h
  · contradiction

/-- Only a slash whose comment is searched for its end in vain bears a mark. -/
theorem of_barren_front {search : Bool} {c : Char} {rest : Text}
    (h : (front search c rest).1.barren = true) :
    (front search c rest).1.text = ['/'] ∧ ¬ closeMark <:+: (front search c rest).2 := by
  cases hc : CharClass.of c <;> simp only [front, hc] at h ⊢
  case slash => exact of_barren_slash h
  case operator => simp [barren_operator] at h
  case quote => simp [barren_string] at h
  case digit => simp [barren_number] at h
  all_goals contradiction

end Piece

namespace Cursor

variable {source before : Text} {c after : Cursor} {s : Step}

/-- A step takes the piece at the front and goes behind it. -/
theorem exists_of_next?_eq_some (h : c.next? = some (s, after)) :
    ∃ first rest, c.rest = first :: rest ∧
      s = ⟨c.offset, c.line, (Piece.front c.searches first rest).1⟩ ∧
      after = c.after (Piece.front c.searches first rest).1
        (Piece.front c.searches first rest).2 := by
  unfold next? at h
  split at h
  · contradiction
  next first rest hrest =>
    rw [Option.some.injEq, Prod.mk.injEq] at h
    exact ⟨first, rest, hrest, h.1.symm, h.2.symm⟩

/-- **Where a cursor stands.** The cursor `c` stands in `source` behind the text `before`, and from
the offset that it keeps in mind on, which lies in that text, the source has no close mark. -/
structure StandsBehind (source before : Text) (c : Cursor) : Prop where
  text : before ++ c.rest = source
  offset : c.offset = utf8Length before
  line : c.line = 1 + newlines before
  memory : ∀ f, c.barrenFrom = some f →
    ∃ front between, before = front ++ between ∧ utf8Length front = f ∧
      ¬ closeMark <:+: between ++ c.rest

/-- At the start a cursor stands behind nothing: `StandsBehind source [] (start source)`. -/
theorem standsBehind_start (source : Text) : StandsBehind source [] (start source) where
  text := rfl
  offset := rfl
  line := rfl
  memory := by simp [start]

/-- A comment that is not searched for its end has none. -/
theorem StandsBehind.not_infix (h : StandsBehind source before c) (hs : c.searches = false) :
    ¬ closeMark <:+: c.rest := by
  unfold searches at hs
  split at hs
  · contradiction
  next f hf =>
    obtain ⟨front, between, -, -, hnone⟩ := h.memory f hf
    intro hclose
    exact hnone (hclose.trans (List.suffix_append ..).isInfix)

/-- A step takes a leading piece. -/
theorem StandsBehind.leads (h : StandsBehind source before c) (hn : c.next? = some (s, after)) :
    s.piece.unmarked.Leads after.rest := by
  obtain ⟨first, rest, hrest, rfl, rfl⟩ := exists_of_next?_eq_some hn
  apply Piece.leads_front
  intro hs _ _ hclose
  have hmark : closeMark <:+: c.rest := by
    rw [hrest]
    exact hclose.trans (List.suffix_cons ..).isInfix
  exact h.not_infix hs hmark

/-- **One step.** A cursor that stands behind some text stands behind the piece too after a step. -/
theorem StandsBehind.next (h : StandsBehind source before c) (hn : c.next? = some (s, after)) :
    StandsBehind source (before ++ s.piece.text) after := by
  have htext : s.piece.text ++ after.rest = c.rest := text_append_rest hn
  obtain ⟨first, rest, hrest, hs, hafter⟩ := exists_of_next?_eq_some hn
  have hpiece : s.piece = (Piece.front c.searches first rest).1 := by rw [hs]
  rw [← hpiece] at hafter
  constructor
  case text => rw [List.append_assoc, htext, h.text]
  case offset => rw [hafter, utf8Length_append, ← h.offset]; rfl
  case line => rw [hafter, newlines_append, ← Nat.add_assoc, ← h.line]; rfl
  case memory =>
    intro f hf
    by_cases hbarren : s.piece.barren = true
    · -- The search from this star has failed: the new mark is where the cursor stands.
      have hmark := hbarren
      rw [hpiece] at hmark
      obtain ⟨hslash, hnone⟩ := Piece.of_barren_front hmark
      have hfrom : after.barrenFrom = some (c.offset + 1) := by rw [hafter]; exact if_pos hbarren
      rw [hfrom, Option.some.injEq] at hf
      refine ⟨before ++ s.piece.text, [], (List.append_nil _).symm, ?_, ?_⟩
      · rw [← hf, h.offset, utf8Length_append, hpiece, hslash]
        rfl
      · rw [List.nil_append, hafter]
        exact hnone
    · -- What is kept in mind is kept, and the piece goes from one side of the cursor to the other.
      have hfrom : after.barrenFrom = c.barrenFrom := by rw [hafter]; exact if_neg hbarren
      obtain ⟨front, between, hbefore, hfront, hnone⟩ := h.memory f (hfrom ▸ hf)
      refine ⟨front, between ++ s.piece.text, by rw [hbefore, List.append_assoc], hfront, ?_⟩
      rwa [List.append_assoc, htext]

/-- The pieces that are left are the one of a step and those left after it. -/
theorem StandsBehind.pieces_rest (h : StandsBehind source before c)
    (hn : c.next? = some (s, after)) : pieces c.rest = s.piece.unmarked :: pieces after.rest := by
  rw [← text_append_rest hn, ← Piece.text_unmarked, pieces_append_of_leads (h.leads hn)]

/-- A cursor from which no step is taken stands at the end of the source. -/
theorem rest_of_next?_eq_none (h : c.next? = none) : c.rest = [] := by
  unfold next? at h
  split at h
  · assumption
  · contradiction

/-! ### What a run does -/

/-- **Runs.** What holds at the end of the source, and of a cursor if it holds after its next step,
holds of every cursor. -/
theorem run_induction {motive : Cursor → Prop} (stop : ∀ c, c.next? = none → motive c)
    (next : ∀ c s after, c.next? = some (s, after) → motive after → motive c) (c : Cursor) :
    motive c := by
  match h : c.next? with
  | none => exact stop c h
  | some (s, after) => exact next c s after h (run_induction stop next after)
termination_by c.rest.length
decreasing_by exact length_rest_lt h

/-- The steps from a cursor take the pieces of what is left of the source. -/
theorem StandsBehind.map_unmarked_steps (h : StandsBehind source before c) :
    c.steps.map Step.unmarked = placed c.offset c.line (pieces c.rest) := by
  induction c using run_induction generalizing before with
  | stop c hn =>
    rw [steps_of_next?_eq_none hn, rest_of_next?_eq_none hn, pieces_nil]
    rfl
  | next c s after hn ih =>
    have hafter : StandsBehind source (before ++ s.piece.text) after := h.next hn
    rw [steps_of_next?_eq_some hn, h.pieces_rest hn, List.map_cons, ih hafter, hafter.offset,
      hafter.line, utf8Length_append, newlines_append, ← h.offset, ← Nat.add_assoc, ← h.line]
    obtain ⟨first, rest, -, rfl, -⟩ := exists_of_next?_eq_some hn
    rfl

/-- At the end of a scan the cursor stands behind all of the source. -/
theorem StandsBehind.stop (h : StandsBehind source before c) :
    StandsBehind source source c.stop := by
  induction c using run_induction generalizing before with
  | stop c hn =>
    have hbefore : before = source := by
      rw [← h.text, rest_of_next?_eq_none hn, List.append_nil]
    rw [stop_of_next?_eq_none hn]
    exact hbefore ▸ h
  | next c s after hn ih =>
    rw [stop_of_next?_eq_some hn]
    exact ih (h.next hn)

end Cursor

/-! ### Scans -/

/-- A scan takes the pieces of its source. -/
theorem map_unmarked_steps_scan (source : Text) :
    (scan source).steps.map Step.unmarked = placed 0 1 (pieces source) :=
  (Cursor.standsBehind_start source).map_unmarked_steps

/-- The pieces of a source are those of the steps of its scan. -/
theorem map_unmarked_piece_steps_scan (source : Text) :
    ((scan source).steps.map fun s => s.piece.unmarked) = pieces source := by
  rw [← map_piece_placed 0 1 (pieces source), ← map_unmarked_steps_scan, List.map_map]
  rfl

/-- A scan ends on the last line of its source. -/
theorem line_stop_scan (source : Text) : (scan source).stop.line = 1 + newlines source :=
  (Cursor.standsBehind_start source).stop.line

/-- Steps have the same tokens without their marks. -/
theorem filterMap_token?_map_unmarked (steps : List Step) :
    (steps.map Step.unmarked).filterMap Step.token? = steps.filterMap Step.token? :=
  List.filterMap_map ..

/-- Steps have the same errors without their marks. -/
theorem filterMap_error?_map_unmarked (steps : List Step) :
    (steps.map Step.unmarked).filterMap Step.error? = steps.filterMap Step.error? :=
  List.filterMap_map ..

/-- The tokens of a source are those of its pieces. -/
theorem tokens_scan (source : Text) :
    (scan source).tokens =
      (placed 0 1 (pieces source)).filterMap Step.token? ++
        [Token.endOfInput (1 + newlines source)] := by
  rw [Scan.tokens, line_stop_scan, ← map_unmarked_steps_scan, filterMap_token?_map_unmarked]

/-- The errors of a source are those of its pieces. -/
theorem errors_scan (source : Text) :
    (scan source).errors = (placed 0 1 (pieces source)).filterMap Step.error? := by
  rw [Scan.errors, ← map_unmarked_steps_scan, filterMap_error?_map_unmarked]

/-- **A step in its place.** What is before, in and behind a step makes up the source; the step
begins behind what is before, and its piece leads what is behind. -/
theorem of_steps_scan_eq {source : Text} {done more : List Step} {s : Step}
    (h : (scan source).steps = done ++ s :: more) :
    passed done ++ (s.piece.text ++ passed more) = source ∧
      s.offset = utf8Length (passed done) ∧ s.line = 1 + newlines (passed done) ∧
      s.piece.unmarked.Leads (passed more) := by
  have hplaced : placed 0 1 (pieces source) =
      done.map Step.unmarked ++ s.unmarked :: more.map Step.unmarked := by
    rw [← map_unmarked_steps_scan, h, List.map_append, List.map_cons]
  have htext := passed_placed 0 1 (pieces source)
  have hpieces := map_piece_placed 0 1 (pieces source)
  obtain ⟨hoffset, hline⟩ := position_of_placed_eq hplaced
  rw [passed_map_unmarked] at hoffset hline
  rw [hplaced, passed_append, passed_cons, passed_map_unmarked, passed_map_unmarked,
    joined_pieces] at htext
  rw [hplaced, List.map_append, List.map_cons] at hpieces
  have hleads := (hpieces ▸ consecutive_pieces source).of_append_right.1
  rw [joined_map_piece, passed_map_unmarked] at hleads
  exact ⟨htext, hoffset.trans (Nat.zero_add _), hline, hleads⟩

/-- One step ends before another begins. -/
structure Step.EndsBefore (s later : Step) : Prop where
  offset_lt : s.offset < later.offset
  endLine_le : s.endLine ≤ later.line

/-- **Steps in order.** A step of a scan ends before any further on begins: its text is between
their offsets, and it is not empty. -/
theorem endsBefore_of_mem {source : Text} {done more : List Step} {s later : Step}
    (h : (scan source).steps = done ++ s :: more) (hlater : later ∈ more) :
    s.EndsBefore later := by
  obtain ⟨between, behind, rfl⟩ := List.append_of_mem hlater
  have hsteps : (scan source).steps = (done ++ s :: between) ++ later :: behind := by
    rw [h, List.append_assoc, List.cons_append]
  obtain ⟨-, hoffset, hline, hleads⟩ := of_steps_scan_eq h
  obtain ⟨-, hlateroffset, hlaterline, -⟩ := of_steps_scan_eq hsteps
  constructor
  case offset_lt =>
    have hpos : utf8Length s.piece.text ≠ 0 := mt utf8Length_eq_zero_iff.1 hleads.text_ne_nil
    rw [hoffset, hlateroffset, passed_append, passed_cons, utf8Length_append, utf8Length_append]
    omega
  case endLine_le =>
    rw [Step.endLine, hline, hlaterline, passed_append, passed_cons, newlines_append,
      newlines_append]
    omega

end LoxLex
