import LoxLex.Proofs.Scan.Invariant
import LoxLex.Proofs.Text.Offset

/-! # What a scan keeps in mind

A scan keeps in mind from where the end of a comment was last looked for in vain, and looks no more
from there on. The forgetful scan looks for the end of every comment anew. Both take the pieces of
their source, and only the marks in the log tell them apart (`scan_eq_scanForgetful`): what is kept
in mind is true wherever a scan can stand (`StandsBehind.memory_true`). -/

namespace LoxLex

/-! ### Scanning without memory -/

namespace Cursor

/-- The cursor behind a piece, with no look at what is kept in mind. -/
def pass (c : Cursor) (p : Piece) (rest : Text) : Cursor :=
  { c with rest := rest, offset := c.offset + utf8Length p.text, line := c.line + newlines p.text }

/-- The steps to the end of the source, and the cursor there, when nothing is kept in mind: every
comment is searched for its end, from its own star to the end of the source. -/
def runForgetful (c : Cursor) : List Step × Cursor :=
  match _h : c.rest with
  | [] => ([], c)
  | first :: rest =>
    let found := Piece.front true first rest
    let run := runForgetful (c.pass found.1 found.2)
    (⟨c.offset, c.line, found.1⟩ :: run.1, run.2)
termination_by c.rest.length
decreasing_by rw [_h]; exact Piece.length_front_lt ..

/-- Where a scan of a source can stand between two steps. -/
inductive Reachable (source : Text) : Cursor → Prop where
  /-- In front of the source. -/
  | start : Reachable source (start source)
  /-- Behind a step from where it can stand. -/
  | next {c after : Cursor} {s : Step} (before : Reachable source c)
      (step : c.next? = some (s, after)) : Reachable source after

end Cursor

/-- Scans a source text without keeping anything in mind. -/
def scanForgetful (source : Text) : Scan :=
  let run := (Cursor.start source).runForgetful
  ⟨run.1, run.2⟩

namespace Cursor

variable {source before : Text} {c : Cursor}

/-! ### What is kept in mind -/

/-- Wherever a scan can stand, it stands behind some text. -/
theorem exists_standsBehind_of_reachable (h : Reachable source c) :
    ∃ before, StandsBehind source before c := by
  induction h with
  | start => exact ⟨[], standsBehind_start source⟩
  | next _ hn ih =>
    obtain ⟨before, hbefore⟩ := ih
    exact ⟨_, hbefore.next hn⟩

/-- **What is kept in mind is true.** The offset in mind lies behind the cursor, and no close mark
begins there or further on. -/
theorem StandsBehind.memory_true (h : StandsBehind source before c) {f : Nat}
    (hf : c.barrenFrom = some f) :
    f ≤ c.offset ∧
      ∀ front behind, source = front ++ closeMark ++ behind → utf8Length front < f := by
  obtain ⟨skipped, between, hbefore, hskipped, hnone⟩ := h.memory f hf
  have hsource : source = skipped ++ (between ++ c.rest) := by
    rw [← h.text, hbefore, List.append_assoc]
  constructor
  · have hoffset : c.offset = f + utf8Length between := by
      rw [h.offset, hbefore, utf8Length_append, hskipped]
    omega
  · intro front behind heq
    by_contra hle
    -- A close mark that begins at the offset in mind or further on lies in the text from there on.
    have hshort : utf8Length skipped ≤ utf8Length front := by omega
    rw [hsource, List.append_assoc] at heq
    obtain ⟨inner, -, hrest⟩ := eq_append_of_utf8Length_le heq hshort
    have hmark : closeMark <:+: between ++ c.rest := by
      rw [hrest, ← List.append_assoc]
      exact List.infix_append inner closeMark behind
    exact hnone hmark

/-! ### The forgetful run -/

/-- At the end of the source the forgetful run has no steps: `c.runForgetful = ([], c)`. -/
theorem runForgetful_of_rest_eq_nil (h : c.rest = []) : c.runForgetful = ([], c) := by
  rw [runForgetful]
  split
  · rfl
  next hcons =>
    rw [h] at hcons
    contradiction

/-- In front of a character the forgetful run takes a piece, with a search for the end of a comment
that is opened, and goes on behind it. -/
theorem runForgetful_of_rest_eq_cons {first : Char} {rest : Text} (h : c.rest = first :: rest) :
    c.runForgetful =
      let found := Piece.front true first rest
      (⟨c.offset, c.line, found.1⟩ :: (c.pass found.1 found.2).runForgetful.1,
        (c.pass found.1 found.2).runForgetful.2) := by
  rw [runForgetful]
  split
  next hnil =>
    rw [h] at hnil
    contradiction
  next hcons =>
    rw [h] at hcons
    obtain ⟨rfl, rfl⟩ := List.cons.inj hcons
    rfl

/-- **The forgetful run** takes the pieces of what is left of the source and counts its lines. -/
theorem runForgetful_eq (c : Cursor) :
    c.runForgetful.1.map Step.unmarked = placed c.offset c.line (pieces c.rest) ∧
      c.runForgetful.2.line = c.line + newlines c.rest := by
  match h : c.rest with
  | [] => simp [runForgetful_of_rest_eq_nil h]
  | first :: rest =>
    -- What holds behind the first piece holds here: the piece and its lines come on top.
    have hlt := Piece.length_front_lt true first rest
    obtain ⟨hsteps, hline⟩ := runForgetful_eq
      (c.pass (Piece.front true first rest).1 (Piece.front true first rest).2)
    rw [runForgetful_of_rest_eq_cons h, pieces_cons, placed_cons]
    constructor
    · exact congrArg₂ List.cons rfl hsteps
    · show Cursor.line _ = _
      rw [hline, ← Piece.text_append_front true first rest, newlines_append, ← Nat.add_assoc]
      rfl
termination_by c.rest.length
decreasing_by rw [h]; exact hlt

end Cursor

/-! ### The forgetful scan -/

/-- The forgetful scan takes the pieces of its source. -/
theorem map_unmarked_steps_scanForgetful (source : Text) :
    (scanForgetful source).steps.map Step.unmarked = placed 0 1 (pieces source) :=
  (Cursor.runForgetful_eq (Cursor.start source)).1

/-- The forgetful scan ends on the last line of its source. -/
theorem line_stop_scanForgetful (source : Text) :
    (scanForgetful source).stop.line = 1 + newlines source :=
  (Cursor.runForgetful_eq (Cursor.start source)).2

/-- The forgetful scan has the tokens of the scan. -/
theorem tokens_scanForgetful (source : Text) :
    (scanForgetful source).tokens = (scan source).tokens := by
  rw [tokens_scan, Scan.tokens, line_stop_scanForgetful, ← filterMap_token?_map_unmarked,
    map_unmarked_steps_scanForgetful]

/-- The forgetful scan has the errors of the scan. -/
theorem errors_scanForgetful (source : Text) :
    (scanForgetful source).errors = (scan source).errors := by
  rw [errors_scan, Scan.errors, ← filterMap_error?_map_unmarked, map_unmarked_steps_scanForgetful]

/-- **The memory of a scan saves work and nothing else.** The scan gives the tokens and errors of
the forgetful scan. Wherever it can stand, the offset in mind lies behind it, and in the source no
close mark begins there or further on. -/
theorem scan_eq_scanForgetful (source : Text) :
    (scan source).tokens = (scanForgetful source).tokens ∧
      (scan source).errors = (scanForgetful source).errors ∧
      ∀ c f, Cursor.Reachable source c → c.barrenFrom = some f →
        f ≤ c.offset ∧
          ∀ front behind, source = front ++ closeMark ++ behind → utf8Length front < f := by
  refine ⟨(tokens_scanForgetful source).symm, (errors_scanForgetful source).symm, ?_⟩
  intro c f hreach hf
  obtain ⟨before, hbefore⟩ := Cursor.exists_standsBehind_of_reachable hreach
  exact hbefore.memory_true hf

end LoxLex
