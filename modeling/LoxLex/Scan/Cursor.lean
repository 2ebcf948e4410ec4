import LoxLex.LexicalError
import LoxLex.Piece.Lemmas

/-! # Cursors

A cursor stands between two pieces of a source text, and a step takes it past the piece in front of
it. A search for the end of a comment that fails is kept in mind: there is no end further on either,
so no later comment is searched again and the work stays linear in the source. `Cursor.steps` are
the steps to the end of the source; `steps_of_next?_eq_some` says that they are one step and those
after it. -/

namespace LoxLex

/-! ### Steps -/

/-- One step of a scan: a piece, and where it begins, as bytes before it and as a line. -/
structure Step where
  offset : Nat
  line : Nat
  piece : Piece
  deriving DecidableEq, Repr

namespace Step

/-- The line on which the piece of a step ends. -/
def endLine (s : Step) : Nat := s.line + newlines s.piece.text

/-- The token that a step yields, if it yields one; its line is where it begins. -/
def token? (s : Step) : Option Token :=
  match s.piece.item with
  | .token kind literal => some ⟨kind, s.piece.text, literal, s.line⟩
  | _ => none

/-- The error that a step yields, if it yields one; its line is where the piece ends. -/
def error? (s : Step) : Option LexicalError :=
  match s.piece.item with
  | .stray c => some (.unexpectedCharacter s.endLine c)
  | .openString => some (.unterminatedString s.endLine)
  | .badNumber => some (.invalidNumber s.endLine s.piece.text)
  | _ => none

end Step

/-! ### Cursors -/

/-- Where a scan stands: the source still to be scanned, the bytes before it and its line, and the
offset from which the end of a comment was last looked for in vain. -/
structure Cursor where
  rest : Text
  offset : Nat := 0
  line : Nat := 1
  barrenFrom : Option Nat := none
  deriving DecidableEq, Repr

namespace Cursor

/-- The cursor in front of a source. -/
def start (source : Text) : Cursor := ⟨source, 0, 1, none⟩

/-- Whether a comment that the source begins with is to be searched for its end: not if a search
from its star or before has failed. -/
def searches (c : Cursor) : Bool :=
  match c.barrenFrom with
  | none => true
  | some offset => c.offset + 1 < offset

/-- The cursor behind a piece. -/
def after (c : Cursor) (p : Piece) (rest : Text) : Cursor where
  rest := rest
  offset := c.offset + utf8Length p.text
  line := c.line + newlines p.text
  barrenFrom := if p.barren then some (c.offset + 1) else c.barrenFrom

/-- The next step, and where the scan stands after it; none at the end of the source. -/
def next? (c : Cursor) : Option (Step × Cursor) :=
  match c.rest with
  | [] => none
  | first :: rest =>
    let (piece, behind) := Piece.front c.searches first rest
    some (⟨c.offset, c.line, piece⟩, c.after piece behind)

/-- **A step takes something**: the rest of the source gets shorter. -/
theorem length_rest_lt {c after : Cursor} {s : Step} (h : c.next? = some (s, after)) :
    after.rest.length < c.rest.length := by
  unfold next? at h
  split at h
  · contradiction
  next first rest hrest =>
    rw [Option.some.injEq, Prod.mk.injEq] at h
    rw [← h.2, hrest]
    exact Piece.length_front_lt ..

/-- A step passes over the text of its piece. -/
theorem text_append_rest {c after : Cursor} {s : Step} (h : c.next? = some (s, after)) :
    s.piece.text ++ after.rest = c.rest := by
  unfold next? at h
  split at h
  · contradiction
  next first rest hrest =>
    rw [Option.some.injEq, Prod.mk.injEq] at h
    rw [← h.1, ← h.2, hrest]
    exact Piece.text_append_front ..

/-- The steps up to the end of the source, put after those already made, and where they end. -/
def runFrom (done : Array Step) (c : Cursor) : Array Step × Cursor :=
  match _h : c.next? with
  | none => (done, c)
  | some (s, after) => runFrom (done.push s) after
termination_by c.rest.length
decreasing_by exact length_rest_lt _h

/-- The steps from a cursor to the end of the source. -/
def steps (c : Cursor) : List Step := (c.runFrom #[]).1.toList

/-- The cursor at the end of the source. -/
def stop (c : Cursor) : Cursor := (c.runFrom #[]).2

/-! ### A run is its first step and the run after it -/

/-- Where there is no step, the run ends with those done: `c.runFrom done = (done, c)`. -/
theorem runFrom_of_next?_eq_none {c : Cursor} (h : c.next? = none) (done : Array Step) :
    c.runFrom done = (done, c) := by
  rw [runFrom]
  split
  · rfl
  · simp_all

/-- Where there is a step, the run goes on behind it:
`c.runFrom done = after.runFrom (done.push s)`. -/
theorem runFrom_of_next?_eq_some {c after : Cursor} {s : Step} (h : c.next? = some (s, after))
    (done : Array Step) : c.runFrom done = after.runFrom (done.push s) := by
  rw [runFrom]
  split <;> simp_all

/-- The steps already made only stand in front. -/
theorem runFrom_eq (c : Cursor) (done : Array Step) :
    c.runFrom done = (done ++ (c.runFrom #[]).1, c.stop) := by
  match h : c.next? with
  | none => simp [stop, runFrom_of_next?_eq_none h]
  | some (s, after) =>
    rw [stop, runFrom_of_next?_eq_some h, runFrom_of_next?_eq_some h, runFrom_eq after,
      runFrom_eq after (#[].push s)]
    simp
termination_by c.rest.length
decreasing_by all_goals exact length_rest_lt h

/-- Where there is no step, there are none: `c.steps = []`. -/
theorem steps_of_next?_eq_none {c : Cursor} (h : c.next? = none) : c.steps = [] := by
  simp [steps, runFrom_of_next?_eq_none h]

/-- Where there is no step, the cursor stops: `c.stop = c`. -/
theorem stop_of_next?_eq_none {c : Cursor} (h : c.next? = none) : c.stop = c := by
  simp [stop, runFrom_of_next?_eq_none h]

/-- The steps of a cursor are its next step and those behind it: `c.steps = s :: after.steps`. -/
theorem steps_of_next?_eq_some {c after : Cursor} {s : Step} (h : c.next? = some (s, after)) :
    c.steps = s :: after.steps := by
  rw [steps, runFrom_of_next?_eq_some h, runFrom_eq]
  simp [steps]

/-- A cursor stops where it does behind its next step: `c.stop = after.stop`. -/
theorem stop_of_next?_eq_some {c after : Cursor} {s : Step} (h : c.next? = some (s, after)) :
    c.stop = after.stop := by
  rw [stop, runFrom_of_next?_eq_some h, runFrom_eq]

end Cursor

end LoxLex
