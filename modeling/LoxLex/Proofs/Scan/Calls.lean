import LoxLex.Proofs.Scan.Offsets
import LoxLex.Proofs.Text.Offset

/-! # Calls of the scanner

Every state that the scanner comes through is one between calls or in a call (`Reached.tracked`).
So its offsets lie on boundaries of the source, in order, and no move fails (`Reached.sound`). In a
call there is less ahead with every move, so the call returns, behind the one step that the cursor
takes there (`Progress.exists_returns`); and there are no more calls than steps, which are no more
than the characters of the source. -/

namespace LoxLex

/-! ### Steps and characters -/

/-- Steps none of which is empty are no more than the characters that they pass. -/
theorem length_le_length_passed {steps : List Step} (h : ∀ s ∈ steps, s.piece.text ≠ []) :
    steps.length ≤ (passed steps).length := by
  induction steps with
  | nil => exact Nat.le_refl _
  | cons s steps ih =>
    obtain ⟨hs, hsteps⟩ := List.forall_mem_cons.1 h
    have hpos := List.length_pos_iff.2 hs
    have hle := ih hsteps
    rw [passed_cons, List.length_append, List.length_cons]
    omega

/-- The steps made are no more than the characters passed. -/
theorem length_le_of_steps_eq {source : Text} {done more : List Step}
    (h : (scan source).steps = done ++ more) : done.length ≤ (passed done).length := by
  refine length_le_length_passed fun s hs => ?_
  obtain ⟨before, between, rfl⟩ := List.append_of_mem hs
  rw [List.append_assoc, List.cons_append] at h
  exact (of_steps_scan_eq h).2.2.2.text_ne_nil

namespace Scanner

variable {source taken rest : Text} {m next last : Scanner} {c : Cursor} {done : List Step}
  {bound : Nat}

/-! ### Where a scanner is -/

/-- A state of a scanner: between calls, or in a call. -/
inductive Tracked (source : Text) (m : Scanner) : Prop where
  | between {done : List Step} {c : Cursor} (between : IsBetween source done c m)
  | within {done : List Step} {c : Cursor} {taken rest : Text}
      (called : IsCalled source done c taken rest m) (fits : Fits c m.phase taken rest)

/-- What a move leads to is a state between calls or in a call. -/
theorem Progress.tracked (h : Progress source done c bound m) : Tracked source m := by
  cases h with
  | within called fits => exact .within called fits
  | returned _ between => exact .between between

/-- Between calls a scanner has halted if the cursor is at the end of the source. -/
theorem IsBetween.halted_iff (h : IsBetween source done c m) :
    m.halted source = true ↔ c.rest = [] := by
  obtain ⟨front, lexeme, hstands⟩ := h.stands
  rw [halted, h.phase, ← hstands.atEnd_iff]
  simp

/-- Between calls a scanner that goes on has something in front of it: `c.rest ≠ []`. -/
theorem IsBetween.rest_ne_nil (h : IsBetween source done c m) (hgoing : m.halted source = false) :
    c.rest ≠ [] := by
  rw [Ne, ← h.halted_iff, hgoing]
  exact Bool.false_ne_true

/-- What has been taken for a piece is taken in a call: `phase ≠ .between`. -/
theorem Fits.phase_ne {phase : Phase} (h : Fits c phase taken rest) : phase ≠ .between := by
  cases h <;> simp

/-- In a call something has been taken: `taken ≠ []`. -/
theorem Fits.taken_ne_nil {phase : Phase} (h : Fits c phase taken rest) : taken ≠ [] := by
  cases h with
  | whole hdigits => exact hdigits.1
  | _ => simp

/-- From between two calls a move begins the next one. -/
theorem IsBetween.proceeds_move? (h : IsBetween source done c m)
    (hgoing : m.halted source = false) :
    Proceeds source done c (weight .between c.rest) (m.move? source) := by
  rw [move?, h.phase]
  exact h.proceeds_call? (h.rest_ne_nil hgoing)

/-- **A step.** A scanner that goes on makes a move, to a state between calls or in a call. -/
theorem Tracked.exists_move? (h : Tracked source m) (hgoing : m.halted source = false) :
    ∃ next, m.move? source = some next ∧ Tracked source next := by
  cases h with
  | between hbetween =>
    obtain ⟨next, hmove, hprogress⟩ := hbetween.proceeds_move? hgoing
    exact ⟨next, hmove, hprogress.tracked⟩
  | within hcalled hfits =>
    obtain ⟨next, hmove, hprogress⟩ := hcalled.proceeds_move? hfits
    exact ⟨next, hmove, hprogress.tracked⟩

/-- A state of the phase `between` is one between calls. -/
theorem Tracked.exists_isBetween (h : Tracked source m) (hphase : m.phase = .between) :
    ∃ done c, IsBetween source done c m := by
  cases h with
  | between hbetween => exact ⟨_, _, hbetween⟩
  | within _ hfits => exact absurd hphase hfits.phase_ne

/-- At the start a scanner is between calls, with no step done, where the cursor starts. -/
theorem isBetween_start (source : Text) : IsBetween source [] (Cursor.start source) {} where
  reachable := .start
  behind := Cursor.standsBehind_start source
  steps := rfl
  barrenFrom := rfl
  tokens := rfl
  errors := rfl
  phase := rfl
  start := ⟨[], [], rfl, rfl⟩
  current := rfl
  line := rfl
  calls := rfl

/-- **Every state** that a scanner comes through is one between calls or in a call. -/
theorem Reached.tracked (h : Reached source m) : Tracked source m := by
  induction h with
  | start => exact .between (isBetween_start source)
  | move _ hgoing hmove ih =>
    obtain ⟨next, hnext, htracked⟩ := ih.exists_move? hgoing
    obtain rfl := Option.some.inj (hmove.symm.trans hnext)
    exact htracked

/-! ### Soundness -/

/-- **What holds of every state** of a scanner: its offsets are in order and on boundaries, the
slices that it may take are there, and the next move finds all that it takes. -/
structure Sound (source : Text) (m : Scanner) : Prop where
  start_le_current : m.start ≤ m.current
  current_le : m.current ≤ utf8Length source
  start_isBoundary : IsBoundary source m.start
  current_isBoundary : IsBoundary source m.current
  lexeme : (m.lexeme? source).isSome = true
  remainder : (sliceFrom? source m.current).isSome = true
  move : m.halted source = false → (m.move? source).isSome = true
  /-- A call is made where there is a character. -/
  character : m.phase = .between → m.halted source = false →
    ∃ first, m.called.peek? source = some (some first)
  calls_le : m.calls ≤ source.length
  /-- Between calls the scan has a cursor here. -/
  cursor : m.phase = .between → ∃ c, Cursor.Reachable source c ∧ c.offset = m.current ∧
    c.line = m.line ∧ c.barrenFrom = m.barrenFrom

/-- Where a scanner stands, both its offsets are boundaries of the source. -/
theorem Stands.isBoundary {before : Text} (h : Stands source before taken rest m) :
    IsBoundary source m.start ∧ IsBoundary source m.current :=
  ⟨⟨before, taken ++ rest, by rw [← List.append_assoc, h.text], h.start.symm⟩,
    ⟨before ++ taken, rest, h.text, h.current.symm⟩⟩

/-- Where a scanner stands, its piece does not begin behind it: `m.start ≤ m.current`. -/
theorem Stands.start_le_current {before : Text} (h : Stands source before taken rest m) :
    m.start ≤ m.current := by
  rw [h.start, h.current, utf8Length_append]
  exact Nat.le_add_right ..

/-- A scanner stands behind some text, be it between calls or in a call. -/
theorem Tracked.exists_stands (h : Tracked source m) :
    ∃ before taken rest, Stands source before taken rest m := by
  cases h with
  | between hbetween =>
    obtain ⟨front, lexeme, hstands⟩ := hbetween.stands
    exact ⟨front, lexeme, _, hstands⟩
  | within hcalled => exact ⟨_, _, _, hcalled.stands⟩

/-- There are no more calls than characters: `m.calls ≤ source.length`. -/
theorem Tracked.calls_le (h : Tracked source m) : m.calls ≤ source.length := by
  cases h with
  | between hbetween =>
    have hdone := length_le_of_steps_eq hbetween.steps
    rw [hbetween.calls, ← hbetween.behind.text, List.length_append]
    omega
  | within hcalled hfits =>
    have hdone := length_le_of_steps_eq hcalled.steps
    have htaken := List.length_pos_iff.2 hfits.taken_ne_nil
    rw [hcalled.calls, ← hcalled.stands.text, List.length_append, List.length_append]
    omega

/-- **A run.** Every state that a scanner comes through is sound: `m.Sound source`. -/
theorem Reached.sound (h : Reached source m) : m.Sound source := by
  obtain ⟨before, taken, rest, hstands⟩ := h.tracked.exists_stands
  have hboundary := hstands.isBoundary
  constructor
  case start_le_current => exact hstands.start_le_current
  case current_le => exact hboundary.2.le_utf8Length
  case start_isBoundary => exact hboundary.1
  case current_isBoundary => exact hboundary.2
  case lexeme => rw [hstands.lexeme?_eq, Option.isSome_some]
  case remainder => rw [hstands.sliceFrom?_eq, Option.isSome_some]
  case move =>
    intro hgoing
    obtain ⟨next, hmove, -⟩ := h.tracked.exists_move? hgoing
    rw [hmove, Option.isSome_some]
  case character =>
    intro hphase hgoing
    obtain ⟨done, c, hbetween⟩ := h.tracked.exists_isBetween hphase
    obtain ⟨first, rest, hcons⟩ := List.exists_cons_of_ne_nil (hbetween.rest_ne_nil hgoing)
    exact ⟨first, by rw [hbetween.called.stands.peek?_eq, hcons, List.head?_cons]⟩
  case calls_le => exact h.tracked.calls_le
  case cursor =>
    intro hphase
    obtain ⟨done, c, hbetween⟩ := h.tracked.exists_isBetween hphase
    exact ⟨c, hbetween.reachable, hbetween.current.symm, hbetween.line.symm,
      hbetween.barrenFrom.symm⟩

/-! ### Calls return -/

/-- A call that goes on from a state returns to one state. -/
theorem Returns.unique {last' : Scanner} (h : Returns source m last) (h' : Returns source m last') :
    last = last' := by
  induction h with
  | here hphase =>
    cases h' with
    | here => rfl
    | move hphase' => contradiction
  | move hphase hmove _ ih =>
    cases h' with
    | here hphase' => contradiction
    | move _ hmove' hmore =>
      obtain rfl := Option.some.inj (hmove.symm.trans hmove')
      exact ih hmore

/-- **Calls return**, behind the one step that a cursor takes there: there is less ahead with every
move. -/
theorem Progress.exists_returns (h : Progress source done c bound m) :
    ∃ s after last, c.next? = some (s, after) ∧ IsBetween source (done ++ [s]) after last ∧
      Returns source m last := by
  induction bound using Nat.strongRecOn generalizing m with
  | ind bound ih =>
    cases h with
    | returned hnext hbetween => exact ⟨_, _, _, hnext, hbetween, .here hbetween.phase⟩
    | within hcalled hfits hlt =>
      obtain ⟨next, hmove, hprogress⟩ := hcalled.proceeds_move? hfits
      obtain ⟨s, after, last, hnext, hbetween, hreturns⟩ := ih _ hlt hprogress
      exact ⟨s, after, last, hnext, hbetween, .move hfits.phase_ne hmove hreturns⟩

/-- **One call** takes the one step of the cursor that stands there. -/
theorem IsBetween.exists_call (h : IsBetween source done c m) (hgoing : m.halted source = false) :
    ∃ s after last, c.next? = some (s, after) ∧ IsBetween source (done ++ [s]) after last ∧
      Call source m last := by
  obtain ⟨next, hmove, hprogress⟩ := h.proceeds_move? hgoing
  obtain ⟨s, after, last, hnext, hbetween, hreturns⟩ := hprogress.exists_returns
  exact ⟨s, after, last, hnext, hbetween, next, hmove, hreturns⟩

/-- A call returns to one state. -/
theorem Call.unique {last' : Scanner} (h : Call source m last) (h' : Call source m last') :
    last = last' := by
  obtain ⟨next, hmove, hreturns⟩ := h
  obtain ⟨next', hmove', hreturns'⟩ := h'
  obtain rfl := Option.some.inj (hmove.symm.trans hmove')
  exact hreturns.unique hreturns'

/-- A step takes some bytes. -/
theorem IsBetween.current_lt {s : Step} {after : Cursor} (h : IsBetween source done c m)
    (hlast : IsBetween source (done ++ [s]) after last) : m.current < last.current := by
  have hsteps : (scan source).steps = done ++ s :: after.steps := by
    rw [hlast.steps, List.append_assoc, List.singleton_append]
  have hpos : utf8Length s.piece.text ≠ 0 :=
    mt utf8Length_eq_zero_iff.1 (of_steps_scan_eq hsteps).2.2.2.text_ne_nil
  rw [h.current, h.behind.offset, hlast.current, hlast.behind.offset, passed_append,
    utf8Length_append, passed_cons, passed_nil, List.append_nil]
  omega

/-- **Every call returns further on.** -/
theorem Reached.call (h : Reached source m) (hphase : m.phase = .between)
    (hgoing : m.halted source = false) :
    (∃ last, Call source m last) ∧
      ∀ last, Call source m last → last.calls = m.calls + 1 ∧ m.current < last.current := by
  obtain ⟨done, c, hbetween⟩ := h.tracked.exists_isBetween hphase
  obtain ⟨s, after, last, -, hlast, hcall⟩ := hbetween.exists_call hgoing
  refine ⟨⟨last, hcall⟩, fun last' hcall' => ?_⟩
  obtain rfl := hcall.unique hcall'
  refine ⟨?_, hbetween.current_lt hlast⟩
  rw [hlast.calls, hbetween.calls, List.length_append]
  rfl

/-! ### The run ends -/

/-- A scanner comes to where a call returns that goes on from a state it comes through. -/
theorem Reached.of_returns (h : Reached source m) (hreturns : Returns source m last) :
    Reached source last := by
  induction hreturns with
  | here => exact h
  | move hphase hmove _ ih => exact ih (.move h (by simp [halted, hphase]) hmove)

/-- A scanner comes to where a call returns that it makes. -/
theorem Reached.of_call (h : Reached source m) (hgoing : m.halted source = false)
    (hcall : Call source m last) : Reached source last := by
  obtain ⟨next, hmove, hreturns⟩ := hcall
  exact (h.move hgoing hmove).of_returns hreturns

/-- **The run ends**: call by call the scanner comes to where the scan stops. -/
theorem IsBetween.exists_halted (h : IsBetween source done c m) (hreached : Reached source m) :
    ∃ last, Reached source last ∧ last.halted source = true ∧
      IsBetween source (scan source).steps c.stop last := by
  -- Each call is one step of the cursor, so the induction is on the run of the cursor.
  induction c using Cursor.run_induction generalizing done m with
  | stop c hn =>
    have hrest := Cursor.rest_of_next?_eq_none hn
    have hsteps : (scan source).steps = done := by
      rw [h.steps, Cursor.steps_of_next?_eq_none hn, List.append_nil]
    rw [hsteps, Cursor.stop_of_next?_eq_none hn]
    exact ⟨m, hreached, h.halted_iff.2 hrest, h⟩
  | next c s after hn ih =>
    have hgoing : m.halted source = false := by
      rw [Bool.eq_false_iff, Ne, h.halted_iff]
      intro hnil
      simp [Cursor.next?, hnil] at hn
    obtain ⟨s', after', last, hn', hlast, hcall⟩ := h.exists_call hgoing
    obtain ⟨rfl, rfl⟩ := Prod.mk.inj (Option.some.inj (hn.symm.trans hn'))
    rw [Cursor.stop_of_next?_eq_some hn]
    exact ih hlast (hreached.of_call hgoing hcall)

end Scanner

/-- **The scanner by offsets.** Of every state that the scanner comes through, its offsets are in
order and on boundaries of the source, and every slice that it takes is there. Every call returns
further on. So it ends, after no more calls than the source has characters, with the tokens and
errors of the scan. -/
theorem scanner_sound (source : Text) :
    (∀ m, Scanner.Reached source m → m.Sound source) ∧
    (∀ m, Scanner.Reached source m → m.phase = .between → m.halted source = false →
      (∃ last, Scanner.Call source m last) ∧
        ∀ last, Scanner.Call source m last → last.calls = m.calls + 1 ∧ m.current < last.current) ∧
    ∃ m, Scanner.Reached source m ∧ m.halted source = true ∧ m.calls ≤ source.length ∧
      m.tokens ++ [Token.endOfInput m.line] = (scan source).tokens ∧
      m.errors = (scan source).errors := by
  refine ⟨fun m h => h.sound, fun m h => h.call, ?_⟩
  obtain ⟨last, hreached, hhalted, hlast⟩ :=
    (Scanner.isBetween_start source).exists_halted .start
  refine ⟨last, hreached, hhalted, hreached.sound.calls_le, ?_, hlast.errors⟩
  rw [hlast.tokens, hlast.line]
  rfl

/-- A search behind a character of two bytes, and the call that it set back. -/
theorem scanner_sound_unclosed :
    let source := ['/', '*', 'é']
    let searching : Scanner := { current := 4, phase := .blockComment 1 1, calls := 1 }
    let back : Scanner :=
      { current := 1, barrenFrom := some 1, calls := 1, tokens := [⟨.slash, ['/'], .absent, 1⟩] }
    searching.Sound source ∧ Scanner.Call source {} back ∧ back.calls = 1 ∧ 0 < back.current := by
  intro source searching back
  have hfirst : Scanner.Reached source { current := 1, phase := .slash, calls := 1 } :=
    .move .start rfl rfl
  have hsecond : Scanner.Reached source { current := 1, phase := .blockComment 1 1, calls := 1 } :=
    hfirst.move rfl rfl
  have hthird : Scanner.Reached source { current := 2, phase := .blockComment 1 1, calls := 1 } :=
    hsecond.move rfl rfl
  have hsearching : Scanner.Reached source searching := hthird.move rfl rfl
  have hcall : Scanner.Call source {} back :=
    ⟨_, rfl, .move (by decide) rfl <| .move (by decide) rfl <| .move (by decide) rfl <|
      .move (by decide) rfl <| .here rfl⟩
  obtain ⟨hsound, hcalls, -⟩ := scanner_sound source
  exact ⟨hsound searching hsearching, hcall, (hcalls {} .start rfl rfl).2 back hcall⟩

end LoxLex
