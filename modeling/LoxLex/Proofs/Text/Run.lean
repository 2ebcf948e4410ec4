import LoxLex.Text.Basic
import Mathlib.Data.List.TakeWhile

/-! # Runs of characters

A run takes as many characters of one sort as there are: it ends at the end of the text or before a
character of another sort. `Stops` is the condition on what stands behind a run, so that a text and
what follows it are told apart again (`takeWhile_append_of_stops`, `dropWhile_append_of_stops`). It
looks at one character at most and at none past the end, so it holds of every beginning of a text
that it holds of (`Stops.of_append`). -/

namespace LoxLex

/-- A run of characters with `p` goes no further into this text. -/
def Stops (p : Char → Bool) (behind : Text) : Prop := ∀ d ∈ behind.head?, p d = false

variable {p : Char → Bool} {t behind : Text}

/-- Where nothing comes behind it, a run stops: `Stops p []`. -/
@[simp] theorem stops_nil : Stops p [] := by
  simp [Stops]

/-- A run stops in front of `d` if `d` does not belong to it. -/
@[simp] theorem stops_cons {d : Char} : Stops p (d :: behind) ↔ p d = false := by
  simp [Stops]

/-- What stops a run also stops it when it is cut short. -/
theorem Stops.of_append {front back : Text} (h : Stops p (front ++ back)) : Stops p front := by
  cases front with
  | nil => exact stops_nil
  | cons d front => simpa using h

/-- What stops a run, with something behind it that stops the run too. -/
theorem Stops.append {front back : Text} (h : Stops p front) (hback : Stops p back) :
    Stops p (front ++ back) := by
  cases front with
  | nil => exact hback
  | cons d front => exact stops_cons.2 (stops_cons.1 h)

/-- What stops a run stops it with more text behind, if there is a character to stop it. -/
theorem Stops.append_right {front back : Text} (h : Stops p front) (hne : front ≠ []) :
    Stops p (front ++ back) := by
  obtain ⟨d, rest, rfl⟩ := List.exists_cons_of_ne_nil hne
  exact stops_cons.2 (stops_cons.1 h)

/-- A text that begins with a character of another sort stops a run. -/
theorem stops_of_head?_eq {d : Char} (h : t.head? = some d) (hd : p d = false) : Stops p t := by
  obtain ⟨rest, rfl⟩ := List.head?_eq_some_iff.1 h
  exact stops_cons.2 hd

/-- A text that does not begin with a character stops a run of it. -/
theorem stops_of_forall_ne {c : Char} (h : ∀ rest, t ≠ c :: rest) : Stops (· == c) t := by
  intro d hd
  obtain ⟨rest, rfl⟩ := List.head?_eq_some_iff.1 (Option.mem_def.1 hd)
  have hne : d ≠ c := by
    rintro rfl
    exact h rest rfl
  simpa using hne

/-- What a run leaves stops it. -/
theorem stops_dropWhile (p : Char → Bool) (t : Text) : Stops p (t.dropWhile p) := by
  intro d hd
  have hnot := List.head?_dropWhile_not p t
  rw [Option.mem_def.1 hd] at hnot
  exact hnot

/-- A run ends where the text behind it stops it. -/
theorem takeWhile_append_of_stops (ht : ∀ c ∈ t, p c = true) (h : Stops p behind) :
    (t ++ behind).takeWhile p = t := by
  rw [List.takeWhile_append_of_pos ht]
  cases behind with
  | nil => simp
  | cons d behind =>
    have hd : p d = false := stops_cons.1 h
    simp [hd]

/-- Behind a run stands the text that stops it. -/
theorem dropWhile_append_of_stops (ht : ∀ c ∈ t, p c = true) (h : Stops p behind) :
    (t ++ behind).dropWhile p = behind := by
  rw [List.dropWhile_append_of_pos ht]
  cases behind with
  | nil => rfl
  | cons d behind =>
    have hd : p d = false := stops_cons.1 h
    simp [hd]

/-- A run goes no further than to the text that stops it. -/
theorem length_le_of_stops {u more : Text} (hu : ∀ c ∈ u, p c = true) (h : Stops p behind)
    (heq : u ++ more = t ++ behind) : u.length ≤ t.length := by
  rcases List.append_eq_append_iff.1 heq with ⟨between, rfl, -⟩ | ⟨between, rfl, rfl⟩
  · simp
  · -- the longer run would go on with the first character that stops the shorter
    cases between with
    | nil => simp
    | cons d between =>
      have hd : p d = true := hu d (by simp)
      simp [hd] at h

/-- A text begins with one run, and one text stops it. -/
theorem run_unique {u more : Text} (ht : ∀ c ∈ t, p c = true) (h : Stops p behind)
    (hu : ∀ c ∈ u, p c = true) (hmore : Stops p more) (heq : t ++ behind = u ++ more) :
    t = u ∧ behind = more := by
  have hle : t.length ≤ u.length := length_le_of_stops ht hmore heq
  have hge : u.length ≤ t.length := length_le_of_stops hu h heq.symm
  exact List.append_inj heq (Nat.le_antisymm hle hge)

/-- A list without an entry is a run of others. -/
theorem forall_ne_of_not_mem {α : Type} [DecidableEq α] {c : α} {l : List α} (h : c ∉ l) :
    ∀ d ∈ l, decide (d ≠ c) = true := by
  intro d hd
  exact decide_eq_true (ne_of_mem_of_not_mem hd h)

end LoxLex
