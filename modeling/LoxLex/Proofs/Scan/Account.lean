import Mathlib.Data.List.Basic
import LoxLex.Proofs.Scan.Lines
import LoxLex.Proofs.Scan.Munch
import LoxLex.Scan.Log
import LoxLex.Session

/-! # The account of a scan

What comes up in a scan is the one list `Scan.trace`: events of the log and reports of errors. Here
each entry is kept with the offset at which its step begins (`Step.notices`). A step ends before the
next one begins, in offset and in line (`pairwise_steps_scan`), and the lines that its entries carry
lie between its own two (`Step.exists_line?_of_mem_entries`). So over all entries offsets and lines
never go back, whichever of its lines a step carries in an entry (`pairwise_notices_scan`).
`trace_accounts` adds that the trace leaves out no token and no error. -/

namespace LoxLex

/-! ### Entries -/

namespace Entry

/-- The error, if one is reported. -/
def report? : Entry → Option LexicalError
  | event _ => none
  | report e => some e

/-- The line that an entry carries: the end of a scan and that of an input carry none. -/
def line? : Entry → Option Nat
  | event (.token t) => some t.line
  | event (.unclosedComment line) => some line
  | event _ => none
  | report e => some e.line

/-- Whether an entry tells of a token or of an error, and so of what a step yields. -/
def isYield : Entry → Bool
  | event (.token _) => true
  | event _ => false
  | report _ => true

end Entry

/-- An entry, with the offset at which the step begins that it comes up in. -/
structure Notice where
  offset : Nat
  entry : Entry
  deriving DecidableEq, Repr

/-- What comes up in a step, and where. -/
def Step.notices (s : Step) : List Notice := s.entries.map fun e => ⟨s.offset, e⟩

/-- What comes up in the steps of a scan, and where. -/
def Scan.notices (s : Scan) : List Notice := s.steps.flatMap Step.notices

/-- **The order of entries.** One entry comes up before another: at no greater offset, at a lesser
one if each tells of a token or an error, and with no greater line. -/
structure Notice.Precedes (x y : Notice) : Prop where
  offset_le : x.offset ≤ y.offset
  offset_lt : x.entry.isYield = true → y.entry.isYield = true → x.offset < y.offset
  line_le : ∃ m n, x.entry.line? = some m ∧ y.entry.line? = some n ∧ m ≤ n

/-! ### One step -/

namespace Step

variable {s : Step}

/-- A step ends on the line that it begins on, or further down: `s.line ≤ s.endLine`. -/
theorem line_le_endLine (s : Step) : s.line ≤ s.endLine := Nat.le_add_right ..

/-- The lines that the entries of a step carry lie between those where it begins and ends. -/
theorem exists_line?_of_mem_entries {e : Entry} (h : e ∈ s.entries) :
    ∃ n, e.line? = some n ∧ s.line ≤ n ∧ n ≤ s.endLine := by
  simp only [entries, List.mem_append, Option.mem_toList, Option.map_eq_some_iff] at h
  rcases h with (hsearch | ⟨t, ht, rfl⟩) | ⟨error, herror, rfl⟩
  · split at hsearch
    · rw [List.mem_singleton.1 hsearch]
      exact ⟨s.line, rfl, le_refl _, s.line_le_endLine⟩
    · contradiction
  · obtain ⟨-, hline⟩ := of_token?_eq_some ht
    exact ⟨t.line, rfl, hline.ge, hline.trans_le s.line_le_endLine⟩
  · have hline : error.line = s.endLine := line_of_error?_eq_some herror
    exact ⟨error.line, rfl, s.line_le_endLine.trans_eq hline.symm, hline.le⟩

/-- What another entry of the same step follows is a search that failed. -/
theorem pairwise_entries (s : Step) :
    s.entries.Pairwise fun x _ => x = .event (.unclosedComment s.line) := by
  obtain ⟨offset, line, item, text, barren⟩ := s
  -- A step yields a token or an error or nothing, so no more than one entry follows a search.
  cases barren <;> cases item <;> simp [entries, token?, error?]

/-- The entries of a step come up in order. -/
theorem pairwise_notices (s : Step) : s.notices.Pairwise Notice.Precedes := by
  rw [notices, List.pairwise_map]
  refine s.pairwise_entries.imp_of_mem ?_
  rintro x y - hy rfl
  obtain ⟨n, hn, hline, -⟩ := exists_line?_of_mem_entries hy
  exact ⟨le_refl _, fun hyield => absurd hyield Bool.false_ne_true, s.line, n, rfl, hn, hline⟩

end Step

/-! ### One step behind the other -/

/-- A relation between each member of a list and those behind it. -/
theorem pairwise_of_forall_mem_behind {α : Type} {r : α → α → Prop} {l : List α}
    (h : ∀ before a behind, l = before ++ a :: behind → ∀ b ∈ behind, r a b) : l.Pairwise r := by
  induction l with
  | nil => exact .nil
  | cons x l ih =>
    refine .cons (h [] x l rfl) (ih ?_)
    rintro before a behind rfl
    exact h (x :: before) a behind rfl

/-- **Each step of a scan ends before the next begins.** -/
theorem pairwise_steps_scan (source : Text) : (scan source).steps.Pairwise Step.EndsBefore := by
  refine pairwise_of_forall_mem_behind ?_
  intro done s more h later hlater
  exact endsBefore_of_mem h hlater

/-- What comes up in one step comes up before what comes up in a later one. -/
theorem Step.EndsBefore.precedes {s later : Step} (h : s.EndsBefore later) {x y : Notice}
    (hx : x ∈ s.notices) (hy : y ∈ later.notices) : x.Precedes y := by
  obtain ⟨e, he, rfl⟩ := List.mem_map.1 hx
  obtain ⟨e', he', rfl⟩ := List.mem_map.1 hy
  obtain ⟨m, hm, -, hmend⟩ := Step.exists_line?_of_mem_entries he
  obtain ⟨n, hn, hnline, -⟩ := Step.exists_line?_of_mem_entries he'
  exact ⟨h.offset_lt.le, fun _ _ => h.offset_lt, m, n, hm, hn,
    hmend.trans (h.endLine_le.trans hnline)⟩

/-- **Entries come up in order**, in offset and in line. -/
theorem pairwise_notices_scan (source : Text) :
    (scan source).notices.Pairwise Notice.Precedes := by
  rw [Scan.notices, List.pairwise_flatMap]
  constructor
  · intro s _
    exact s.pairwise_notices
  · refine (pairwise_steps_scan source).imp ?_
    intro s later h x hx y hy
    exact h.precedes hx hy

/-! ### Nothing is left out -/

/-- Whether an event is of the finest grain. -/
def LogEvent.isTrace (e : LogEvent) : Bool := e.level == "TRACE".toList

/-- What is sought among the entries of steps, where each step has one of it at most. -/
theorem filterMap_flatMap_entries {α : Type} {f : Entry → Option α} {g : Step → Option α}
    (h : ∀ s : Step, s.entries.filterMap f = (g s).toList) (steps : List Step) :
    (steps.flatMap Step.entries).filterMap f = steps.filterMap g := by
  rw [List.filterMap_flatMap, List.filterMap_eq_flatMap_toList]
  simp only [h]

namespace Scan

variable (s : Scan)

/-- The trace is what comes up in the steps, and the end of the scan. -/
theorem trace_eq_notices :
    s.trace = s.notices.map Notice.entry ++
      [.event (.scanned s.stop.offset s.tokens.length s.errors.length)] := by
  have hentries : ∀ step : Step, step.notices.map Notice.entry = step.entries := by
    intro step
    rw [Step.notices, List.map_map]
    exact List.map_id _
  rw [trace, notices, List.map_flatMap]
  simp only [hentries]

/-- The reports of a trace are the errors of the scan. -/
theorem filterMap_report?_trace : s.trace.filterMap Entry.report? = s.errors := by
  have hstep : ∀ step : Step, step.entries.filterMap Entry.report? = step.error?.toList := by
    rintro ⟨offset, line, item, text, barren⟩
    cases barren <;> cases item <;> rfl
  rw [trace, List.filterMap_append, filterMap_flatMap_entries hstep]
  exact List.append_nil _

/-- The events of the finest grain are those of the tokens. -/
theorem filter_isTrace_log :
    s.log.filter LogEvent.isTrace = (s.steps.filterMap Step.token?).map .token := by
  have hstep : ∀ step : Step,
      step.entries.filterMap (fun e => e.event?.filter LogEvent.isTrace) =
        (step.token?.map LogEvent.token).toList := by
    rintro ⟨offset, line, item, text, barren⟩
    cases barren <;> cases item <;> rfl
  rw [log, trace, List.filter_filterMap, List.filterMap_append, filterMap_flatMap_entries hstep,
    List.map_filterMap]
  exact List.append_nil _

end Scan

/-- **What the trace of a scan accounts for.** The notices are the trace but for its end, each with
the offset of its step. -/
structure TraceAccounts (source : Text) : Prop where
  /-- The events of the finest grain are those of the tokens but for the end of input. -/
  tokens : (scan source).log.filter LogEvent.isTrace =
    ((scan source).tokens.filter (·.kind ≠ .endOfInput)).map .token
  /-- Each of these shows its token and its line. -/
  fields : ((scan source).log.filter LogEvent.isTrace).map LogEvent.fields =
    ((scan source).tokens.filter (·.kind ≠ .endOfInput)).map fun t =>
      [("level".toList, "TRACE".toList), ("message".toList, "token".toList),
        ("token".toList, t.display), ("line".toList, decimalText t.line)]
  /-- The reports are the errors. -/
  reports : (scan source).trace.filterMap Entry.report? = (scan source).errors
  /-- They are what a console is given when the source is scanned for its tokens. -/
  delivered : ∀ (c : Console) (fs : Files), c.act fs (.tokenize source) =
    (.tokens (scan source).tokens, c.reportAll ((scan source).trace.filterMap Entry.report?))
  /-- The end of the scan comes last, with the numbers of tokens and of reports. -/
  finish : (scan source).trace = (scan source).notices.map Notice.entry ++
    [.event (.scanned (utf8Length source) (scan source).tokens.length
      ((scan source).trace.filterMap Entry.report?).length)]
  /-- It comes once. -/
  finish_once : ∀ bytes tokens errors,
    .event (.scanned bytes tokens errors) ∉ (scan source).notices.map Notice.entry
  /-- What comes up in a step stands at the place of the source where the step begins. -/
  position : ∀ x ∈ (scan source).notices, ∃ done s more,
    (scan source).steps = done ++ s :: more ∧ x.entry ∈ s.entries ∧
      passed done ++ (s.piece.text ++ passed more) = source ∧
      x.offset = utf8Length (passed done)
  /-- Offsets and lines never go back, and no two tokens or errors have one offset. -/
  order : (scan source).notices.Pairwise Notice.Precedes

/-- What comes up stands where its step begins. -/
theorem position_of_mem_notices {source : Text} {x : Notice} (hx : x ∈ (scan source).notices) :
    ∃ done s more, (scan source).steps = done ++ s :: more ∧ x.entry ∈ s.entries ∧
      passed done ++ (s.piece.text ++ passed more) = source ∧
      x.offset = utf8Length (passed done) := by
  obtain ⟨s, hs, hmem⟩ := List.mem_flatMap.1 hx
  obtain ⟨e, he, rfl⟩ := List.mem_map.1 hmem
  obtain ⟨done, more, hsteps⟩ := List.append_of_mem hs
  obtain ⟨htext, hoffset, -, -⟩ := of_steps_scan_eq hsteps
  exact ⟨done, s, more, hsteps, he, htext, hoffset⟩

/-- **The trace of a scan is a faithful account, in order**: of its tokens, its errors and its end,
and of where each comes from. -/
theorem trace_accounts (source : Text) : TraceAccounts source := by
  have htokens : (scan source).log.filter LogEvent.isTrace =
      ((scan source).tokens.filter (·.kind ≠ .endOfInput)).map .token := by
    rw [Scan.filter_isTrace_log, filter_tokens_scan_eq]
  have hreports := (scan source).filterMap_report?_trace
  constructor
  case tokens => exact htokens
  case fields =>
    rw [htokens, List.map_map]
    rfl
  case reports => exact hreports
  case delivered =>
    intro c fs
    rw [hreports]
    rfl
  case finish =>
    have hstop : (scan source).stop.offset = utf8Length source :=
      (Cursor.standsBehind_start source).stop.offset
    rw [hreports, ← hstop]
    exact (scan source).trace_eq_notices
  case finish_once =>
    intro bytes tokens errors hmem
    obtain ⟨x, hx, heq⟩ := List.mem_map.1 hmem
    obtain ⟨done, s, more, -, hentry, -, -⟩ := position_of_mem_notices hx
    -- Whatever comes up in a step carries a line.
    obtain ⟨n, hline, -, -⟩ := Step.exists_line?_of_mem_entries hentry
    rw [heq] at hline
    contradiction
  case position =>
    intro x hx
    exact position_of_mem_notices hx
  case order => exact pairwise_notices_scan source

end LoxLex
