import Mathlib.Data.List.Induction
import LoxLex.Session
import LoxLex.Proofs.Terminal.Prompt

/-! # What a console keeps of a session

All that actions do to a console is to report errors and to reset it. `Action.deeds` says what an
action does to it, in order, without a look at the console; the action does just that
(`Console.act_snd`), and what it gives depends on the console through the flag alone
(`Console.act_fst_congr`). So after any actions the stream holds the first bytes of all reports, as
many as it takes, and the flag tells whether one came since the last reset
(`session_records`): no stream that runs full, be it that of the errors or an output, loses an error
or forgets one. -/

namespace LoxLex

/-! ### What is done to a console -/

/-- What is done to a console. -/
inductive Deed where
  /-- An error is reported. -/
  | report (error : LexicalError)
  /-- The errors reported so far are forgotten. -/
  | reset
  deriving DecidableEq, Repr

namespace Deed

/-- The error that is reported, if one is. -/
def error? : Deed → Option LexicalError
  | report e => some e
  | reset => none

/-- The lines that are shown of some deeds: one for each error that is reported. -/
def reports (ds : List Deed) : Text := reportLines (ds.filterMap error?)

/-- A report is shown as a line, and then the other deeds are. -/
theorem reports_cons_report (e : LexicalError) (ds : List Deed) :
    reports (report e :: ds) = e.reportLine ++ reports ds := rfl

/-- Nothing is shown of a reset. -/
theorem reports_cons_reset (ds : List Deed) : reports (reset :: ds) = reports ds := rfl

example :
    reports [.report (.unexpectedCharacter 2 '&'), .reset, .report (.unterminatedString 13)] =
      ("[line 2] Error: Unexpected character '&'.\n" ++
        "[line 13] Error: Unterminated string.\n").toList := by
  decide +kernel

/-- Whether an error was reported since the last reset. -/
def Remembers (ds : List Deed) : Prop :=
  ∃ before e behind, ds = before ++ report e :: behind ∧ reset ∉ behind

/-- Where nothing was done, nothing is remembered. -/
theorem not_remembers_nil : ¬ Remembers [] := by
  rintro ⟨before, e, behind, h, -⟩
  simp at h

/-- A report is remembered. -/
theorem remembers_concat_report (ds : List Deed) (e : LexicalError) :
    Remembers (ds ++ [report e]) :=
  ⟨ds, e, [], rfl, by simp⟩

/-- Behind a reset nothing is remembered. -/
theorem not_remembers_concat_reset (ds : List Deed) : ¬ Remembers (ds ++ [reset]) := by
  rintro ⟨before, e, behind, h, hbehind⟩
  rcases List.eq_nil_or_concat' behind with rfl | ⟨init, last, rfl⟩
  · exact absurd (List.append_inj' h rfl).2 (by simp)
  · -- The last deed is the reset.
    rw [← List.cons_append, ← List.append_assoc] at h
    have hlast : reset = last := by simpa using (List.append_inj' h rfl).2
    exact hbehind (by simp [hlast])

end Deed

namespace Console

/-- Does something to a console. -/
def undergo (c : Console) : Deed → Console
  | .report e => c.report e
  | .reset => c.reset

/-- Does one thing after the other to a console. -/
def perform (c : Console) (ds : List Deed) : Console := ds.foldl undergo c

variable (c : Console) (ds es : List Deed)

/-- `c.perform [] = c`. -/
@[simp] theorem perform_nil : c.perform [] = c := rfl

/-- The first of some deeds is done first. -/
theorem perform_cons (d : Deed) : c.perform (d :: ds) = (c.undergo d).perform ds := rfl

/-- Deeds are done one list after the other: `c.perform (ds ++ es) = (c.perform ds).perform es`. -/
theorem perform_append : c.perform (ds ++ es) = (c.perform ds).perform es := List.foldl_append

/-- The last of some deeds is done to what the others leave. -/
theorem perform_concat (d : Deed) : c.perform (ds ++ [d]) = (c.perform ds).undergo d :=
  perform_append c ds [d]

/-- Deeds that all are reports report the errors. -/
theorem perform_map_report (errors : List LexicalError) :
    c.perform (errors.map .report) = c.reportAll errors :=
  List.foldl_map ..

/-- **The stream** of a console takes the lines of all reports, in order. -/
theorem took_perform : c.stream.Took (Utf8.encode (Deed.reports ds)) (c.perform ds).stream := by
  induction ds generalizing c with
  | nil => exact .nil
  | cons d ds ih =>
    cases d with
    | report e =>
      rw [Deed.reports_cons_report, Utf8.encode_append]
      exact (c.took_report e).append (ih (c.report e))
    | reset =>
      rw [Deed.reports_cons_reset]
      exact ih c.reset

/-- **The flag** of a console tells whether an error was reported since the last reset. -/
theorem hadError_perform (limit : Option Nat) :
    (perform { stream := { limit } } ds).hadError = true ↔ Deed.Remembers ds := by
  induction ds using List.reverseRecOn with
  | nil => simpa using Deed.not_remembers_nil
  | append_singleton ds d ih =>
    -- The last deed alone decides, so the others are not looked at.
    rw [perform_concat]
    cases d with
    | report e => exact iff_of_true rfl (Deed.remembers_concat_report ds e)
    | reset => exact iff_of_false (by simp [undergo, reset]) (Deed.not_remembers_concat_reset ds)

/-- The flag does not depend on the stream. -/
theorem hadError_perform_congr {c c' : Console} (h : c.hadError = c'.hadError) :
    (c.perform ds).hadError = (c'.perform ds).hadError := by
  induction ds generalizing c c' with
  | nil => exact h
  | cons d ds ih =>
    apply ih
    cases d <;> rfl

end Console

/-! ### What actions do -/

/-- What a scan does to a console: it reports its errors. -/
def Scan.deeds (s : Scan) : List Deed := s.errors.map .report

/-- What the prompt does to a console for some lines, behind what was written before: as long as
the question fits, a line of text is scanned, and forgotten when its answer fits. -/
def promptDeeds (limit : Option Nat) (done : Text) : List Bytes → List Deed
  | [] => []
  | line :: lines =>
    let question := done ++ "> ".toList
    if Text.Fits limit question then
      match Utf8.decode? line with
      | none => []
      | some t =>
        let answer := question ++ listed (scan t).tokens
        if Text.Fits limit answer then
          (scan t).deeds ++ .reset :: promptDeeds limit answer lines
        else (scan t).deeds
    else []

/-- What an action does to a console. -/
def Action.deeds (fs : Files) : Action → List Deed
  | run source _ => (scan source).deeds
  | prompt input limit => promptDeeds limit [] (lines input)
  | script path =>
    match fs.source path with
    | .ok text => (scan text).deeds
    | .error _ => []
  | tokenize source => (scan source).deeds
  | report e => [.report e]
  | reset => [.reset]

section

variable {limit : Option Nat} {done : Text} {console : Console} {log : Array LogEvent}

/-- The output is full in a question. -/
theorem Dialogue.converse_offered_of_full (h : Text.Fits limit done)
    (hcut : ¬ Text.Fits limit (done ++ "> ".toList)) (ls : List Bytes) :
    converse ⟨Terminal.offered limit done console, log⟩ ls =
      (some .sinkFull, ⟨Terminal.offered limit (done ++ "> ".toList) console, log⟩) := by
  cases ls <;> simp only [converse, ask, print_offered h, if_neg hcut]

/-- Where the first question does not fit, the prompt does nothing to a console. -/
theorem promptDeeds_of_full (hcut : ¬ Text.Fits limit (done ++ "> ".toList)) (ls : List Bytes) :
    promptDeeds limit done ls = [] := by
  cases ls with
  | nil => rfl
  | cons line ls => simp only [promptDeeds, if_neg hcut]

/-- The input has ended. -/
theorem Dialogue.converse_offered_nil (h : Text.Fits limit done)
    (hasked : Text.Fits limit (done ++ "> ".toList)) :
    converse ⟨Terminal.offered limit done console, log⟩ [] =
      (if Text.Fits limit (done ++ "> ".toList ++ ['\n']) then none else some .sinkFull,
        ⟨Terminal.offered limit (done ++ "> ".toList ++ ['\n']) console,
          log.push .inputClosed⟩) := by
  simp only [converse, ask, print_offered h, if_pos hasked, close, print_offered hasked]

/-- A line is no text. -/
theorem Dialogue.converse_offered_of_decode?_eq_none (h : Text.Fits limit done)
    (hasked : Text.Fits limit (done ++ "> ".toList)) {line : Bytes}
    (hline : Utf8.decode? line = none) (ls : List Bytes) :
    converse ⟨Terminal.offered limit done console, log⟩ (line :: ls) =
      (some .invalidUtf8, ⟨Terminal.offered limit (done ++ "> ".toList) console, log⟩) := by
  simp only [converse, ask, print_offered h, if_pos hasked, answer, hline]

/-- A line of text is scanned. Its errors are forgotten if the output takes its listing. -/
theorem Dialogue.converse_offered_cons (h : Text.Fits limit done)
    (hasked : Text.Fits limit (done ++ "> ".toList)) {line : Bytes} {t : Text}
    (hline : Utf8.decode? line = some t) (ls : List Bytes) :
    converse ⟨Terminal.offered limit done console, log⟩ (line :: ls) =
      if Text.Fits limit (done ++ "> ".toList ++ listed (scan t).tokens) then
        converse
          ⟨Terminal.offered limit (done ++ "> ".toList ++ listed (scan t).tokens)
              (console.reportAll (scan t).errors).reset,
            log ++ (scan t).log⟩ ls
      else
        (some .sinkFull,
          ⟨Terminal.offered limit (done ++ "> ".toList ++ listed (scan t).tokens)
              (console.reportAll (scan t).errors),
            log ++ (scan t).log⟩) := by
  simp only [converse, ask, print_offered h, if_pos hasked, answer, hline,
    Terminal.present_offered hasked, decide_eq_true_eq]
  by_cases hanswer : Text.Fits limit (done ++ "> ".toList ++ listed (scan t).tokens)
  · simp only [if_pos hanswer]
    rfl
  · simp only [if_neg hanswer]

end

/-- **A dialogue** takes one course for all consoles, and does to each what `promptDeeds` says. -/
theorem Dialogue.exists_converse_offered {limit : Option Nat} (ls : List Bytes) {done : Text}
    (h : Text.Fits limit done) (log : Array LogEvent) :
    ∃ failure written log', ∀ console : Console,
      converse ⟨Terminal.offered limit done console, log⟩ ls =
        (failure, ⟨Terminal.offered limit written (console.perform (promptDeeds limit done ls)),
          log'⟩) := by
  induction ls generalizing done log with
  | nil =>
    by_cases hasked : Text.Fits limit (done ++ "> ".toList)
    · -- Nothing is done to the console, so what is written and logged can be read off.
      exact ⟨_, _, _, fun console => converse_offered_nil h hasked⟩
    · exact ⟨_, _, _, fun console => converse_offered_of_full h hasked []⟩
  | cons line ls ih =>
    by_cases hasked : Text.Fits limit (done ++ "> ".toList)
    · cases hline : Utf8.decode? line with
      | none =>
        have hdeeds : promptDeeds limit done (line :: ls) = [] := by
          simp only [promptDeeds, if_pos hasked, hline]
        rw [hdeeds]
        exact ⟨_, _, _, fun console => converse_offered_of_decode?_eq_none h hasked hline ls⟩
      | some t =>
        by_cases hanswer : Text.Fits limit (done ++ "> ".toList ++ listed (scan t).tokens)
        · -- The line is forgotten, and the course of the others does not depend on it.
          obtain ⟨failure, written, log', hrest⟩ := ih hanswer (log ++ (scan t).log)
          refine ⟨failure, written, log', fun console => ?_⟩
          have hdeeds : promptDeeds limit done (line :: ls) = (scan t).deeds ++
              .reset :: promptDeeds limit (done ++ "> ".toList ++ listed (scan t).tokens) ls := by
            simp only [promptDeeds, if_pos hasked, hline, if_pos hanswer]
          rw [converse_offered_cons h hasked hline, if_pos hanswer, hrest, hdeeds,
            Console.perform_append, Console.perform_cons, Scan.deeds, Console.perform_map_report]
          rfl
        · -- The output is full in the answer: the line is remembered.
          have hdeeds : promptDeeds limit done (line :: ls) = (scan t).deeds := by
            simp only [promptDeeds, if_pos hasked, hline, if_neg hanswer]
          refine ⟨some .sinkFull, done ++ "> ".toList ++ listed (scan t).tokens,
            log ++ (scan t).log, fun console => ?_⟩
          rw [converse_offered_cons h hasked hline, if_neg hanswer, hdeeds, Scan.deeds,
            Console.perform_map_report]
    · rw [promptDeeds_of_full hasked]
      exact ⟨_, _, _, fun console => converse_offered_of_full h hasked (line :: ls)⟩

/-- The prompt on an empty output takes one course for all consoles. -/
theorem Terminal.exists_prompt (limit : Option Nat) (input : Bytes) :
    ∃ failure written log, ∀ console : Console,
      prompt { output := { limit }, console } input =
        (failure, ⟨offered limit written (console.perform (promptDeeds limit [] (lines input))),
          log⟩) := by
  have hnil : Text.Fits limit [] := Sink.fits_nil
  obtain ⟨failure, written, log, h⟩ := Dialogue.exists_converse_offered (lines input) hnil #[]
  refine ⟨failure, written, log, fun console => ?_⟩
  rw [← h, prompt, offered, Utf8.encode_nil, Sink.offered_nil]

namespace Console

variable (c : Console) (fs : Files)

/-- A run lists what fits on its output, and reports all errors of the source in any case. -/
theorem act_run (source : Text) (limit : Option Nat) :
    c.act fs (.run source limit) =
      (.listed (Sink.kept limit (Utf8.encode (listed (scan source).tokens))).toArray
          (if Text.Fits limit (listed (scan source).tokens) then none else some .sinkFull),
        c.reportAll (scan source).errors) := by
  simp only [act, Terminal.present_fresh, decide_eq_true_eq]
  rfl

/-- A script that cannot be read leaves the console as it is, and its output empty. -/
theorem act_script_of_error {path : Text} {e : SourceError} (h : fs.source path = .error e) :
    c.act fs (.script path) = (.ran #[] (.error e), c) := by
  simp only [act, script, h]

/-- A script that can be read is listed, and its exit tells the flag behind its errors. -/
theorem act_script_of_ok {path text : Text} (h : fs.source path = .ok text) :
    c.act fs (.script path) =
      (.ran (Utf8.encode (listed (scan text).tokens)).toArray
          (.ok (c.reportAll (scan text).errors).exit),
        c.reportAll (scan text).errors) := by
  simp only [act, script, h]
  rw [Terminal.present_fresh]
  rfl

/-- **A step.** An action does to the console what `Action.deeds` says. -/
theorem act_snd (a : Action) : (c.act fs a).2 = c.perform (a.deeds fs) := by
  cases a with
  | run source limit => rw [act_run, Action.deeds, Scan.deeds, perform_map_report]
  | prompt input limit =>
    -- A prompt is the one action with many deeds of both kinds; its course was followed above.
    obtain ⟨failure, written, log, h⟩ := Terminal.exists_prompt limit input
    simp only [act, h]
    rfl
  | script path =>
    cases hsource : fs.source path with
    | error e =>
      rw [act_script_of_error c fs hsource]
      simp only [Action.deeds, hsource, perform_nil]
    | ok text =>
      rw [act_script_of_ok c fs hsource]
      simp only [Action.deeds, hsource, Scan.deeds, perform_map_report]
  | tokenize source => exact (perform_map_report ..).symm
  | report e => rfl
  | reset => rfl

/-- **Two steps.** What an action gives depends on the console through its flag alone. -/
theorem act_fst_congr {c c' : Console} (h : c.hadError = c'.hadError) (a : Action) :
    (c.act fs a).1 = (c'.act fs a).1 := by
  cases a with
  | run source limit => rw [act_run, act_run]
  | prompt input limit =>
    obtain ⟨failure, written, log, hprompt⟩ := Terminal.exists_prompt limit input
    simp only [act, hprompt]
    rfl
  | script path =>
    cases hsource : fs.source path with
    | error e => rw [act_script_of_error c fs hsource, act_script_of_error c' fs hsource]
    | ok text =>
      -- The exit of a script is told by the flag, also by what was set before the script.
      rw [act_script_of_ok c fs hsource, act_script_of_ok c' fs hsource, exit, exit,
        hadError_reportAll, hadError_reportAll, h]
  | tokenize source => rfl
  | report e => rfl
  | reset => rfl

/-! ### Sessions -/

/-- A session is its first action, and the session of the others on the console that it leaves. -/
theorem session_cons (a : Action) (actions : List Action) :
    c.session fs (a :: actions) = c.act fs a :: (c.act fs a).2.session fs actions := rfl

/-- **Every action is answered**: a session has as many replies as actions. -/
theorem length_session (actions : List Action) :
    (c.session fs actions).length = actions.length := by
  induction actions generalizing c with
  | nil => rfl
  | cons a actions ih => rw [session_cons, List.length_cons, ih, List.length_cons]

/-- **A run.** After some actions a console has undergone their deeds. -/
theorem eq_perform_of_session {actions : List Action} {k : Nat} {reply : Reply} {after : Console}
    (h : (c.session fs actions)[k]? = some (reply, after)) :
    after = c.perform ((actions.take (k + 1)).flatMap (Action.deeds fs)) := by
  induction actions generalizing c k with
  | nil => simp [session] at h
  | cons a actions ih =>
    rw [List.take_succ_cons, List.flatMap_cons, perform_append, ← act_snd]
    cases k with
    | zero =>
      rw [session_cons, List.getElem?_cons_zero, Option.some.injEq] at h
      rw [h, List.take_zero]
      rfl
    | succ k => exact ih _ h

/-- **Two runs.** Sessions on two consoles with one flag give the same replies and flags. -/
theorem session_congr {c c' : Console} (h : c.hadError = c'.hadError) (actions : List Action) :
    (c.session fs actions).map (fun r => (r.1, r.2.hadError)) =
      (c'.session fs actions).map fun r => (r.1, r.2.hadError) := by
  induction actions generalizing c c' with
  | nil => rfl
  | cons a actions ih =>
    have hafter : (c.act fs a).2.hadError = (c'.act fs a).2.hadError := by
      rw [act_snd, act_snd]
      exact hadError_perform_congr _ h
    rw [session_cons, session_cons, List.map_cons, List.map_cons, act_fst_congr fs h, hafter,
      ih hafter]

/-- **The record of a console** with a limit on its stream, to which something was done. -/
structure Records (limit : Option Nat) (ds : List Deed) (c : Console) : Prop where
  /-- The stream took the first bytes of all reports, in order. -/
  taken : c.stream.taken.toList = Sink.kept limit (Utf8.encode (Deed.reports ds))
  /-- The flag is set if an error was reported since the last reset. -/
  hadError_iff : c.hadError = true ↔ Deed.Remembers ds

/-- A console has the record of what was done to it. -/
theorem records_perform (limit : Option Nat) (ds : List Deed) :
    Records limit ds (perform { stream := { limit } } ds) where
  taken := by
    rw [Sink.took_fresh_iff.1 (took_perform { stream := { limit } } ds), Sink.offered]
  hadError_iff := hadError_perform ds limit

end Console

/-- **The record of a session.** Every action of a session is answered. After each, the console has
the record of all that the actions up to it did to it. No answer and no flag depends on how much the
stream of the errors takes. A run leaves the first bytes of its listing on its output and fails if
these are not all, and it reports all errors of its source wherever the output is full. A script
that cannot be read leaves the console as it was, and its output empty. -/
theorem session_records (fs : Files) (limit : Option Nat) (actions : List Action) :
    (Console.session { stream := { limit } } fs actions).length = actions.length ∧
      (∀ (k : Nat) (reply : Reply) (after : Console),
        (Console.session { stream := { limit } } fs actions)[k]? = some (reply, after) →
          after.Records limit ((actions.take (k + 1)).flatMap (Action.deeds fs))) ∧
      (∀ other : Option Nat,
        (Console.session { stream := { limit } } fs actions).map (fun r => (r.1, r.2.hadError)) =
          (Console.session { stream := { limit := other } } fs actions).map
            fun r => (r.1, r.2.hadError)) ∧
      (∀ (c : Console) (source : Text) (room : Option Nat),
        (c.act fs (.run source room)).1 =
            .listed (Sink.kept room (Utf8.encode (listed (scan source).tokens))).toArray
              (if Text.Fits room (listed (scan source).tokens) then none else some .sinkFull) ∧
          c.Reported (scan source).errors (c.act fs (.run source room)).2) ∧
      ∀ (c : Console) (path : Text) (e : SourceError), fs.source path = .error e →
        c.act fs (.script path) = (.ran #[] (.error e), c) := by
  refine ⟨Console.length_session .., ?_, ?_, ?_, ?_⟩
  · intro k reply after h
    rw [Console.eq_perform_of_session _ _ h]
    exact Console.records_perform limit _
  · intro other
    have hflag : Console.hadError { stream := { limit } } =
        Console.hadError { stream := { limit := other } } := rfl
    exact Console.session_congr fs hflag actions
  · intro c source room
    rw [c.act_run]
    exact ⟨rfl, c.reported_reportAll _⟩
  · intro c path e h
    exact c.act_script_of_error fs h

end LoxLex
