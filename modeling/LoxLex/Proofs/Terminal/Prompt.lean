import Mathlib.Data.List.Induction
import LoxLex.Prompt
import LoxLex.Proofs.Scan.Yield
import LoxLex.Proofs.Terminal.Output
import LoxLex.Proofs.Text.Lines

/-! # The prompt on any output

What a dialogue writes is fixed by its lines (`transcript`), and an output with a limit takes the
first bytes of it. Where the limit falls decides how the dialogue ends: it goes on from line to line
as long as the answers fit (`converse_map_append`), and then stops in a question, in an answer, or
behind the last line. What has been scanned, reported and forgotten by then is read off each of
these ends (`prompt_on_limit`). -/

namespace LoxLex

/-! ### What is written -/

/-- What is written for lines: a question for each, and behind it the tokens of the line. -/
def exchanges (ts : List Text) : Text :=
  ts.flatMap fun t => "> ".toList ++ listed (scan t).tokens

/-- What is written for lines, with the question behind them. -/
def asked (ts : List Text) : Text := exchanges ts ++ "> ".toList

/-- All that is written in a dialogue, if it fits. -/
def transcript (ts : List Text) : Text := asked ts ++ ['\n']

/-- The errors of lines, each scanned by itself. -/
def errorsOf (ts : List Text) : List LexicalError := ts.flatMap fun t => (scan t).errors

/-- The log of lines, each scanned by itself. -/
def logOf (ts : List Text) : List LogEvent := ts.flatMap fun t => (scan t).log

section

variable {limit : Option Nat} {done text : Text} {ts us : List Text} {t : Text}

/-- What is written for lines and further ones:
`exchanges (ts ++ us) = exchanges ts ++ exchanges us`. -/
theorem exchanges_append (ts us : List Text) :
    exchanges (ts ++ us) = exchanges ts ++ exchanges us := List.flatMap_append

/-- What is written for lines and one more ends with its question and its tokens:
`asked ts ++ listed (scan t).tokens`. -/
theorem exchanges_concat (ts : List Text) (t : Text) :
    exchanges (ts ++ [t]) = asked ts ++ listed (scan t).tokens := by
  rw [exchanges_append, asked, List.append_assoc]
  simp [exchanges]

/-- A line is asked for before it is answered. -/
theorem asked_prefix_exchanges (ts us : List Text) (t : Text) :
    asked ts <+: exchanges (ts ++ t :: us) := by
  rw [List.append_cons, exchanges_append, exchanges_concat, List.append_assoc]
  exact List.prefix_append ..

/-- A line is asked for before all further ones. -/
theorem asked_prefix_asked (ts us : List Text) : asked ts <+: asked (ts ++ us) := by
  cases us with
  | nil => simp
  | cons t us => exact (asked_prefix_exchanges ts us t).trans (List.prefix_append ..)

/-- A line is asked for before all is written. -/
theorem asked_prefix_transcript (ts us : List Text) : asked ts <+: transcript (ts ++ us) :=
  (asked_prefix_asked ts us).trans (List.prefix_append ..)

/-- Lines are answered before the next one is asked for. -/
theorem exchanges_prefix_asked (ts : List Text) : exchanges ts <+: asked ts :=
  List.prefix_append ..

/-! ### One line after the other -/

variable {console : Console} {log : Array LogEvent}

/-- Writing in a dialogue. -/
theorem Dialogue.print_offered (h : Text.Fits limit done) (text : Text) :
    Dialogue.print ⟨Terminal.offered limit done console, log⟩ text =
      (if Text.Fits limit (done ++ text) then none else some .sinkFull,
        ⟨Terminal.offered limit (done ++ text) console, log⟩) := by
  rw [Dialogue.print, Terminal.print_offered h]
  simp only [decide_eq_true_eq]

/-- A console after lines that were answered: their errors have been reported, and forgotten. -/
def Console.answered (c : Console) (ts : List Text) : Console where
  stream := (c.reportAll (errorsOf ts)).stream
  hadError := ts.isEmpty && c.hadError

/-- A dialogue after lines that were answered. -/
def Dialogue.answered (limit : Option Nat) (c : Console) (ts : List Text) : Dialogue where
  terminal := Terminal.offered limit (exchanges ts) (c.answered ts)
  log := (logOf ts).toArray

/-- What is shown of the errors of a further line comes behind what is shown of the others. -/
theorem Console.stream_answered_reportAll (c : Console) (ts : List Text) (t : Text) :
    ((c.answered ts).reportAll (scan t).errors).stream =
      (c.reportAll (errorsOf (ts ++ [t]))).stream := by
  have herrors : errorsOf (ts ++ [t]) = errorsOf ts ++ (scan t).errors := by
    simp [errorsOf]
  rw [herrors, Console.reportAll_append]
  exact Console.stream_reportAll_congr _ rfl

/-- The stream of the errors took the lines of the errors of lines that were answered, and of one
more. -/
theorem Console.took_answered_reportAll (c : Console) (ts : List Text) (t : Text) :
    c.stream.Took (Utf8.encode (reportLines (errorsOf (ts ++ [t]))))
      ((c.answered ts).reportAll (scan t).errors).stream := by
  rw [stream_answered_reportAll]
  exact c.took_reportAll _

/-- The log of lines and one more ends with that of the one. -/
theorem logOf_concat (ts : List Text) (t : Text) :
    logOf (ts ++ [t]) = logOf ts ++ (scan t).log := by
  simp [logOf]

/-- Asking for a line. -/
theorem Dialogue.ask_answered (h : Text.Fits limit (exchanges ts)) :
    (Dialogue.answered limit console ts).ask =
      (if Text.Fits limit (asked ts) then none else some .sinkFull,
        ⟨Terminal.offered limit (asked ts) (console.answered ts), (logOf ts).toArray⟩) :=
  Dialogue.print_offered h _

/-- Answering a line that was asked for. -/
theorem Dialogue.answer_offered (h : Text.Fits limit (asked ts)) (t : Text) :
    Dialogue.answer ⟨Terminal.offered limit (asked ts) (console.answered ts), (logOf ts).toArray⟩
        (Utf8.encode t) =
      if Text.Fits limit (exchanges (ts ++ [t])) then
        (none, Dialogue.answered limit console (ts ++ [t]))
      else
        (some .sinkFull,
          ⟨Terminal.offered limit (exchanges (ts ++ [t]))
              ((console.answered ts).reportAll (scan t).errors),
            (logOf (ts ++ [t])).toArray⟩) := by
  have hreset : ((console.answered ts).reportAll (scan t).errors).reset =
      console.answered (ts ++ [t]) := by
    rw [Console.reset, Console.stream_answered_reportAll, Console.answered]
    simp
  have hlog : (logOf ts).toArray ++ (scan t).log = (logOf (ts ++ [t])).toArray := by
    rw [logOf_concat]
    simp
  rw [Dialogue.answer, Utf8.decode?_encode]
  simp only [Terminal.present_offered h, ← exchanges_concat, hlog, decide_eq_true_eq]
  rw [Dialogue.answered, ← hreset]
  rfl

/-- **A step.** A line whose answer fits is answered, and the dialogue goes on. -/
theorem Dialogue.converse_answered_cons (h : Text.Fits limit (exchanges (ts ++ [t])))
    (rest : List Bytes) :
    (Dialogue.answered limit console ts).converse (Utf8.encode t :: rest) =
      (Dialogue.answered limit console (ts ++ [t])).converse rest := by
  have hasked : Text.Fits limit (asked ts) := h.of_isPrefix (asked_prefix_exchanges ts [] t)
  have hdone : Text.Fits limit (exchanges ts) := hasked.of_isPrefix (exchanges_prefix_asked ts)
  simp only [Dialogue.converse, Dialogue.ask_answered hdone, if_pos hasked,
    Dialogue.answer_offered hasked, if_pos h]

/-- **A run.** Lines whose answers fit are answered, and the dialogue goes on. -/
theorem Dialogue.converse_map_append (h : Text.Fits limit (exchanges ts)) (rest : List Bytes) :
    (Dialogue.answered limit console []).converse (ts.map Utf8.encode ++ rest) =
      (Dialogue.answered limit console ts).converse rest := by
  induction ts using List.reverseRecOn generalizing rest with
  | nil => rfl
  | append_singleton ts t ih =>
    have hdone : Text.Fits limit (exchanges ts) := by
      rw [exchanges_append] at h
      exact h.of_isPrefix (List.prefix_append ..)
    rw [List.map_append, List.append_assoc, ih hdone]
    exact Dialogue.converse_answered_cons h rest

/-! ### How a dialogue ends -/

/-- The output is full in a question. -/
theorem Dialogue.converse_of_not_fits_asked (h : Text.Fits limit (exchanges ts))
    (hcut : ¬ Text.Fits limit (asked ts)) (rest : List Bytes) :
    (Dialogue.answered limit console ts).converse rest =
      (some .sinkFull,
        ⟨Terminal.offered limit (asked ts) (console.answered ts), (logOf ts).toArray⟩) := by
  cases rest <;> simp only [Dialogue.converse, Dialogue.ask_answered h, if_neg hcut]

/-- The output is full in an answer. -/
theorem Dialogue.converse_of_not_fits_exchanges (h : Text.Fits limit (asked ts))
    (hcut : ¬ Text.Fits limit (exchanges (ts ++ [t]))) (rest : List Bytes) :
    (Dialogue.answered limit console ts).converse (Utf8.encode t :: rest) =
      (some .sinkFull,
        ⟨Terminal.offered limit (exchanges (ts ++ [t]))
            ((console.answered ts).reportAll (scan t).errors),
          (logOf (ts ++ [t])).toArray⟩) := by
  have hdone : Text.Fits limit (exchanges ts) := h.of_isPrefix (exchanges_prefix_asked ts)
  simp only [Dialogue.converse, Dialogue.ask_answered hdone, if_pos h,
    Dialogue.answer_offered h, if_neg hcut]

/-- The input has ended. -/
theorem Dialogue.converse_nil (h : Text.Fits limit (asked ts)) :
    (Dialogue.answered limit console ts).converse [] =
      (if Text.Fits limit (transcript ts) then none else some .sinkFull,
        ⟨Terminal.offered limit (transcript ts) (console.answered ts),
          (logOf ts ++ [LogEvent.inputClosed]).toArray⟩) := by
  have hdone : Text.Fits limit (exchanges ts) := h.of_isPrefix (exchanges_prefix_asked ts)
  simp only [Dialogue.converse, Dialogue.ask_answered hdone, if_pos h]
  rw [Dialogue.close, Dialogue.print_offered h, List.push_toArray]
  rfl

/-- A line is not UTF-8: it is asked for, and the dialogue stops, whatever comes behind it. -/
theorem Dialogue.converse_of_decode?_eq_none (h : Text.Fits limit (asked ts)) {line : Bytes}
    (hline : Utf8.decode? line = none) (rest : List Bytes) :
    (Dialogue.answered limit console ts).converse (line :: rest) =
      (some .invalidUtf8,
        ⟨Terminal.offered limit (asked ts) (console.answered ts), (logOf ts).toArray⟩) := by
  have hdone : Text.Fits limit (exchanges ts) := h.of_isPrefix (exchanges_prefix_asked ts)
  simp only [Dialogue.converse, Dialogue.ask_answered hdone, if_pos h, Dialogue.answer, hline]

/-- The first lines fit with their answers, up to one whose answer does not. -/
theorem exists_answered (limit : Option Nat) (ts : List Text) :
    ∃ done rest, ts = done ++ rest ∧ Text.Fits limit (exchanges done) ∧
      ∀ t ∈ rest.head?, ¬ Text.Fits limit (exchanges (done ++ [t])) := by
  induction ts using List.reverseRecOn with
  | nil => exact ⟨[], [], rfl, Sink.fits_nil, by simp⟩
  | append_singleton ts t ih =>
    obtain ⟨done, rest, rfl, hdone, hcut⟩ := ih
    cases rest with
    | cons u rest => exact ⟨done, u :: (rest ++ [t]), by simp, hdone, hcut⟩
    | nil =>
      rw [List.append_nil]
      by_cases h : Text.Fits limit (exchanges (done ++ [t]))
      · exact ⟨done ++ [t], [], by simp, h, by simp⟩
      · exact ⟨done, [t], rfl, hdone, by simpa using h⟩

/-- The prompt is the dialogue on the lines of an input, of which none has been answered yet. -/
theorem Terminal.prompt_eq (limit : Option Nat) (console : Console) (input : Bytes) :
    Terminal.prompt { output := { limit }, console } input =
      (Dialogue.answered limit console []).converse (lines input) := by
  rw [Terminal.prompt, ← Sink.offered_nil]
  rfl

/-! ### What a limit leaves of a dialogue -/

/-- **What a limit leaves of a dialogue** on `texts`, of which the first, `scanned`, were
scanned. -/
structure CutDialogue (limit : Option Nat) (console : Console) (texts scanned : List Text)
    (failure : Option StreamError) (d : Dialogue) : Prop where
  /-- The output holds the first bytes of all there is to write. -/
  taken : d.terminal.output.taken.toList = Sink.kept limit (Utf8.encode (transcript texts))
  /-- The dialogue fails if the output does not take all. -/
  failure_eq : failure = if Text.Fits limit (transcript texts) then none else some .sinkFull
  /-- The lines that were scanned are the first. -/
  scanned_isPrefix : scanned <+: texts
  /-- They are those whose question fits. -/
  scanned_iff : ∀ done t rest, texts = done ++ t :: rest →
    (done.length < scanned.length ↔ Text.Fits limit (asked done))
  /-- They are logged, and that the input ended if the last question fits. -/
  log_eq : d.log.toList =
    logOf scanned ++ if Text.Fits limit (asked texts) then [.inputClosed] else []
  /-- The stream of the errors took a line for each of their errors, in order. -/
  reports : console.stream.Took (Utf8.encode (reportLines (errorsOf scanned)))
    d.terminal.console.stream
  /-- If the dialogue does not fail, its errors are forgotten. -/
  hadError_of_success : failure = none →
    d.terminal.console.hadError = (texts.isEmpty && console.hadError)
  /-- If it fails in an answer, the errors of that line are remembered, and what was remembered
  before if it is the first line. -/
  hadError_of_answer : failure ≠ none → ∀ done t, scanned = done ++ [t] →
    ¬ Text.Fits limit (exchanges scanned) →
      (d.terminal.console.hadError = true ↔
        (scan t).errors ≠ [] ∨ done = [] ∧ console.hadError = true)
  /-- If it fails elsewhere, the errors are forgotten if a line was scanned. -/
  hadError_of_question : failure ≠ none → Text.Fits limit (exchanges scanned) →
    d.terminal.console.hadError = (scanned.isEmpty && console.hadError)

/-- A line was scanned if its question fits, where the lines that were scanned end with the last
such line. -/
theorem length_lt_iff_fits_asked {scanned left done rest : List Text} {t : Text}
    (hfits : ∀ init u, scanned = init ++ [u] → Text.Fits limit (asked init))
    (hcut : left = [] ∨ ¬ Text.Fits limit (asked scanned))
    (h : scanned ++ left = done ++ t :: rest) :
    done.length < scanned.length ↔ Text.Fits limit (asked done) := by
  constructor
  · intro hlength
    obtain ⟨more, hscanned⟩ : done <+: scanned :=
      List.prefix_of_prefix_length_le ⟨t :: rest, h.symm⟩ ⟨left, rfl⟩ hlength.le
    rcases List.eq_nil_or_concat' more with rfl | ⟨init, u, rfl⟩
    · simp [← hscanned] at hlength
    · rw [← List.append_assoc] at hscanned
      exact (hfits _ u hscanned.symm).of_isPrefix (asked_prefix_asked done init)
  · intro hdone
    by_contra hlength
    obtain ⟨more, rfl⟩ : scanned <+: done :=
      List.prefix_of_prefix_length_le ⟨left, rfl⟩ ⟨t :: rest, h.symm⟩ (not_lt.1 hlength)
    rcases hcut with rfl | hcut
    · simp at h
    · exact hcut (hdone.of_isPrefix (asked_prefix_asked scanned more))

/-- A question that does not fit leaves no room for what comes behind it. -/
theorem not_fits_append (hcut : ¬ Text.Fits limit (asked ts)) (left : List Text) :
    ¬ Text.Fits limit (asked (ts ++ left)) ∧ ¬ Text.Fits limit (transcript (ts ++ left)) :=
  ⟨fun h => hcut (h.of_isPrefix (asked_prefix_asked ts left)),
    fun h => hcut (h.of_isPrefix (asked_prefix_transcript ts left))⟩

/-- The output is full in a question. -/
theorem cutDialogue_of_question {left : List Text} (h : Text.Fits limit (exchanges ts))
    (hcut : ¬ Text.Fits limit (asked ts)) :
    CutDialogue limit console (ts ++ left) ts (some .sinkFull)
      ⟨Terminal.offered limit (asked ts) (console.answered ts), (logOf ts).toArray⟩ := by
  obtain ⟨hasked, htranscript⟩ := not_fits_append hcut left
  rw [Terminal.offered_of_isPrefix hcut (asked_prefix_transcript ts left)]
  refine ⟨rfl, (if_neg htranscript).symm, List.prefix_append .., ?_, ?_, console.took_reportAll _,
    ?_, ?_, ?_⟩
  · intro done t rest heq
    refine length_lt_iff_fits_asked ?_ (.inr hcut) heq
    rintro init u rfl
    exact h.of_isPrefix (asked_prefix_exchanges init [] u)
  · rw [if_neg hasked, List.append_nil]
  · intro hnone
    contradiction
  · intro _ _ _ _ hnot
    exact absurd h hnot
  · intro _ _
    rfl

/-- The output is full in an answer. -/
theorem cutDialogue_of_answer {left : List Text} (h : Text.Fits limit (asked ts))
    (hcut : ¬ Text.Fits limit (exchanges (ts ++ [t]))) :
    CutDialogue limit console (ts ++ [t] ++ left) (ts ++ [t]) (some .sinkFull)
      ⟨Terminal.offered limit (exchanges (ts ++ [t]))
          ((console.answered ts).reportAll (scan t).errors),
        (logOf (ts ++ [t])).toArray⟩ := by
  have hnext : ¬ Text.Fits limit (asked (ts ++ [t])) := fun hfits =>
    hcut (hfits.of_isPrefix (exchanges_prefix_asked _))
  obtain ⟨hasked, htranscript⟩ := not_fits_append hnext left
  rw [Terminal.offered_of_isPrefix hcut
    ((exchanges_prefix_asked _).trans (asked_prefix_transcript _ left))]
  refine ⟨rfl, (if_neg htranscript).symm, List.prefix_append .., ?_, ?_,
    console.took_answered_reportAll ts t, ?_, ?_, ?_⟩
  · intro done u rest heq
    refine length_lt_iff_fits_asked ?_ (.inr hnext) heq
    intro init u hinit
    rw [(List.append_inj' hinit rfl).1] at h
    exact h
  · rw [if_neg hasked, List.append_nil]
  · intro hnone
    contradiction
  · intro _ done u hdone _
    obtain ⟨rfl, hu⟩ := List.append_inj' hdone rfl
    obtain rfl : t = u := by simpa using hu
    have hflag := (console.answered ts).hadError_reportAll (scan t).errors
    show ((console.answered ts).reportAll (scan t).errors).hadError = true ↔ _
    rw [hflag]
    simp [Console.answered, or_comm]
  · intro _ hfits
    exact absurd hfits hcut

/-- The input has ended. -/
theorem cutDialogue_of_input_end (h : Text.Fits limit (asked ts)) :
    CutDialogue limit console ts ts
      (if Text.Fits limit (transcript ts) then none else some .sinkFull)
      ⟨Terminal.offered limit (transcript ts) (console.answered ts),
        (logOf ts ++ [LogEvent.inputClosed]).toArray⟩ := by
  refine ⟨rfl, rfl, List.prefix_rfl, ?_, ?_, console.took_reportAll _, fun _ => rfl, ?_,
    fun _ _ => rfl⟩
  · intro done t rest heq
    refine length_lt_iff_fits_asked ?_ (.inl rfl) ((List.append_nil ts).trans heq)
    intro init u hinit
    rw [hinit] at h
    exact h.of_isPrefix (asked_prefix_asked init [u])
  · rw [if_pos h]
  · intro _ _ _ _ hnot
    exact absurd (h.of_isPrefix (exchanges_prefix_asked ts)) hnot

end

/-- **The prompt on any output.** Let all lines of an input be UTF-8. Then the prompt leaves on an
output with a limit, or without one, the first bytes of the transcript of the lines, and fails if
those are not all. The lines whose question fits are scanned, and what was logged, reported and
remembered of them is what `CutDialogue` says. The errors are all on line 1. -/
theorem prompt_on_limit (limit : Option Nat) (console : Console) {input : Bytes}
    {texts : List Text} (hinput : lines input = texts.map Utf8.encode) :
    (∃ scanned, CutDialogue limit console texts scanned
        (Terminal.prompt { output := { limit }, console } input).1
        (Terminal.prompt { output := { limit }, console } input).2) ∧
      ∀ t ∈ texts, ∀ e ∈ (scan t).errors, e.line = 1 := by
  constructor
  · obtain ⟨done, rest, rfl, hdone, hcut⟩ := exists_answered limit texts
    rw [Terminal.prompt_eq, hinput, List.map_append, Dialogue.converse_map_append hdone]
    by_cases hasked : Text.Fits limit (asked done)
    · cases rest with
      | nil =>
        rw [List.append_nil, List.map_nil, Dialogue.converse_nil hasked]
        exact ⟨done, cutDialogue_of_input_end hasked⟩
      | cons t rest =>
        have hanswer : ¬ Text.Fits limit (exchanges (done ++ [t])) := hcut t rfl
        rw [List.map_cons, Dialogue.converse_of_not_fits_exchanges hasked hanswer,
          List.append_cons]
        exact ⟨done ++ [t], cutDialogue_of_answer hasked hanswer⟩
    · rw [Dialogue.converse_of_not_fits_asked hdone hasked]
      exact ⟨done, cutDialogue_of_question hdone hasked⟩
  · intro t ht e he
    have hline : Utf8.encode t ∈ lines input := hinput ▸ List.mem_map_of_mem ht
    exact line_eq_one_of_mem_errors (mt lineFeed_mem_encode_iff.2 (not_mem_of_mem_lines hline)) he

/-- The prompt where the output is full in the answer to the second of two lines. The first line has
an error, which is shown, and forgotten with what was remembered before; the second has none. -/
theorem prompt_on_limit_second_answer :
    let texts := ["&".toList, "1".toList]
    let console : Console := { hadError := true }
    let run := Terminal.prompt { output := { limit := some 16 }, console }
      (Utf8.encode "&\r\n1".toList)
    lines (Utf8.encode "&\r\n1".toList) = texts.map Utf8.encode ∧
      CutDialogue (some 16) console texts texts run.1 run.2 ∧
      (∀ t ∈ texts, ∀ e ∈ (scan t).errors, e.line = 1) ∧
      run.1 = some .sinkFull ∧
      run.2.terminal.output.taken.toList = "> EOF  null\n> NU".toUTF8.data.toList ∧
      run.2.terminal.console.stream.taken.toList =
        "[line 1] Error: Unexpected character '&'.\n".toUTF8.data.toList ∧
      run.2.terminal.console.hadError = false := by
  intro texts console run
  have hinput : lines (Utf8.encode "&\r\n1".toList) = texts.map Utf8.encode := by
    rw [lines_encode]
    decide +kernel
  obtain ⟨⟨scanned, hcut⟩, herrors⟩ := prompt_on_limit (some 16) console hinput
  -- Both questions fit, so both lines are scanned.
  have hsecond : Text.Fits (some 16) (asked ["&".toList]) := by decide +kernel
  have hlength := (hcut.scanned_iff ["&".toList] "1".toList [] rfl).2 hsecond
  obtain rfl : scanned = texts := hcut.scanned_isPrefix.eq_of_length_le hlength
  have hfailure : run.1 = some .sinkFull := hcut.failure_eq.trans (if_neg (by decide +kernel))
  refine ⟨hinput, hcut, herrors, hfailure, ?_, ?_, ?_⟩
  · exact hcut.taken.trans (by decide +kernel)
  · exact hcut.reports.taken_eq.trans (by decide +kernel)
  · have hfull : ¬ Text.Fits (some 16) (exchanges texts) := by decide +kernel
    have hfails : run.1 ≠ none := by
      rw [hfailure]
      exact Option.some_ne_none _
    rw [Bool.eq_false_iff]
    intro hset
    -- A flag that is set would come from the second line, or from before the first.
    rcases (hcut.hadError_of_answer hfails ["&".toList] "1".toList rfl hfull).1 hset with
      herror | ⟨hfirst, -⟩
    · exact herror (by decide +kernel)
    · exact List.cons_ne_nil _ _ hfirst

end LoxLex
