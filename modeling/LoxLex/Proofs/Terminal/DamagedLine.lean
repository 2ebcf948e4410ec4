import LoxLex.Proofs.Scan.Search
import LoxLex.Proofs.Terminal.Prompt
import LoxLex.Proofs.Text.Decode

/-! # A line that is no text

At a line that is not UTF-8 the prompt stops: it has asked for the line, and nothing that was read
of it, or stands behind it, has any effect (`prompt_on_damaged_line`). Whether a line is UTF-8 can
be told with or without the return in front of its line feed (`decode?_withoutReturn_eq_none`), so
it does not matter how the line ends. What is left of the lines before it is what
`Dialogue.converse_map_append` leaves. -/

namespace LoxLex

/-! ### The input -/

/-- A line that is not UTF-8, with what comes behind it in an input: nothing, or a line feed and
then anything. -/
structure DamagedLine where
  line : Bytes
  rest : Bytes
  lineFeed_not_mem : 0x0A ∉ line
  encode_ne : ∀ t, Utf8.encode t ≠ line
  head?_rest : ∀ b ∈ rest.head?, b = 0x0A

/-- A damaged line and what comes behind it. -/
def DamagedLine.bytes (d : DamagedLine) : Bytes := d.line ++ d.rest

/-- Lines of text as they stand in an input, each in front of a line feed. -/
def typed (ts : List Text) : Bytes := Utf8.encode (ts.flatMap fun t => t ++ ['\n'])

/-- Lines are typed as the first, its line feed, and the others. -/
theorem typed_cons (t : Text) (ts : List Text) :
    typed (t :: ts) = Utf8.encode t ++ 0x0A :: typed ts := by
  rw [typed, List.flatMap_cons, List.append_assoc, Utf8.encode_append]
  rfl

/-- The lines of an input that begins with lines of text. -/
theorem lines_typed_append {ts : List Text} (h : ∀ t ∈ ts, '\n' ∉ t) (behind : Bytes) :
    lines (typed ts ++ behind) = (ts.map Text.withoutReturn).map Utf8.encode ++ lines behind := by
  induction ts with
  | nil => rfl
  | cons t ts ih =>
    obtain ⟨ht, hts⟩ := List.forall_mem_cons.1 h
    rw [typed_cons, List.append_assoc, List.cons_append,
      lines_append (mt lineFeed_mem_encode_iff.1 ht), ih hts, withoutReturn_encode]
    rfl

/-- A line that is not UTF-8 is none without a return at its end either. -/
theorem decode?_withoutReturn_eq_none {line : Bytes} (h : ∀ t, Utf8.encode t ≠ line) :
    Utf8.decode? (withoutReturn line) = none := by
  rw [Utf8.decode?_eq_none_iff]
  intro t ht
  rcases withoutReturn_cases line with heq | heq
  · exact h t (ht.trans heq)
  · -- With the return behind it the text would be the line.
    refine h (t ++ ['\r']) ?_
    rw [Utf8.encode_append, ht]
    exact heq.symm

/-- The first line of what begins with a damaged line is no text. -/
theorem DamagedLine.exists_lines (d : DamagedLine) :
    ∃ line more, lines d.bytes = line :: more ∧ Utf8.decode? line = none := by
  rw [bytes]
  cases hrest : d.rest with
  | nil =>
    have hne : d.line ≠ [] := fun hnil => d.encode_ne [] hnil.symm
    rw [List.append_nil, lines_of_not_mem d.lineFeed_not_mem, if_neg hne]
    exact ⟨d.line, [], rfl, Utf8.decode?_eq_none_iff.2 d.encode_ne⟩
  | cons b more =>
    obtain rfl : b = 0x0A := d.head?_rest b (by simp [hrest])
    rw [lines_append d.lineFeed_not_mem]
    exact ⟨_, _, rfl, decode?_withoutReturn_eq_none d.encode_ne⟩

/-! ### The dialogue -/

/-- No scan logs that an input has ended. -/
theorem inputClosed_not_mem_log (s : Scan) : .inputClosed ∉ s.log := by
  rw [Scan.mem_log_iff]
  simp [Scan.trace, Step.entries]

/-- **What a damaged line leaves of a dialogue** on `texts`, the lines in front of it. -/
structure BrokenDialogue (console : Console) (texts : List Text) (failure : Option StreamError)
    (d : Dialogue) : Prop where
  failure_eq : failure = some .invalidUtf8
  /-- The output holds the question for each line with its answer, and one more question. -/
  taken : d.terminal.output.taken.toList = Utf8.encode (asked texts)
  /-- The stream of the errors took a line for each error of these lines, in order. -/
  reports : console.stream.Took (Utf8.encode (reportLines (errorsOf texts)))
    d.terminal.console.stream
  /-- The scans of these lines are logged, and not that the input has ended. -/
  log_eq : d.log.toList = logOf texts
  inputClosed_not_mem : .inputClosed ∉ d.log.toList
  /-- The errors are forgotten if there was a line, and what was remembered before as well. -/
  hadError_eq : d.terminal.console.hadError = if texts = [] then console.hadError else false

/-- The prompt stops at a damaged line, whatever the line is. -/
theorem Terminal.prompt_typed_append {limit : Option Nat} {written : List Text}
    (hwritten : ∀ t ∈ written, '\n' ∉ t)
    (hfits : Text.Fits limit (asked (written.map Text.withoutReturn))) (console : Console)
    (d : DamagedLine) :
    prompt { output := { limit }, console } (typed written ++ d.bytes) =
      (some .invalidUtf8,
        ⟨offered limit (asked (written.map Text.withoutReturn))
            (console.answered (written.map Text.withoutReturn)),
          (logOf (written.map Text.withoutReturn)).toArray⟩) := by
  obtain ⟨line, more, hlines, hline⟩ := d.exists_lines
  have hanswers := hfits.of_isPrefix (exchanges_prefix_asked _)
  rw [prompt_eq, lines_typed_append hwritten, hlines, Dialogue.converse_map_append hanswers,
    Dialogue.converse_of_decode?_eq_none hfits hline]

/-- **The prompt on a damaged line.** Let an input begin with lines of text, each in front of its
line feed, and go on with a line that is not UTF-8, and let the output take all that is written.
Then the prompt answers the lines of text, asks once more and fails, and leaves what
`BrokenDialogue` says. It does the same whatever the damaged line is, and whatever is behind it. -/
theorem prompt_on_damaged_line {limit : Option Nat} {written : List Text}
    (hwritten : ∀ t ∈ written, '\n' ∉ t)
    (hfits : Text.Fits limit (asked (written.map Text.withoutReturn))) (console : Console)
    (d : DamagedLine) :
    BrokenDialogue console (written.map Text.withoutReturn)
        (Terminal.prompt { output := { limit }, console } (typed written ++ d.bytes)).1
        (Terminal.prompt { output := { limit }, console } (typed written ++ d.bytes)).2 ∧
      ∀ other : DamagedLine,
        Terminal.prompt { output := { limit }, console } (typed written ++ other.bytes) =
          Terminal.prompt { output := { limit }, console } (typed written ++ d.bytes) := by
  have hprompt := Terminal.prompt_typed_append hwritten hfits console
  constructor
  · rw [hprompt d]
    constructor
    case failure_eq => rfl
    case taken => exact Sink.kept_of_fits hfits
    case reports => exact console.took_reportAll _
    case log_eq => rfl
    case inputClosed_not_mem =>
      intro hmem
      obtain ⟨t, -, ht⟩ := List.mem_flatMap.1 hmem
      exact inputClosed_not_mem_log (scan t) ht
    case hadError_eq => cases written <;> rfl
  · intro other
    rw [hprompt other, hprompt d]

/-- Two lines, of which the first has an error and ends with a return, in front of a character that
is cut short by a line feed. The output just takes what is written, and the stream of the errors
holds a text already. -/
theorem prompt_on_damaged_line_cut_character :
    let written := ["&\r".toList, "1".toList]
    let texts := ["&".toList, "1".toList]
    let d : DamagedLine := ⟨[0xE2, 0x82], [0x0A, 0x31], by decide,
      Utf8.decode?_eq_none_iff.1 (by decide +kernel), fun _ h => (Option.some.inj h).symm⟩
    let other : DamagedLine := ⟨[0x31, 0xFF, 0x0D], [], by decide,
      Utf8.decode?_eq_none_iff.1 (by decide +kernel), nofun⟩
    let console : Console := { stream := { taken := "? ".toUTF8.data }, hadError := true }
    let run :=
      Terminal.prompt { output := { limit := some 39 }, console } (typed written ++ d.bytes)
    Text.Fits (some 39) (asked texts) ∧
      ¬ Text.Fits (some 38) (asked texts) ∧
      BrokenDialogue console texts run.1 run.2 ∧
      run.1 = some .invalidUtf8 ∧
      run.2.terminal.output.taken.toList =
        "> EOF  null\n> NUMBER 1 1.0\nEOF  null\n> ".toUTF8.data.toList ∧
      run.2.terminal.console.stream.taken.toList =
        "? [line 1] Error: Unexpected character '&'.\n".toUTF8.data.toList ∧
      run.2.terminal.console.hadError = false ∧
      Terminal.prompt { output := { limit := some 39 }, console } (typed written ++ other.bytes) =
        run := by
  intro written texts d other console run
  have hwritten : ∀ t ∈ written, '\n' ∉ t := by simp [written]
  have hfits : Text.Fits (some 39) (asked (written.map Text.withoutReturn)) := by decide +kernel
  have hcut : ¬ Text.Fits (some 38) (asked texts) := by decide +kernel
  obtain ⟨hbroken, hother⟩ := prompt_on_damaged_line hwritten hfits console d
  refine ⟨hfits, hcut, hbroken, hbroken.failure_eq, ?_, ?_, hbroken.hadError_eq, hother other⟩
  · exact hbroken.taken.trans (by decide +kernel)
  · exact hbroken.reports.taken_eq.trans (by decide +kernel)

end LoxLex
