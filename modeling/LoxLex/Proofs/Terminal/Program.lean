import LoxLex.Program
import LoxLex.Proofs.Terminal.Prompt
import LoxLex.Proofs.Text.Decode

/-! # Exit codes

How a run of the program ends is told by its arguments, by the script that they name, and by the
lines of its input: lexical errors count for a script, damaged UTF-8 counts at the prompt, and
neither counts for the other. What is left on the standard output goes with it: the whole listing of
a script whether it has errors or not, and at the prompt all that was written up to a line that is
no text. `program_answers` puts these together. -/

namespace LoxLex

variable {fs : Files} {args : List Text} {stdin : Bytes}

/-! ### Scripts -/

/-- A script that cannot be read ends the program, and nothing is printed. -/
theorem program_of_unreadable {path : Text} {e : SourceError}
    (hargs : Invocation.ofArgs args = .script path) (hread : fs.read path = .error e) :
    program fs.source args stdin = ⟨.failure, #[], #[]⟩ := by
  have hsource : fs.source path = .error e := by rw [Files.source, hread]; rfl
  rw [program, hargs]
  simp only [Console.script, hsource]
  rfl

/-- A script that can be read is listed, and its lexical errors tell the exit. -/
theorem program_of_script {path : Text} {bytes : Bytes}
    (hargs : Invocation.ofArgs args = .script path) (hread : fs.read path = .ok bytes) :
    (program fs.source args stdin).exit =
        (if (scan (Utf8.decodeReplacing bytes)).errors = [] then .success else .badSource) ∧
      (program fs.source args stdin).stdout.toList =
        Utf8.encode (listed (scan (Utf8.decodeReplacing bytes)).tokens) := by
  have hsource : fs.source path = .ok (Utf8.decodeReplacing bytes) := by
    rw [Files.source, hread]
    rfl
  rw [program, hargs]
  simp only [Console.script, hsource, Terminal.present_fresh]
  constructor
  · show Console.exit _ = _
    rw [Terminal.offered, Console.exit, Console.hadError_reportAll]
    simp
  · rfl

/-! ### The prompt -/

/-- Lines are texts, up to the first that is none. -/
theorem exists_texts (ls : List Bytes) :
    ∃ (ts : List Text) (rest : List Bytes), ls = ts.map Utf8.encode ++ rest ∧
      ∀ line ∈ rest.head?, Utf8.decode? line = none := by
  induction ls with
  | nil => exact ⟨[], [], rfl, by simp⟩
  | cons line ls ih =>
    cases hline : Utf8.decode? line with
    -- The first line that is no text ends the texts, whatever follows it.
    | none => exact ⟨[], line :: ls, rfl, by simpa using hline⟩
    | some t =>
      obtain ⟨ts, rest, hls, hrest⟩ := ih
      refine ⟨t :: ts, rest, ?_, hrest⟩
      rw [List.map_cons, List.cons_append, Utf8.decode?_eq_some_iff.1 hline, hls]

/-- What keeps to no limit fits. -/
theorem Text.fits_none (t : Text) : Text.Fits none t := fun _ h => nomatch h

/-- All lines of the input are texts: the program answers them, whatever their errors. -/
theorem program_of_prompt {ts : List Text} (hargs : Invocation.ofArgs args = .prompt)
    (hlines : lines stdin = ts.map Utf8.encode) :
    (program fs.source args stdin).exit = .success ∧
      (program fs.source args stdin).stdout.toList = Utf8.encode (transcript ts) := by
  have hprompt := Terminal.prompt_eq none {} stdin
  rw [hlines, ← List.append_nil (ts.map _),
    Dialogue.converse_map_append (Text.fits_none _), Dialogue.converse_nil (Text.fits_none _),
    if_pos (Text.fits_none _)] at hprompt
  rw [program, hargs]
  simp only [hprompt]
  exact ⟨rfl, rfl⟩

/-- A line of the input is no text: the program answers those before it and fails. -/
theorem program_of_damaged_line {ts : List Text} {line : Bytes} {rest : List Bytes}
    (hargs : Invocation.ofArgs args = .prompt)
    (hlines : lines stdin = ts.map Utf8.encode ++ line :: rest)
    (hline : Utf8.decode? line = none) :
    (program fs.source args stdin).exit = .failure ∧
      (program fs.source args stdin).stdout.toList = Utf8.encode (asked ts) := by
  have hprompt := Terminal.prompt_eq none {} stdin
  rw [hlines, Dialogue.converse_map_append (Text.fits_none _),
    Dialogue.converse_of_decode?_eq_none (Text.fits_none _) hline] at hprompt
  rw [program, hargs]
  simp only [hprompt]
  exact ⟨rfl, rfl⟩

/-- At the prompt the program fails if a line of the input is no text, and succeeds otherwise. -/
theorem exit_of_prompt (hargs : Invocation.ofArgs args = .prompt) :
    (program fs.source args stdin).exit = .failure ∧
        (∃ line ∈ lines stdin, ∀ t, Utf8.encode t ≠ line) ∨
      (program fs.source args stdin).exit = .success ∧
        ¬ ∃ line ∈ lines stdin, ∀ t, Utf8.encode t ≠ line := by
  obtain ⟨ts, rest, hlines, hrest⟩ := exists_texts (lines stdin)
  cases rest with
  | nil =>
    -- No line is left that is no text, so each is the form of one.
    rw [List.append_nil] at hlines
    refine .inr ⟨(program_of_prompt hargs hlines).1, ?_⟩
    rintro ⟨line, hmem, hline⟩
    rw [hlines, List.mem_map] at hmem
    obtain ⟨t, -, ht⟩ := hmem
    exact hline t ht
  | cons line rest =>
    have hline : Utf8.decode? line = none := hrest line rfl
    refine .inl ⟨(program_of_damaged_line hargs hlines hline).1, line, ?_,
      Utf8.decode?_eq_none_iff.1 hline⟩
    rw [hlines]
    simp

/-! ### The program -/

/-- **What the program answers** to its arguments, its standard input and the files. -/
structure Outcome.Answers (fs : Files) (args : List Text) (stdin : Bytes) (o : Outcome) : Prop where
  /-- The code is 65 for a script that can be read and has a lexical error. -/
  badSource_iff : o.exit.code = 65 ↔ ∃ path bytes, Invocation.ofArgs args = .script path ∧
    fs.read path = .ok bytes ∧ (scan (Utf8.decodeReplacing bytes)).errors ≠ []
  /-- The code is 64 for arguments that make no sense. -/
  badUsage_iff : o.exit.code = 64 ↔ Invocation.ofArgs args = .badUsage
  /-- The code is 1 for a script that cannot be read, and for a line of the prompt that is no
  text. -/
  failure_iff : o.exit.code = 1 ↔
    (∃ path e, Invocation.ofArgs args = .script path ∧ fs.read path = .error e) ∨
      Invocation.ofArgs args = .prompt ∧ ∃ line ∈ lines stdin, ∀ t, Utf8.encode t ≠ line
  /-- The code is 0 otherwise. -/
  success_iff : o.exit.code = 0 ↔ o.exit.code ≠ 65 ∧ o.exit.code ≠ 64 ∧ o.exit.code ≠ 1
  /-- Arguments that make no sense print nothing. -/
  stdout_of_badUsage : Invocation.ofArgs args = .badUsage → o.stdout = #[]
  /-- A script that cannot be read prints nothing. -/
  stdout_of_unreadable : ∀ path e, Invocation.ofArgs args = .script path →
    fs.read path = .error e → o.stdout = #[]
  /-- A script that can be read is listed as a whole. -/
  stdout_of_script : ∀ path bytes, Invocation.ofArgs args = .script path →
    fs.read path = .ok bytes →
      o.stdout.toList = Utf8.encode (listed (scan (Utf8.decodeReplacing bytes)).tokens)
  /-- The prompt answers all lines if they are texts. -/
  stdout_of_prompt : ∀ ts, Invocation.ofArgs args = .prompt → lines stdin = ts.map Utf8.encode →
    o.stdout.toList = Utf8.encode (transcript ts)
  /-- The prompt answers the lines before the first that is no text. -/
  stdout_of_damaged_line : ∀ ts line rest, Invocation.ofArgs args = .prompt →
    lines stdin = ts.map Utf8.encode ++ line :: rest → (∀ t, Utf8.encode t ≠ line) →
      o.stdout.toList = Utf8.encode (asked ts)

/-- How the program exits, one case after the other. -/
theorem exit_program (fs : Files) (args : List Text) (stdin : Bytes) :
    ((program fs.source args stdin).exit = .badSource ↔
        ∃ path bytes, Invocation.ofArgs args = .script path ∧
          fs.read path = .ok bytes ∧ (scan (Utf8.decodeReplacing bytes)).errors ≠ []) ∧
      ((program fs.source args stdin).exit = .badUsage ↔ Invocation.ofArgs args = .badUsage) ∧
      ((program fs.source args stdin).exit = .failure ↔
        (∃ path e, Invocation.ofArgs args = .script path ∧ fs.read path = .error e) ∨
          Invocation.ofArgs args = .prompt ∧ ∃ line ∈ lines stdin, ∀ t, Utf8.encode t ≠ line) := by
  cases hargs : Invocation.ofArgs args with
  | help | version =>
    have hexit : (program fs.source args stdin).exit = .success := by rw [program, hargs]; rfl
    simp [hexit]
  | badUsage =>
    have hexit : (program fs.source args stdin).exit = .badUsage := by rw [program, hargs]
    simp [hexit]
  | script path =>
    cases hread : fs.read path with
    | error e => simp [program_of_unreadable hargs hread, hread]
    | ok bytes =>
      have hexit : (program fs.source args stdin).exit =
          if (scan (Utf8.decodeReplacing bytes)).errors = [] then .success else .badSource :=
        (program_of_script hargs hread).1
      -- Only here do lexical errors count.
      by_cases herrors : (scan (Utf8.decodeReplacing bytes)).errors = []
      · rw [if_pos herrors] at hexit
        simp [hexit, hread, herrors]
      · rw [if_neg herrors] at hexit
        simp [hexit, hread, herrors]
  | prompt =>
    have hprompt : (program fs.source args stdin).exit = .failure ∧
          (∃ line ∈ lines stdin, ∀ t, Utf8.encode t ≠ line) ∨
        (program fs.source args stdin).exit = .success ∧
          ¬ ∃ line ∈ lines stdin, ∀ t, Utf8.encode t ≠ line := exit_of_prompt hargs
    rcases hprompt with ⟨hexit, hline⟩ | ⟨hexit, hline⟩
    · simpa [hexit] using hline
    · simpa [hexit] using hline

/-- No two exits have one number. -/
theorem Exit.code_injective : Function.Injective code := by
  intro x y h
  cases x <;> cases y <;> first | rfl | contradiction

/-- **Exit codes.** The program answers all arguments, inputs and files as `Outcome.Answers`
says. -/
theorem program_answers (fs : Files) (args : List Text) (stdin : Bytes) :
    (program fs.source args stdin).Answers fs args stdin := by
  obtain ⟨hsource, husage, hfailure⟩ := exit_program fs args stdin
  refine ⟨?_, ?_, ?_, ?_, ?_, ?_, ?_, ?_, ?_⟩
  · exact (Exit.code_injective.eq_iff' rfl).trans hsource
  · exact (Exit.code_injective.eq_iff' rfl).trans husage
  · exact (Exit.code_injective.eq_iff' rfl).trans hfailure
  · cases (program fs.source args stdin).exit <;> decide
  · intro hargs
    rw [program, hargs]
  · intro path e hargs hread
    rw [program_of_unreadable hargs hread]
  · intro path bytes hargs hread
    exact (program_of_script hargs hread).2
  · intro ts hargs hlines
    exact (program_of_prompt hargs hlines).2
  · intro ts line rest hargs hlines hline
    exact (program_of_damaged_line hargs hlines (Utf8.decode?_eq_none_iff.2 hline)).2

example :
    let o := program (fun _ => .ok "1\n\"".toList) ["a.lox".toList] []
    o.exit.code = 65 ∧ o.stdout.toList = "NUMBER 1 1.0\nEOF  null\n".toUTF8.data.toList ∧
      o.stderr.toList = "[line 2] Error: Unterminated string.\n".toUTF8.data.toList := by
  decide +kernel

end LoxLex
