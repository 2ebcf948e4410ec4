import LoxLex.Program

/-! # The command line program

The input and output around `program`. The prompt is run here turn by turn, so that each answer is
seen before the next line is typed; its turns are those of `Dialogue.converse`. -/

namespace LoxLex

/-- Writes bytes to a stream at once. -/
def writeOut (stream : IO.FS.Stream) (bytes : Array UInt8) : IO Unit := do
  stream.write ⟨bytes⟩
  stream.flush

/-- Writes out what the sinks of a dialogue took, and gives the dialogue with empty sinks. -/
def Dialogue.drain (d : Dialogue) : IO Dialogue := do
  writeOut (← IO.getStderr) d.terminal.console.stream.taken
  writeOut (← IO.getStdout) d.terminal.output.taken
  return { terminal := { console := { hadError := d.terminal.console.hadError } } }

/-- The bytes of the input up to and with the next line feed, put after those already read. -/
partial def readThroughLineFeed (stream : IO.FS.Stream) (done : Bytes) : IO Bytes := do
  let more := (← stream.read 1).toList
  if more.isEmpty ∨ more = [0x0A] then return (more ++ done).reverse
  readThroughLineFeed stream (more ++ done)

/-- Runs the prompt on the standard streams. -/
partial def Dialogue.interact (d : Dialogue) : IO Exit := do
  let d ← d.ask.2.drain
  match lines (← readThroughLineFeed (← IO.getStdin) []) with
  | [] =>
    let _ ← d.close.2.drain
    return .success
  | line :: _ =>
    let (failure, d) := d.answer line
    let d ← d.drain
    match failure with
    | none => d.interact
    | some e =>
      IO.eprintln (String.ofList e.message)
      return .failure

/-- The source in the file at a path. -/
def readSource (path : Text) : IO (Except SourceError Text) := do
  try
    let bytes ← IO.FS.readBinFile (String.ofList path)
    return .ok (Utf8.decodeReplacing bytes.toList)
  catch
    | .noFileOrDirectory .. => return .error (.missing path)
    | e => throw e

/-- Runs the program on the standard streams. -/
def run (args : List Text) : IO Exit := do
  match Invocation.ofArgs args with
  | .prompt => Dialogue.interact {}
  | .script path =>
    let source ← readSource path
    if let .error e := source then IO.eprintln (String.ofList e.message)
    let outcome := program (fun _ => source) args []
    writeOut (← IO.getStderr) outcome.stderr
    writeOut (← IO.getStdout) outcome.stdout
    return outcome.exit
  | _ =>
    let outcome := program (fun path => .error (.missing path)) args []
    if outcome.exit = .badUsage then IO.eprintln (String.ofList helpText)
    writeOut (← IO.getStdout) outcome.stdout
    return outcome.exit

end LoxLex

/-- The entry point. -/
def main (args : List String) : IO UInt32 := do
  let exit ← LoxLex.run (args.map String.toList)
  return UInt32.ofNat exit.code
