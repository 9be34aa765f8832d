import SubstLisp.CommandLine.Command

/-!
# The program

Runs a command on the system: fetches the bytes of a file or of the standard input, prints the
report and, in a session, answers each line as it comes.
-/

namespace SubstLisp.CommandLine

/-- What the system says of a file that cannot be read. -/
def sourceFault : IO.Error → SourceFault
  | .noFileOrDirectory .. => .missing
  | .inappropriateType .. => .directory
  | error => .stated (toString error)

/-- The bytes of a file. -/
def fetchFile (path : String) : IO (Except SourceFault ByteArray) := do
  try
    return .ok (← IO.FS.readBinFile path)
  catch error =>
    return .error (sourceFault error)

/-- The bytes of the standard input up to its end. -/
partial def fetchInput (input : IO.FS.Stream) (bytes : ByteArray) : IO ByteArray := do
  let more ← input.read 65536
  if more.isEmpty then return bytes else fetchInput input (bytes ++ more)

/-- Prints what a session has printed since the last time. -/
def showSession (session : Session) : IO Session := do
  let output ← IO.getStdout
  output.putStr session.transcript.text
  output.flush
  return session.withTranscript #[]

/-- Answers lines until the session is closed; `pending` are the bytes of a line that has not ended
yet. -/
partial def converse (input : IO.FS.Stream) (pending : ByteArray) (session : Session) :
    IO Unit := do
  let session ← showSession session
  if session.isOpen then
    let more ← input.read 65536
    if more.isEmpty then
      let rest := (Session.splitLines pending.toList).map Session.decodeLine
      let _ ← showSession (rest.foldl (Session.step Program.ampleFuel) session).close
    else
      let bytes := (pending ++ more).toList
      let last := bytes.reverse.takeWhile (· != 10)
      let whole := bytes.take (bytes.length - last.length)
      let lines := (Session.splitLines whole).map Session.decodeLine
      converse input ⟨last.reverse.toArray⟩ (lines.foldl (Session.step Program.ampleFuel) session)

/-- Prints a report; its exit code is that of the program. -/
def finish (report : Report) : IO UInt32 := do
  (← IO.getStdout).putStr report.output
  (← IO.getStdout).flush
  (← IO.getStderr).putStr report.complaints
  return report.code.toUInt32

end SubstLisp.CommandLine

open SubstLisp CommandLine

/-- Runs the command of the given arguments. -/
def main (arguments : List String) : IO UInt32 := do
  match request arguments with
  | .ok (.run options) =>
    match options.file? with
    | none =>
      converse (← IO.getStdin) .empty (Session.start options)
      return 0
    | some path =>
      let bytes ← if path = standardInput then .ok <$> fetchInput (← IO.getStdin) .empty
        else fetchFile path
      finish (Script.runBytes Program.ampleFuel options path bytes)
  | _ => finish (execute Program.ampleFuel arguments (fun _ => .error .missing) .empty)
