import DeskCalculator.Shell.Basic

/-! The command line: the shell on standard input and output, with an optional file for the
trees. -/
namespace DeskCalculator
namespace Shell

/-- The bytes of the next line, line end and all; none of them at the end of the input. -/
partial def nextLine (input : IO.FS.Stream) (line : ByteArray) : IO ByteArray := do
  let more ← input.read 1
  let line := line ++ more
  if more.isEmpty || more.data.contains 10 then return line
  nextLine input line

def systemMessage : IO.Error → String
  | .noFileOrDirectory _ code details => s!"{details} (os error {code})"
  | .inappropriateType _ code details => s!"{details} (os error {code})"
  | .permissionDenied _ code details => s!"{details} (os error {code})"
  | .invalidArgument _ code details => s!"{details} (os error {code})"
  | .resourceExhausted _ code details => s!"{details} (os error {code})"
  | e => toString e

def save (path : String) (document : Text) : IO Unit := do
  try IO.FS.writeFile path (String.ofList document)
  catch e =>
    IO.eprintln s!"Failed to write the syntax tree to '{path}': {systemMessage e}"

partial def loop (path : Option String) (s : Session) : IO UInt32 := do
  let output ← IO.getStdout
  output.putStr (String.ofList prompt)
  output.flush
  let bytes ← nextLine (← IO.getStdin) .empty
  match readLines bytes.toList with
  | [] =>
    output.putStr "\n"
    return 0
  | none :: _ =>
    (← IO.getStderr).putStr (String.ofList readComplaint)
    return 1
  | some line :: _ =>
    let r := respond s line
    output.putStr (String.ofList r.output)
    match path, r.document with
    | some p, some d => save p d
    | _, _ => pure ()
    loop path r.session

end Shell
end DeskCalculator

def main (arguments : List String) : IO UInt32 :=
  let path := DeskCalculator.Shell.fileArgument? (arguments.map String.toList)
  DeskCalculator.Shell.loop (path.map String.ofList) DeskCalculator.Session.new
