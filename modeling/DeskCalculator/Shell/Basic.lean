import DeskCalculator.Expression.Document
import DeskCalculator.Session.Basic
import DeskCalculator.Shell.Destination

/-! The shell asks for a line, answers it and asks again until the input ends. One session
answers all lines, and the tree of each line that has a value replaces the one written before.
-/
namespace DeskCalculator

/-! Standard input as bytes, cut into lines. -/

namespace Shell

def pushByte (b : UInt8) : List (List UInt8) → List (List UInt8)
  | [] => [[b]]
  | l :: ls => (b :: l) :: ls

/-- A line ends at a line feed, and a carriage return just before that belongs to the line end.
The last line may end with the input. -/
def lines : List UInt8 → List (List UInt8)
  | [] => []
  | 13 :: 10 :: bs => [] :: lines bs
  | 10 :: bs => [] :: lines bs
  | b :: bs => pushByte b (lines bs)

def decode? (bytes : List UInt8) : Option Text :=
  (String.fromUTF8? ⟨bytes.toArray⟩).map String.toList

def readLines (input : List UInt8) : List (Option Text) := (lines input).map decode?

def prompt : Text := ">> ".toList

def paragraph (s : Text) : Text := s ++ ['\n', '\n']

def readComplaint : Text :=
  "Failed to read from stdin: stream did not contain valid UTF-8\n".toList

structure Response where
  output : Text
  document : Option Text
  session : Session

def respond (s : Session) (line : Text) : Response :=
  if line.isBlankLine then ⟨[], none, s⟩
  else
    match parse line with
    | .error e => ⟨paragraph e.message, none, s⟩
    | .ok x =>
      let r := s.run x
      match r.result with
      | .error e => ⟨paragraph e.message, none, r.session⟩
      | .ok v =>
        ⟨paragraph (" = ".toList ++ valueText v), some (x.serialize ++ ['\n']), r.session⟩

structure Transcript where
  output : Text
  errors : Text
  exitCode : Nat
  file : Option Text
  deriving DecidableEq, Repr

/-- A line that is no text ends the shell at once. -/
def converse (destination : Destination) (s : Session) : List (Option Text) → Transcript
  | [] => ⟨prompt ++ ['\n'], [], 0, none⟩
  | none :: _ => ⟨prompt, readComplaint, 1, none⟩
  | some line :: rest =>
    let r := respond s line
    let t := converse destination r.session rest
    { output := prompt ++ r.output ++ t.output
      errors := (if r.document.isSome then destination.complaint else []) ++ t.errors
      exitCode := t.exitCode
      file := t.file.or (destination.contents r.document) }

def run (destination : Destination) (input : List UInt8) : Transcript :=
  converse destination Session.new (readLines input)

/-! What goes on between the shell and its user, told without the shell: which lines an input is,
what one session makes of them, and what is left on the streams and in the file. -/

/-- The bytes are these lines with their line ends, each a line feed or a carriage return and a line
feed. What stands after the last line end is a line too, unless nothing stands there. -/
inductive IsLines : List (List UInt8) → List UInt8 → Prop
  | nil : IsLines [] []
  | last {l : List UInt8} : l ≠ [] → 10 ∉ l → IsLines [l] l
  | feed {l bs : List UInt8} {ls : List (List UInt8)} : 10 ∉ l → l.getLast? ≠ some 13 →
      IsLines ls bs → IsLines (l :: ls) (l ++ 10 :: bs)
  | carriage {l bs : List UInt8} {ls : List (List UInt8)} : 10 ∉ l →
      IsLines ls bs → IsLines (l :: ls) (l ++ 13 :: 10 :: bs)

namespace Turn

end Turn

end Shell
end DeskCalculator
