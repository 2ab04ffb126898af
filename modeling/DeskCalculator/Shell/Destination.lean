import DeskCalculator.Text.Basic

/-! Where the shell leaves the tree of a line, and whether it can. -/
namespace DeskCalculator
namespace Shell

inductive WriteFault
  | notFound
  | isDirectory
  | nameTooLong
  deriving DecidableEq, Repr

def WriteFault.message : WriteFault → Text
  | .notFound => "No such file or directory (os error 2)".toList
  | .isDirectory => "Is a directory (os error 21)".toList
  | .nameTooLong => "File name too long (os error 36)".toList

inductive Destination
  | none
  | file
  | refused (path : Text) (fault : WriteFault)
  deriving DecidableEq, Repr

def maxNameSize : Nat := 255

/-- The most bytes that a path may have. One more is kept for the mark of its end. -/
def maxPathSize : Nat := 4095

/-- Names that lead to the directory they stand in, or to the one above it. -/
def isDots (name : Text) : Bool := name == ['.'] || name == ['.', '.']

/-- What stands in the way of a file of that name in a directory that exists. -/
def fileFault? (name : Text) : Option WriteFault :=
  if isDots name then some .isDirectory
  else if maxNameSize < name.size then some .nameTooLong
  else none

/-- What stands in the way of a directory of that name where there is none. -/
def directoryFault? (name : Text) : Option WriteFault :=
  if isDots name then none
  else if maxNameSize < name.size then some .nameTooLong
  else some .notFound

def pieces : Text → List Text
  | [] => [[]]
  | c :: cs =>
    if c = '/' then [] :: pieces cs
    else
      match pieces cs with
      | [] => [[c]]
      | n :: ns => (c :: n) :: ns

/-- Names are looked up from the first on. With a slash at the end the last is a directory's. -/
def lookup? (slashAtEnd : Bool) : List Text → Option WriteFault
  | [] => some .isDirectory
  | [n] => if slashAtEnd then some .isDirectory else fileFault? n
  | n :: ns => (directoryFault? n).or (lookup? slashAtEnd ns)

/-- What keeps a file from being written, if it is looked for from a directory that holds
nothing. A path that is too long is not looked up at all. -/
def pathFault? (path : Text) : Option WriteFault :=
  if path = [] then some .notFound
  else if maxPathSize < path.size then some .nameTooLong
  else lookup? (path.getLast? == some '/') ((pieces path).filter (· ≠ []))

theorem fileFault?_eq_none_iff {name : Text} :
    fileFault? name = none ↔ isDots name = false ∧ name.size ≤ maxNameSize := by
  rw [fileFault?]
  split
  · rename_i hdots
    simp [hdots]
  · rename_i hdots
    split
    · rename_i hlong
      simp [Nat.not_le.2 hlong]
    · rename_i hlong
      simp [hdots, Nat.not_lt.1 hlong]

theorem directoryFault?_eq_none_iff {name : Text} :
    directoryFault? name = none ↔ isDots name = true := by
  rw [directoryFault?]
  split
  · rename_i hdots
    exact iff_of_true rfl hdots
  · rename_i hdots
    split <;> simp [hdots]

/-- Where there is nothing, only dots lead on to where a file can be. -/
theorem lookup?_eq_none_iff {slashAtEnd : Bool} {names : List Text} :
    lookup? slashAtEnd names = none ↔ slashAtEnd = false ∧ ∃ dots name, names = dots ++ [name] ∧
      (∀ d ∈ dots, isDots d = true) ∧ fileFault? name = none := by
  induction names with
  | nil => simp [lookup?]
  | cons n ns ih =>
    cases ns with
    | nil =>
      rw [lookup?]
      cases slashAtEnd with
      | true => simp
      | false =>
        constructor
        · intro h
          exact ⟨rfl, [], n, rfl, nofun, h⟩
        · rintro ⟨-, dots, name, hn, -, h⟩
          have hsingle : dots = [] ∧ name = n := by simpa [List.singleton_eq_append_iff] using hn
          exact hsingle.2 ▸ h
    | cons m ms =>
      rw [lookup?.eq_3 slashAtEnd n (m :: ms) nofun, Option.or_eq_none_iff, ih,
        directoryFault?_eq_none_iff]
      constructor
      · rintro ⟨hn, hslash, dots, name, hms, hdots, hname⟩
        exact ⟨hslash, n :: dots, name, by rw [hms]; rfl, List.forall_mem_cons.2 ⟨hn, hdots⟩, hname⟩
      · rintro ⟨hslash, dots, name, hms, hdots, hname⟩
        cases dots with
        | nil => cases hms
        | cons d dots =>
          obtain ⟨rfl, hrest⟩ := List.cons.inj hms
          obtain ⟨hd, hdots⟩ := List.forall_mem_cons.1 hdots
          exact ⟨hd, hslash, dots, name, hrest, hdots, hname⟩

/-- The file that the arguments of the shell name, if any. Two dashes only say that what follows
them is a name. -/
def fileArgument? : List Text → Option Text
  | [] => none
  | a :: rest => if a = ['-', '-'] then rest.head? else some a

namespace Destination

def fromEmptyDirectory : Option Text → Destination
  | .none => .none
  | some path =>
    match pathFault? path with
    | .none => .file
    | some f => .refused path f

/-- Just where a path that is not too long leads by dots alone to a name that is none, and no slash
comes after the name, there is a file to write. -/
theorem fromEmptyDirectory_eq_file_iff {path : Text} : fromEmptyDirectory (some path) = .file ↔
    path.size ≤ maxPathSize ∧ path.getLast? ≠ some '/' ∧
    ∃ dots name, (pieces path).filter (· ≠ []) = dots ++ [name] ∧
      (∀ d ∈ dots, isDots d = true) ∧ isDots name = false ∧ name.size ≤ maxNameSize := by
  have hfile : fromEmptyDirectory (some path) = .file ↔ pathFault? path = .none := by
    rw [fromEmptyDirectory]
    split <;> simp_all
  rw [hfile, pathFault?]
  split
  · rename_i hempty
    simp [hempty, pieces]
  · split
    · rename_i hlong
      simp [Nat.not_le.2 hlong]
    · rename_i hlong
      simp [lookup?_eq_none_iff, fileFault?_eq_none_iff, Nat.not_lt.1 hlong]

def complaint : Destination → Text
  | .none => []
  | .file => []
  | .refused path f =>
    "Failed to write the syntax tree to '".toList ++ path ++ "': ".toList ++ f.message ++ ['\n']

def contents (document : Option Text) : Destination → Option Text
  | .file => document
  | _ => .none

end Destination
end Shell
end DeskCalculator
