namespace Abacus

/-!
# Reading scripts from a directory

* `Directory` — the files and empty directories of a working directory.
* `Directory.read` — the text of the file that a path leads to, or why there is none.
-/

/-- What a name in a directory stands for. -/
inductive Entry where
  | file (bytes : ByteArray)
  /-- A directory with nothing in it. -/
  | directory

/-- A working directory. -/
structure Directory where
  entries : List (String × Entry)

/-- Why a path leads to no text. -/
inductive ReadError where
  | notFound
  | notADirectory
  | isADirectory
  | invalidText
  deriving DecidableEq

/-- The wording of a reason. -/
def ReadError.reason : ReadError → String
  | notFound => "No such file or directory (os error 2)"
  | notADirectory => "Not a directory (os error 20)"
  | isADirectory => "Is a directory (os error 21)"
  | invalidText => "stream did not contain valid UTF-8"

/-- Where the beginning of a path leads. -/
inductive Place where
  /-- Some directory above the working directory. -/
  | above
  /-- The working directory. -/
  | here
  /-- An empty directory in the working directory. -/
  | inside
  /-- A file. -/
  | file (bytes : ByteArray)

namespace Directory

/-- The place that a name stands for in the working directory. -/
def find? (d : Directory) (name : String) : Option Place :=
  (d.entries.lookup name).map fun
    | .file bytes => .file bytes
    | .directory => .inside

/-- Goes one component of a path further. -/
def follow (d : Directory) : Place → (component : String) → Except ReadError Place
  | .file _, _ => .error .notADirectory
  | place, "" => .ok place
  | place, "." => .ok place
  | .inside, ".." => .ok .here
  | _, ".." => .ok .above
  | .here, name =>
    match d.find? name with
    | some place => .ok place
    | none => .error .notFound
  | _, _ => .error .notFound

/-- Follows a path; one that begins with a slash begins above the working directory. -/
def locate (d : Directory) (path : String) : Except ReadError Place :=
  if path.isEmpty then .error .notFound
  else (path.splitOn "/").foldlM d.follow (if path.startsWith "/" then .above else .here)

/-- The text of the file that a path leads to. -/
def read (d : Directory) (path : String) : Except ReadError String := do
  match ← d.locate path with
  | .file bytes =>
    match String.fromUTF8? bytes with
    | some text => return text
    | none => throw .invalidText
  | _ => throw .isADirectory

end Directory

end Abacus
