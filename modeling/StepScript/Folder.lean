/-! Files in a working directory.

A path is walked part by part from the working directory, or from the root if it
begins with a slash. Of everything outside the working directory only the
directories above it are known, and those hold nothing that can be named.
-/

set_option autoImplicit false

namespace StepScript

inductive FileError where
  | missing
  | directory
  | notADirectory
  | nameTooLong
  | other (reason : String)
  deriving Repr, DecidableEq

def FileError.reason : FileError → String
  | missing => "No such file or directory (os error 2)"
  | directory => "Is a directory (os error 21)"
  | notADirectory => "Not a directory (os error 20)"
  | nameTooLong => "File name too long (os error 36)"
  | other reason => reason

abbrev File := Except FileError (List UInt8)

/-- The files below a directory, each under the names that lead to it. -/
structure Folder where
  files : List (List String × List UInt8)
  deriving Repr, DecidableEq

namespace Folder

def longestName : Nat := 255

def pathLimit : Nat := 4096

/-- Whether a part of a path leads nowhere: what stands between two slashes, or a
single dot. -/
def isIdle (part : String) : Bool :=
  part == "" || part == "."

def parts (path : String) : List String :=
  path.splitOn "/"

def ofFiles (files : List (String × List UInt8)) : Folder :=
  ⟨files.map fun (path, bytes) => ((parts path).filter (!isIdle ·), bytes)⟩

inductive Place where
  /-- At a directory above or beside the working directory. -/
  | outside
  /-- At the directory that `names` lead to from the working directory. -/
  | inside (names : List String)
  /-- At a file. -/
  | file (bytes : List UInt8)
  deriving Repr, DecidableEq

def find (folder : Folder) (names : List String) : Except FileError Place :=
  match folder.files.find? (·.1 == names) with
  | some (_, bytes) => .ok (.file bytes)
  | none =>
    if folder.files.any (names.isPrefixOf ·.1) then .ok (.inside names) else .error .missing

/-- One step of a walk. Nothing lies below a file, not even the file itself, and
the length of a name counts before its absence does. -/
def step (folder : Folder) (place : Place) (part : String) : Except FileError Place :=
  match place with
  | .file _ => .error .notADirectory
  | .outside =>
    if isIdle part || part == ".." then .ok .outside
    else if longestName < part.utf8ByteSize then .error .nameTooLong
    else .error .missing
  | .inside names =>
    if isIdle part then .ok place
    else if part == ".." then
      .ok (if names.isEmpty then .outside else .inside names.dropLast)
    else if longestName < part.utf8ByteSize then .error .nameTooLong
    else folder.find (names ++ [part])

def walk (folder : Folder) (place : Place) (parts : List String) : Except FileError Place :=
  parts.foldlM folder.step place

def start (path : String) : Place :=
  if path.startsWith "/" then .outside else .inside []

def read (folder : Folder) (path : String) : File :=
  if path.isEmpty then .error .missing
  else if pathLimit ≤ path.utf8ByteSize then .error .nameTooLong
  else match folder.walk (start path) (parts path) with
    | .ok (.file bytes) => .ok bytes
    | .ok _ => .error .directory
    | .error e => .error e

end Folder

end StepScript
