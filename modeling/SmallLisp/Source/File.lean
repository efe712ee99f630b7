set_option autoImplicit false

/-! # Source files

Files are handled as values: a `Folder` holds the contents of the files in a working directory,
and reading from it finds the text or says why there is none. A path is followed step by step.
Beyond the working directory there are directories, reached by `..` or from the root, and no
files.
-/

namespace SmallLisp

/-- Why a file cannot be read as source text. -/
inductive FileError
  | missing
  | isDirectory
  | notDirectory
  /-- The path, or one step of it, is longer than paths and steps may be. -/
  | nameTooLong
  /-- The path has a character that no path can have. -/
  | notPath
  /-- The contents are not valid UTF-8. -/
  | notText
deriving DecidableEq, Repr

/-- The wording of a file error. -/
def FileError.message : FileError → String
  | .missing => "No such file or directory (os error 2)"
  | .isDirectory => "Is a directory (os error 21)"
  | .notDirectory => "Not a directory (os error 20)"
  | .nameTooLong => "File name too long (os error 36)"
  | .notPath => "file name contained an unexpected NUL byte"
  | .notText => "stream did not contain valid UTF-8"

/-- A file and its contents. -/
structure File where
  name : String
  contents : ByteArray

/-- **A working directory**, without directories inside. Its files were written in the order of
the list, so a later one replaces an earlier one of the same name. -/
structure Folder where
  files : List File

namespace Folder

/-- The most bytes that a path may have. -/
def longestPath : Nat := 4095

/-- The most bytes that one step of a path may have. -/
def longestStep : Nat := 255

/-- Where a path leads. -/
inductive Place
  /-- The working directory. -/
  | here
  /-- A directory other than the working directory. -/
  | elsewhere
  | file (f : File)

/-- The file of a name. -/
def find? (folder : Folder) (name : String) : Option File :=
  folder.files.reverse.find? (·.name == name)

/-- **Follows the steps of a path.** An empty step and `.` stay where they are, but no step at
all, not even these, leads on from a file. -/
def follow (folder : Folder) : Place → List String → Except FileError Place
  | place, [] => .ok place
  | .file _, _ :: _ => .error .notDirectory
  | place, step :: rest =>
      if step = "" ∨ step = "." then folder.follow place rest
      else if step = ".." then folder.follow .elsewhere rest
      else if longestStep < step.utf8ByteSize then .error .nameTooLong
      else
        match place with
        | .here =>
            match folder.find? step with
            | some f => folder.follow (.file f) rest
            | none => .error .missing
        | _ => .error .missing

/-- The place where the steps of a path begin: the root if the path begins with a slash, and
else the working directory. -/
def origin (path : String) : Place := if path.startsWith "/" then .elsewhere else .here

/-- Where a path leads, or why it leads nowhere. -/
def locate (folder : Folder) (path : String) : Except FileError Place :=
  if path.isEmpty then .error .missing
  else if path.contains '\x00' then .error .notPath
  else if longestPath < path.utf8ByteSize then .error .nameTooLong
  else folder.follow (origin path) (path.splitOn "/")

/-- **Reads a file** as source text. -/
def read (folder : Folder) (path : String) : Except FileError String := do
  match ← folder.locate path with
  | .file f =>
      match String.fromUTF8? f.contents with
      | some text => .ok text
      | none => .error .notText
  | _ => .error .isDirectory

end Folder

end SmallLisp
