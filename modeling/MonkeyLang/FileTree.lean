import MonkeyLang.Assoc
import MonkeyLang.FilePath
import MonkeyLang.Text.Quoted

/-!
# Files

A tree of files and directories, seen from the directory that relative paths start in, and what
can be wrong with reading a file.
-/

namespace MonkeyLang

/-- Why a file cannot be read. -/
structure FileError where
  code : Nat
  reason : String
deriving DecidableEq, Repr

namespace FileError

def notFound : FileError := ⟨2, "No such file or directory"⟩

def notDirectory : FileError := ⟨20, "Not a directory"⟩

def isDirectory : FileError := ⟨21, "Is a directory"⟩

def nameTooLong : FileError := ⟨36, "File name too long"⟩

/-- The wording of the error for a path. -/
def message (e : FileError) (path : FilePath) : Text :=
  s!"[Errno {e.code}] {e.reason}: " ++ Text.quoted path.text

end FileError

/-- Files and directories by their names from the directory of relative paths on. -/
structure FileTree where
  files : Assoc (List String) (List UInt8)
  directories : List (List String)

namespace FileTree

/-- Is there a directory of this place? Those above a file or a directory are there, too. -/
def hasDirectory (t : FileTree) (place : List String) : Bool :=
  place.isEmpty || t.directories.any place.isPrefixOf ||
    t.files.any fun (file, _) => place.isPrefixOf file && place ≠ file

/-- What stands at a place. -/
def contents (t : FileTree) (place : List String) : Except FileError (List UInt8) :=
  match Assoc.get? place t.files with
  | some bytes => .ok bytes
  | none => .error (if t.hasDirectory place then .isDirectory else .notFound)

/-- The bytes that a name can have at most. -/
def longestName : Nat := 255

/-- The bytes that a path can have at most. -/
def longestPath : Nat := 4095

/-- Follow names from a place, or from somewhere above the tree. -/
def follow (t : FileTree) : Option (List String) → List String → Except FileError (List UInt8)
  | none, [] => .error .isDirectory
  | none, name :: names =>
    if longestName < name.utf8ByteSize then .error .nameTooLong
    else if name = ".." then t.follow none names
    else .error .notFound
  | some place, [] => t.contents place
  | some place, name :: names =>
    if t.hasDirectory place then
      if longestName < name.utf8ByteSize then .error .nameTooLong
      else if name = ".." then
        t.follow (if place.isEmpty then none else some place.dropLast) names
      else t.follow (some (place ++ [name])) names
    else .error (if (Assoc.get? place t.files).isSome then .notDirectory else .notFound)

/-- The bytes of a file. Absolute paths lead out of the tree. -/
def read (t : FileTree) (path : FilePath) : Except FileError (List UInt8) :=
  if longestPath < path.text.utf8ByteSize then .error .nameTooLong
  else t.follow (if path.root.isEmpty then some [] else none) path.names

end FileTree

end MonkeyLang
