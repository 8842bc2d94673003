/-!
# Paths of files

A path is a root and the names behind it. Doubled separators and names that are a single dot do
not count; names of two dots are kept, since they may cross a link.
-/

namespace MonkeyLang

/-- A path. The root is empty for a relative one. -/
structure FilePath where
  root : String
  names : List String
deriving DecidableEq, Repr

namespace FilePath

/-- The root of a path: exactly two separators in front are different from one. -/
def rootOf : List Char → String
  | '/' :: '/' :: '/' :: _ => "/"
  | '/' :: '/' :: _ => "//"
  | '/' :: _ => "/"
  | _ => ""

/-- The path that a text denotes. -/
def ofString (text : String) : FilePath :=
  ⟨rootOf text.toList, (text.splitOn "/").filter fun name => name ≠ "" ∧ name ≠ "."⟩

/-- The text of a path. The empty path is a dot. -/
def text (p : FilePath) : String :=
  if p.root.isEmpty ∧ p.names.isEmpty then "." else p.root ++ "/".intercalate p.names

/-- Can there be such a path? No name holds the character zero. -/
def isPossible (p : FilePath) : Bool := p.names.all fun name => !name.contains '\u0000'

end FilePath

end MonkeyLang
