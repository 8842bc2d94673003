/-!
# Kinds of values

The kind of a value decides which operations take it; messages call a kind by its name.
-/

namespace MonkeyLang

/-- The kind of a value, or of a signal that stands in the place of one. -/
inductive Kind where
  | integer | boolean | null | string | array | hash | function | builtin
  | quote | macroValue | returnValue | error
deriving DecidableEq, Repr

/-- The name of a kind. -/
def Kind.name : Kind → String
  | integer => "INTEGER"
  | boolean => "BOOLEAN"
  | null => "NULL"
  | string => "STRING"
  | array => "ARRAY"
  | hash => "HASH"
  | function => "FUNCTION"
  | builtin => "BUILTIN"
  | quote => "QUOTE"
  | macroValue => "MACRO"
  | returnValue => "RETURN_VALUE"
  | error => "ERROR"

end MonkeyLang
