import MonkeyLang.Assoc
import MonkeyLang.Binary64
import MonkeyLang.Text

/-!
# JSON values

Integers and numbers with a fraction or an exponent are apart: the first are exact, the second
are floating point numbers. An object keeps its keys in the order of the text.
-/

namespace MonkeyLang

/-- A JSON value. -/
inductive Json where
  | null
  | bool (value : Bool)
  | int (value : Int)
  | real (value : Binary64)
  | str (value : Text)
  | arr (elements : List Json)
  | obj (members : List (Text × Json))
deriving BEq, Repr

namespace Json

instance : Inhabited Json := ⟨null⟩

/-- An object of some members, of which the last with a key gives its value. -/
def ofMembers (members : List (Text × Json)) : Json :=
  obj (Assoc.ofList members)

/-- The value of a key of an object. -/
def get? (key : Text) : Json → Option Json
  | obj members => Assoc.get? key members
  | _ => none

end Json

end MonkeyLang
