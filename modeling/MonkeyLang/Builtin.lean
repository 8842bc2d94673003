import MonkeyLang.Text

/-!
# Names of builtin functions

A builtin function is found under its name where no binding of the program hides it.
-/

namespace MonkeyLang

/-- A function that every program can call. -/
inductive Builtin where
  | len | first | last | rest | push | puts
deriving DecidableEq, Repr

namespace Builtin

/-- The name of a builtin function. -/
def name : Builtin → String
  | len => "len"
  | first => "first"
  | last => "last"
  | rest => "rest"
  | push => "push"
  | puts => "puts"

/-- All builtin functions. -/
def all : List Builtin := [len, first, last, rest, push, puts]

/-- The builtin function of a name. -/
def ofName? (name : Text) : Option Builtin := all.find? (·.name = name)

end Builtin

end MonkeyLang
