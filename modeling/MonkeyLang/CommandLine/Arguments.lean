import MonkeyLang.Text.Digit
import MonkeyLang.Text.Quoted

/-!
# Arguments of the command line

The command takes one file at most and three options, of which `--prelude` has a value. Long
options may be shortened as long as only one fits, and have their value behind `=` or in the next
argument. Behind `--` no argument is an option.

* `Word.classify` tells what an argument is by itself.
* `Invocation.ofArguments` is what all arguments ask for.
-/

namespace MonkeyLang

namespace CommandLine

/-- An option of the command. -/
inductive Flag where
  | help | prelude | version
deriving DecidableEq, Repr

namespace Flag

/-- The spellings of the options. -/
def spellings : List (String × Flag) :=
  [("-h", help), ("--help", help), ("--prelude", prelude), ("--version", version)]

/-- The name of an option in messages. -/
def name : Flag → String
  | help => "-h/--help"
  | prelude => "--prelude"
  | version => "--version"

end Flag

/-- What is wrong with the arguments. -/
inductive UsageError where
  | ambiguous (argument : String) (spellings : List String)
  | valueExpected (flag : Flag)
  | valueIgnored (flag : Flag) (value : String)
  | unrecognized (arguments : List String)
deriving DecidableEq, Repr

/-- The wording of what is wrong. -/
def UsageError.message : UsageError → Text
  | ambiguous argument spellings =>
    "ambiguous option: " ++ argument ++ " could match " ++ ", ".intercalate spellings
  | valueExpected flag => s!"argument {flag.name}: expected one argument"
  | valueIgnored flag value =>
    s!"argument {flag.name}: ignored explicit argument " ++ Text.quoted value
  | unrecognized arguments => "unrecognized arguments: " ++ " ".intercalate arguments

/-- An argument by itself. -/
inductive Word where
  | plain (text : String)
  /-- A long option, with the value behind `=` if there is one. -/
  | long (flag : Flag) (value? : Option String)
  /-- The letter `-h` with what stands behind it in the same argument. -/
  | letters (rest : String)
  /-- An option that there is not. -/
  | unknown (text : String)
  /-- The argument `--`. -/
  | separator
deriving DecidableEq, Repr

namespace Word

/-- What stands before the first `=` of an argument, and what stands behind it. -/
def splitValue (argument : List Char) : String × Option String :=
  let name := argument.takeWhile (· ≠ '=')
  (String.ofList name,
    if name.length < argument.length then some (String.ofList (argument.drop (name.length + 1)))
    else none)

/-- Does an argument look like a negative number? -/
def isNegativeNumber : List Char → Bool
  | '-' :: r =>
    let isDigit (c : Char) := (Text.digit? c).isSome
    let behind := r.dropWhile isDigit
    match behind with
    | [] | ['\n'] => r.head?.any isDigit
    | '.' :: part =>
      let left := part.dropWhile isDigit
      part.head?.any isDigit && (left.isEmpty || left = ['\n'])
    | _ => false
  | _ => false

/-- An argument that starts with a dash but is no option. -/
def other (text : String) : Word :=
  if isNegativeNumber text.toList || text.toList.contains ' ' then plain text else unknown text

/-- What an argument is by itself. -/
def classify (text : String) : Except UsageError Word :=
  let (name, value?) := splitValue text.toList
  match text.toList with
  | '-' :: '-' :: _ =>
    match Flag.spellings.lookup name with
    | some flag => .ok (long flag value?)
    | none =>
      match Flag.spellings.filter fun (spelling, _) => name.toList.isPrefixOf spelling.toList with
      | [] => .ok (other text)
      | [(_, flag)] => .ok (long flag value?)
      | matching => .error (.ambiguous text (matching.map (·.1)))
  | '-' :: 'h' :: rest => .ok (letters (String.ofList rest))
  | ['-'] => .ok (plain text)
  | '-' :: _ => .ok (other text)
  | _ => .ok (plain text)

/-- What the arguments are, each by itself. -/
def classifyAll : List String → Except UsageError (List Word)
  | [] => .ok []
  | text :: texts =>
    if text = "--" then .ok (separator :: texts.map plain)
    else do
      let word ← classify text
      let words ← classifyAll texts
      return word :: words

/-- The argument as it was given. Only those that can be left over keep their text. -/
def text : Word → String
  | plain text | unknown text => text
  | separator => "--"
  | long flag _ => flag.name
  | letters rest => "-h" ++ rest

/-- What is left of letters of which each `h` asks for help. -/
def leftover? (behind : List Char) : Option String :=
  match behind.dropWhile (· = 'h') with
  | [] => none
  | left => some (String.ofList left)

/-- What is left of the text behind `-h` in its argument. The letters may stand behind an `=`;
with nothing behind it, the `=` has an empty value. -/
def unused? : List Char → Option String
  | ['='] => some ""
  | '=' :: behind => leftover? behind
  | behind => leftover? behind

end Word

/-- What the arguments ask for. -/
inductive Invocation where
  | help
  | version
  | run (prelude? file? : Option String)
deriving DecidableEq, Repr

namespace Invocation

/-- The arguments read so far. -/
structure Progress where
  prelude? : Option String := none
  file? : Option String := none
  /-- Arguments that have no place, the latest first. -/
  extra : List String := []

/-- The value of the prelude, in the place of an earlier one. The value `--` is that of an absent
option. -/
def Progress.setPrelude (p : Progress) (value : String) : Progress :=
  { p with prelude? := if value = "--" then none else some value }

/-- The file if there is none yet, or else an argument without a place. -/
def Progress.addPlain (p : Progress) (text : String) : Progress :=
  if p.file?.isNone then { p with file? := some text } else { p with extra := text :: p.extra }

/-- The plain arguments behind the last option, among which may be the separator. It belongs to
the file next to it; without a file it is an argument without a place. -/
def Progress.addLast (p : Progress) : List Word → Progress
  | [] => p
  | [.separator] => if p.file?.isNone then p else { p with extra := "--" :: p.extra }
  | .separator :: word :: words =>
    if p.file?.isNone then
      { p with file? := some word.text, extra := (words.map Word.text).reverse ++ p.extra }
    else { p with extra := ((Word.separator :: word :: words).map Word.text).reverse ++ p.extra }
  | word :: .separator :: words =>
    if p.file?.isNone then
      { p with file? := some word.text, extra := (words.map Word.text).reverse ++ p.extra }
    else { p with extra := ((word :: .separator :: words).map Word.text).reverse ++ p.extra }
  | word :: words => (p.addPlain word.text).addLast words

/-- What is asked for when all arguments have been read. -/
def Progress.finish (p : Progress) : Except UsageError Invocation :=
  if p.extra.isEmpty then .ok (.run p.prelude? p.file?)
  else .error (.unrecognized p.extra.reverse)

/-- Is there no option among the words? -/
def noOptions (words : List Word) : Bool :=
  words.all fun
    | .plain _ | .separator => true
    | _ => false

/-- Read the words one after the other. Help and version are at once all that is asked for. -/
def ofWords (p : Progress) : List Word → Except UsageError Invocation
  | [] => p.finish
  | .long .prelude (some value) :: words => ofWords (p.setPrelude value) words
  | .long .prelude none :: .plain value :: words => ofWords (p.setPrelude value) words
  | .long .prelude none :: _ => .error (.valueExpected .prelude)
  | .long flag (some value) :: _ => .error (.valueIgnored flag value)
  | .long .help none :: _ => .ok .help
  | .long .version none :: _ => .ok .version
  | .letters rest :: _ =>
    match Word.unused? rest.toList with
    | some value => .error (.valueIgnored .help value)
    | none => .ok .help
  | .unknown text :: words => ofWords { p with extra := text :: p.extra } words
  | word :: words =>
    if noOptions words then (p.addLast (word :: words)).finish
    else ofWords (p.addPlain word.text) words

/-- What the arguments ask for. -/
def ofArguments (arguments : List String) : Except UsageError Invocation := do
  ofWords {} (← Word.classifyAll arguments)

end Invocation

end CommandLine

end MonkeyLang
