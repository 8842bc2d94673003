import MonkeyLang.Assoc
import MonkeyLang.FilePath
import MonkeyLang.Text.Numeral

/-!
# Settings

What the variables of the environment set. A variable that is absent, or that holds no number
where one is needed, leaves the default.
-/

namespace MonkeyLang

/-- The variables of the environment. -/
abbrev Variables := Assoc String String

/-- The settings of a run. -/
structure Settings where
  prompt : String
  prelude? : Option FilePath
  /-- Remarks below this level are not logged. -/
  logLevel : Nat
  host : String
  tcpPort : Int
  recursionLimit : Int
deriving DecidableEq, Repr

namespace Settings

/-- The names of the levels of the log. -/
def logLevels : List (String × Nat) :=
  [("CRITICAL", 50), ("FATAL", 50), ("ERROR", 40), ("WARNING", 30), ("WARN", 30), ("INFO", 20),
    ("DEBUG", 10), ("NOTSET", 0)]

/-- The level of the log that is not set. -/
def defaultLogLevel : Nat := 30

/-- The capital of a letter, as far as the capital is one of ASCII. -/
def capital (c : Char) : Char :=
  match c with
  | '\u0131' => 'I'
  | '\u017f' => 'S'
  | c => c.toUpper

/-- The level of a name in letters of any case. -/
def logLevelOf (name : String) : Nat := (logLevels.lookup (name.map capital)).getD defaultLogLevel

/-- The settings that the variables make. -/
def ofVariables (v : Variables) : Settings where
  prompt := (v.get? "MONKEY_PROMPT").getD ">> "
  prelude? :=
    let raw := Text.strip ((v.get? "MONKEY_PRELUDE_PATH").getD "")
    if raw.isEmpty then none else some (FilePath.ofString raw)
  logLevel := logLevelOf ((v.get? "LOGLEVEL").getD "")
  host := (v.get? "MONKEY_REPL_HOST").getD "127.0.0.1"
  tcpPort := ((v.get? "MONKEY_REPL_PORT").bind Text.integer?).getD 8765
  recursionLimit :=
    ((v.get? "MONKEY_RECURSION_LIMIT").bind fun raw => Text.integer? (Text.strip raw)).getD 50000

/-- Are remarks logged? -/
def isVerbose (s : Settings) : Bool := s.logLevel ≤ 10

/-- The address to listen at: an empty host or a zero leaves what the settings say. -/
def address (s : Settings) (host? : Option String) (tcpPort? : Option Int) : String × Int :=
  let host := host?.getD ""
  let tcpPort := tcpPort?.getD 0
  (if host.isEmpty then s.host else host, if tcpPort = 0 then s.tcpPort else tcpPort)

end Settings

end MonkeyLang
