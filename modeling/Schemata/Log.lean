import Schemata.Error
import Schemata.Text.Case

/-! What is done to log events before they are written: long schema expressions are clipped and every event
names its library. -/
namespace Schemata.Log

def domains : List String := ["schema", "algebra", "scope", "validator"]

/-- Fields whose values are schema expressions. -/
def expressionFields : List String := ["schema", "left", "right", "base", "property", "index"]

def longest : Nat := 200

def clip (s : String) : String :=
  if longest < s.length then String.ofList (s.toList.take (longest - 3)) ++ "..." else s

def clipEntry (entry : String × Value) : String × Value :=
  match entry with
  | (name, .string s) => (name, if expressionFields.contains name then .string (clip s) else .string s)
  | entry => entry

/-- A library that is given stays. -/
def tag (library : String) (event : List (String × Value)) : List (String × Value) :=
  if event.any fun e => e.1 == "library" then event else event ++ [("library", .string library)]

def process (library : String) (event : List (String × Value)) : List (String × Value) :=
  tag library (event.map clipEntry)

/-- Levels by name. -/
def levels : List (String × Nat) :=
  [("DEBUG", 10), ("INFO", 20), ("WARNING", 30), ("WARN", 30), ("ERROR", 40), ("CRITICAL", 50), ("FATAL", 50),
    ("NOTSET", 0)]

def basicFormat : String := "%(levelname)s:%(name)s:%(message)s"

/-- The styles of messages, each with its class and its format. -/
def stylesText : String :=
  "\x7b'%': (<class 'logging.PercentStyle'>, '" ++ basicFormat ++
    "'), '\x7b': (<class 'logging.StrFormatStyle'>, '\x7blevelname\x7d:\x7bname\x7d:\x7bmessage\x7d'), " ++
    "'$': (<class 'logging.StringTemplateStyle'>, '$\x7blevelname\x7d:$\x7bname\x7d:$\x7bmessage\x7d')\x7d"

/-- The level of a name, whatever its case; an unknown name is the ordinary level. Two names are taken by
what is no level. -/
def level (name : String) : Except LogLevelError Nat :=
  match Text.uppercase name with
  | "BASIC_FORMAT" => .error (.unknownName basicFormat)
  | "_STYLES" => .error (.noNumber stylesText)
  | name => .ok ((levels.lookup name).getD 20)

def levelOf : Value → Except LogLevelError Nat
  | .string name => level name
  | .bytes _ => .error .bytes
  | .callable ⟨"str", true, _⟩ => .error .textClass
  | v => .error (.noText v.subject)

def checkDomain (name : Value) : Except Fault Unit :=
  match name with
  | .string s => if domains.contains s then .ok () else .error (.unknownLogDomain name.printed)
  | name => .error (.unknownLogDomain name.printed)

/-- A logger as it is set up: its level, the number of its handlers, whether events go on to others. -/
structure Logger where
  level : Nat
  handlers : Nat
  propagates : Bool

/-- The level comes from the settings unless one is given; a new handler takes the place of the old. -/
def configure (configured : String) (given : Value) : Except Fault Logger := do
  let n ← (levelOf (if given.truthy then given else .string configured)).mapError Fault.logLevel
  pure ⟨n, 1, false⟩

end Schemata.Log
