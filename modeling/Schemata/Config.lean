import Schemata.Entries
import Schemata.Error
import Schemata.Text.Class

/-! Configuration of schemas and of validation runs, read from fields or from the settings of the
environment. -/
namespace Schemata

/-- With `exactOptional` an optional key that holds the undefined value has to satisfy its schema, else it
counts as absent; with `defensiveDefaults` produced defaults are checked; `maxDepth` bounds how many
references may be followed inside each other. -/
structure Config where
  undeclared : Policy
  exactOptional : Bool
  defensiveDefaults : Bool
  maxDepth : Nat

/-- Settings of the environment. Their depth is checked only when a configuration is made of them. -/
structure Settings where
  undeclared : Policy
  exactOptional : Bool
  defensiveDefaults : Bool
  maxDepth : Int
  logLevel : String
  logJson : Bool

namespace Config

def default : Config := ⟨.ignore, true, false, 100⟩

end Config

namespace Settings

def default : Settings := ⟨.ignore, true, false, 100, "INFO", false⟩

end Settings

/-! Reading of single fields. A text, or the bytes of one, is read for what it writes, and a number for its
value. -/
namespace ConfigField

/-- The text that a value holds, as it is or encoded in bytes; nothing for other values. Bytes that encode
no text are an issue of their own. -/
def text? (issue : IssueKind) : Value → Except IssueKind (Option String)
  | .string s => .ok (some s)
  | .bytes bs =>
    match String.fromUTF8? ⟨bs.toArray⟩ with
    | some s => .ok (some s)
    | none => .error issue
  | _ => .ok none

/-- Separators of files, groups, records and units are no blanks around a number. -/
def isBlank (c : Char) : Bool :=
  Text.isBlank c && !(0x1c ≤ c.toNat && c.toNat ≤ 0x1f)

def trimmed (cs : List Char) : List Char :=
  ((cs.dropWhile isBlank).reverse.dropWhile isBlank).reverse

/-- A plus sign in front says nothing, unless a minus sign follows. -/
def withoutPlus : List Char → Option (List Char)
  | '+' :: '-' :: _ => none
  | '+' :: cs => some cs
  | cs => some cs

/-- A minus sign and what it stands before. -/
def signed : List Char → List Char × List Char
  | '-' :: cs => (['-'], cs)
  | cs => ([], cs)

/-- What follows leading zeros: a digit other than zero, a minus sign, or a point with the last zero. Low lines
may stand between the zeros. The last of them stays where nothing follows. -/
def behindZeros (last : Char) : List Char → Option (List Char)
  | [] => some [last]
  | c :: cs =>
    if c = '0' ∨ c = '_' then behindZeros c cs
    else if c.isDigit ∨ c = '-' then some (c :: cs)
    else if c = '.' then some (last :: c :: cs)
    else none

def withoutZeros : List Char → Option (List Char)
  | [] => none
  | c :: cs => if c = '0' then behindZeros c cs else if c.isDigit then some (c :: cs) else none

/-- A fraction of zeros, one at least, falls away. -/
def withoutFraction (cs : List Char) : List Char :=
  let zeros := (cs.dropWhile (· != '.')).drop 1
  if !zeros.isEmpty && zeros.all (· == '0') then cs.takeWhile (· != '.') else cs

/-- Whether two low lines stand side by side. -/
def doubledLine : List Char → Bool
  | '_' :: '_' :: _ => true
  | _ :: cs => doubledLine cs
  | [] => false

/-- Single low lines inside fall away. -/
def withoutLines (cs : List Char) : List Char :=
  if cs.head? = some '_' ∨ cs.getLast? = some '_' ∨ doubledLine cs = true then cs
  else cs.filter (· != '_')

/-- A whole number in its plain form: a minus sign or none, and digits without a leading zero. -/
def plainInteger (cs : List Char) : Except IssueKind Int :=
  let (sign, digits) := signed cs
  let run := digits.takeWhile Char.isDigit
  if run.isEmpty || (run.head? == some '0' && run.length != 1) then .error .intParsing
  else if Text.digitLimit < run.length then .error .intParsingSize
  else if run.length != digits.length then .error .intParsing
  else
    let n : Nat := Decimal.natOfDigits run
    .ok (if sign.isEmpty then n else -(n : Int))

/-- The plain form of a number with a plus sign, leading zeros, a fraction of zeros or single low lines. -/
def plainForm? (cs : List Char) : Option (List Char) := do
  let (sign, digits) := signed (← withoutPlus (trimmed cs))
  pure (sign ++ withoutLines (withoutFraction (← withoutZeros digits)))

/-- A whole number as a text writes it. Only the text as it stands is refused for its length. -/
def integer (s : String) : Except IssueKind Int :=
  match plainInteger s.toList, plainForm? s.toList with
  | .ok n, _ => .ok n
  | .error .intParsingSize, _ => .error .intParsingSize
  | _, some cs => (plainInteger cs).mapError fun _ => .intParsing
  | _, none => .error .intParsing

/-- End of the numbers that fit a machine word with a sign. -/
def wordEnd : Int := 0x8000000000000000

def readInt (v : Value) : Except IssueKind Int := do
  match v with
  | .number (.int n) => pure n
  | .bool b => pure (if b then 1 else 0)
  | .number (.double d) =>
    match d.toInt? with
    | some n => if -wordEnd < n ∧ n < wordEnd then pure n else throw .intParsingSize
    | none => throw (if d.isFinite then .intFromFloat else .finiteNumber)
  | v =>
    match ← text? .intParsing v with
    | some s => integer s
    | none => throw .intType

def trueWords : List String := ["1", "t", "true", "on", "y", "yes"]
def falseWords : List String := ["0", "f", "false", "off", "n", "no"]

/-- One and zero are truth values too. -/
def boolOfInt (n : Int) : Except IssueKind Bool :=
  if n = 1 then .ok true else if n = 0 then .ok false else .error .boolParsing

def readBool (v : Value) : Except IssueKind Bool := do
  match v with
  | .bool b => pure b
  | .number (.int n) => if -wordEnd ≤ n ∧ n < wordEnd then boolOfInt n else throw .boolType
  | .number (.double d) =>
    match d.toInt? with
    | some n => if -wordEnd < n ∧ n < wordEnd then boolOfInt n else throw .boolType
    | none => throw .boolType
  | v =>
    match ← text? .boolParsing v with
    | some s =>
      let word := s.map Char.toLower
      if trueWords.contains word then pure true
      else if falseWords.contains word then pure false
      else throw .boolParsing
    | none => throw .boolType

def readPolicy (v : Value) : Except IssueKind Policy := do
  match (← text? .enumeration v).bind Policy.ofName? with
  | some p => pure p
  | none => throw .enumeration

def readText (v : Value) : Except IssueKind String := do
  match ← text? .stringUnicode v with
  | some s => pure s
  | none => throw .stringType

def readDepth (v : Value) : Except IssueKind Nat := do
  let n ← readInt v
  if 0 < n then pure n.toNat else throw .greaterThan

/-- The field's value, or its issue behind those found before. -/
def field {α : Type} (given : String → Option Value) (name : String) (read : Value → Except IssueKind α)
    (fallback : α) (issues : List ConfigIssue) : α × List ConfigIssue :=
  match given name with
  | none => (fallback, issues)
  | some v =>
    match read v with
    | .ok a => (a, issues)
    | .error kind => (fallback, issues ++ [⟨name, kind⟩])

end ConfigField

open ConfigField

namespace Config

def fieldNames : List String :=
  ["undeclared_policy", "exact_optional_property_types", "defensive_defaults", "max_depth"]

/-- Every unfit or unknown field is an issue. -/
def ofFields (fields : List (String × Value)) : Except Fault Config :=
  let given := fun name => fields.lookup name
  let (undeclared, issues) := field given "undeclared_policy" readPolicy default.undeclared []
  let (exact, issues) := field given "exact_optional_property_types" readBool default.exactOptional issues
  let (defensive, issues) := field given "defensive_defaults" readBool default.defensiveDefaults issues
  let (depth, issues) := field given "max_depth" readDepth default.maxDepth issues
  let unknown := (fields.filter fun f => !fieldNames.contains f.1).map fun f =>
    (⟨f.1, .extraForbidden⟩ : ConfigIssue)
  match issues ++ unknown with
  | [] => .ok ⟨undeclared, exact, defensive, depth⟩
  | all => .error (.config all)

def ofSettings (s : Settings) : Except Fault Config :=
  if 0 < s.maxDepth then
    .ok ⟨s.undeclared, s.exactOptional, s.defensiveDefaults, s.maxDepth.toNat⟩
  else .error (.config [⟨"max_depth", .greaterThan⟩])

end Config

/-- Variables by name, in the order in which they were first set. -/
abbrev Variables := List (String × String)

namespace Variables

/-- A variable that is set again keeps its place. -/
def set (vars : Variables) (name content : String) : Variables :=
  Entries.put vars name content

/-- The variable of a name in any case; of several the last one. -/
def find? (vars : Variables) (name : String) : Option String :=
  (vars.reverse.find? fun e => e.1.map Char.toLower == name.map Char.toLower).map (·.2)

end Variables

namespace Settings

/-- Settings by what is given for each; what is given for no setting is passed over. -/
def ofGiven (given : String → Option Value) : Except Fault Settings :=
  let (undeclared, issues) := field given "UNDECLARED_POLICY" readPolicy default.undeclared []
  let (exact, issues) := field given "EXACT_OPTIONAL_PROPERTY_TYPES" readBool default.exactOptional issues
  let (defensive, issues) := field given "DEFENSIVE_DEFAULTS" readBool default.defensiveDefaults issues
  let (depth, issues) := field given "MAX_DEPTH" readInt default.maxDepth issues
  let (level, issues) := field given "LOG_LEVEL" readText default.logLevel issues
  let (json, issues) := field given "LOG_JSON" readBool default.logJson issues
  match issues with
  | [] => .ok ⟨undeclared, exact, defensive, depth, level, json⟩
  | all => .error (.config all)

/-- The first field of a name in any case. -/
def direct? (fields : List (String × Value)) (name : String) : Option Value :=
  (fields.find? fun f => f.1.map Char.toUpper == name).map (·.2)

/-- Fields given directly come before variables of the environment, which are called by the application,
a low line and the setting. -/
def read (application : String) (environment : Variables) (fields : List (String × Value)) :
    Except Fault Settings :=
  ofGiven fun name =>
    (direct? fields name).or ((environment.find? (application ++ "_" ++ name)).map .string)

end Settings
end Schemata
