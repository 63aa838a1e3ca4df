import Schemata.Constraint
import Schemata.Domain
import Schemata.Hooks
import Schemata.Regex.Match
import Schemata.Regex.Reader
import Schemata.Value.Order

/-! Checking a value against one constraint. A refused value is an answer. The only errors are a pattern
that is no regular expression, found when it first meets a string, and a bound that numbers have no order
to. -/
namespace Schemata

/-- Why a value cannot be checked. -/
inductive CheckError where
  | pattern (e : PatternError)
  | order (e : Incomparable)

namespace Range

def wrongType (r : Range) (v : Value) : Verdict :=
  .refuse ("must be a number (was " ++ v.typeName ++ ")") .invalidType r.description (.string "number") v

def outside (r : Range) (wording sign : String) (bound : Value) (n : Number) : Verdict :=
  .refuse ("must be " ++ wording ++ " " ++ bound.bareText ++ " (was " ++ n.text ++ ")") .outOfRange
    r.description (.string (sign ++ " " ++ bound.bareText)) (.number n)

/-- The refusal of a number that lies beyond a bound. -/
def beyond? (c : Comparison) (bound : Option Value) (n : Number) (refusal : Value → Verdict) :
    Except Incomparable (Option Verdict) :=
  match bound with
  | none => .ok none
  | some b => do pure (if ← Value.holds c (.number n) b then some (refusal b) else none)

def low? (r : Range) (n : Number) : Except Incomparable (Option Verdict) :=
  if r.aboveLeast then beyond? .atMost r.least n fun b => r.outside "more than" ">" b n
  else beyond? .less r.least n fun b => r.outside "at least" ">=" b n

def high? (r : Range) (n : Number) : Except Incomparable (Option Verdict) :=
  if r.belowGreatest then beyond? .atLeast r.greatest n fun b => r.outside "less than" "<" b n
  else beyond? .greater r.greatest n fun b => r.outside "at most" "<=" b n

def check (r : Range) : Value → Except Incomparable Verdict
  | .number n => do
    match ← r.low? n with
    | some refusal => pure refusal
    | none => pure ((← r.high? n).getD .valid)
  | v => .ok (r.wrongType v)

end Range

namespace Value

/-- Length of a string or sequence; a string counts code points. -/
def length? (v : Value) : Option Nat :=
  match v with
  | .string s => some s.length
  | v => v.items?.map fun s => s.2.length

end Value

namespace Length

def outside (l : Length) (wording sign : String) (bound : Int) (n : Nat) : Verdict :=
  .refuse ("must be " ++ wording ++ " length " ++ toString bound ++ " (was " ++ toString n ++ ")")
    .outOfRange l.description (.string (sign ++ " " ++ toString bound)) (.int n)

def low? (l : Length) (n : Nat) : Option Verdict :=
  l.least.bind fun bound => if (n : Int) < bound then some (l.outside "at least" ">=" bound n) else none

def high? (l : Length) (n : Nat) : Option Verdict :=
  l.greatest.bind fun bound => if bound < (n : Int) then some (l.outside "at most" "<=" bound n) else none

def check (l : Length) (v : Value) : Verdict :=
  match v.length? with
  | some n => ((l.low? n).or (l.high? n)).getD .valid
  | none =>
    .refuse ("must have a length (was " ++ v.typeName ++ ")") .invalidType l.description .null v

end Length

namespace Pattern

/-- Characters of a refused string that its message shows. -/
def shown : Nat := 50

def mismatch (p : Pattern) (s : String) : Verdict :=
  let wanted := (nonempty? p.label).getD ("/" ++ p.source ++ "/")
  let excerpt := Text.quoted (String.ofList (s.toList.take shown))
  .refuse ("must match " ++ wanted ++ " (was " ++ excerpt ++ ")") .invalidFormat p.description
    (.string p.source) (.string s)

def check (p : Pattern) : Value → Except PatternError Verdict
  | .string s => do
    let r ← Regex.read (.ofInt p.flags) p.source
    pure (if r.search s then .valid else p.mismatch s)
  | v => .ok (.refuse ("must be a string (was " ++ v.typeName ++ ")") .invalidType p.description .null v)

end Pattern

/-- Equality with one literal value. -/
def Value.checkLiteral (literal v : Value) : Verdict :=
  if literal.literalEqual v then .valid
  else
    .refuse ("must be " ++ literal.printed ++ " (was " ++ v.printed ++ ")") .literalMismatch
      ("=== " ++ literal.printed) literal v

namespace TypeTag

def check (t : TypeTag) (v : Value) : Verdict :=
  if t.holds v then .valid
  else
    .refuse ("must be an instance of " ++ t.name ++ " (was " ++ v.typeName ++ ")") .invalidType
      ("instanceof[" ++ t.name ++ "]") (.string t.name) v

end TypeTag

namespace Predicate

/-- A truthy answer accepts; an error of the function is a refusal. -/
def check (p : Predicate) (hooks : Hooks) (v : Value) : Verdict :=
  match hooks.judge p.function v with
  | .verdict verdict => verdict
  | .raised e =>
    .refuse (p.name ++ " raised " ++ e.kind ++ ": " ++ e.text) .constraintViolation p.name .null v
  | .value answer =>
    if answer.truthy then .valid
    else .refuse ("must be " ++ p.name ++ " (was " ++ v.printed ++ ")") .constraintViolation p.name .null v

end Predicate

def Constraint.check (hooks : Hooks) (v : Value) : Constraint → Except CheckError Verdict
  | .range r => (r.check v).mapError .order
  | .length l => .ok (l.check v)
  | .pattern p => (p.check v).mapError .pattern
  | .equals literal => .ok (literal.checkLiteral v)
  | .type t => .ok (t.check v)
  | .predicate p => .ok (p.check hooks v)

end Schemata
