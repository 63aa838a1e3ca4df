import Schemata.Code
import Schemata.Value

/-! The answer of a single check. -/
namespace Schemata

/-- Why a check refused a value. What is not given is left to whoever reports the refusal. -/
structure Rejection where
  message : Option String
  code : Option Code
  constraint : Option String
  expected : Value
  actual : Value

inductive Verdict where
  | valid
  | invalid (r : Rejection)

namespace Verdict

def isValid : Verdict → Bool
  | .valid => true
  | .invalid _ => false

def refuse (message : String) (code : Code) (constraint : String) (expected actual : Value) : Verdict :=
  .invalid ⟨some message, some code, some constraint, expected, actual⟩

end Verdict
end Schemata
