import Schemata.Value.Printer
import Schemata.Verdict

/-! Functions supplied from outside, known to a schema by name only. -/
namespace Schemata

/-- An error that a supplied function stopped with: its class and its text. -/
structure Raised where
  kind : String
  text : String
  deriving DecidableEq

/-- What a narrowing function did with a value: it answered some value, gave a verdict of its own, or
stopped with an error. -/
inductive Answer where
  | value (v : Value)
  | verdict (v : Verdict)
  | raised (e : Raised)

/-- Meaning of the names of narrowing functions and of value factories. -/
structure Hooks where
  judge : String → Value → Answer
  make : Callable → Except Raised Value

end Schemata
