import Schemata.Algebra.Domains
import Schemata.Validation.Check

/-! Validation: the check of a schema, run with a bound on the number of references followed. -/
namespace Schemata
namespace Schema

mutual
/-- The check that a schema describes, with `follow` for references. -/
def checkWith (env : Env) (config : Config) (follow : Ref → Check) : Schema → Check
  | .keyword k => .keyword k
  | .literal v => .literal v
  | .constrained s cs => .constrained env.hooks (checkWith env config follow s) cs
  | .union bs => .union env.domains? (branchChecks env config follow bs)
  | .intersection ms => .conjunction (memberChecks env config follow ms)
  | .ref r => follow r
  | .object ⟨ps, i, u⟩ =>
    .object config env.hooks
      ⟨propertyChecks env config follow ps, indexCheck env config follow i, u⟩
  | .tuple es => .tuple config env.hooks es (elementChecks env config follow es)
termination_by structural s => s
def branchChecks (env : Env) (config : Config) (follow : Ref → Check) : List Schema → List (Schema × Check)
  | [] => []
  | s :: rest => (s, checkWith env config follow s) :: branchChecks env config follow rest
termination_by structural ss => ss
def memberChecks (env : Env) (config : Config) (follow : Ref → Check) : List Schema → List Check
  | [] => []
  | s :: rest => checkWith env config follow s :: memberChecks env config follow rest
termination_by structural ss => ss
def propertyChecks (env : Env) (config : Config) (follow : Ref → Check) :
    List (Property Schema) → List (Property Check)
  | [] => []
  | ⟨k, s, p⟩ :: rest => ⟨k, checkWith env config follow s, p⟩ :: propertyChecks env config follow rest
termination_by structural ps => ps
def indexCheck (env : Env) (config : Config) (follow : Ref → Check) :
    Option (IndexSignature Schema) → Option (IndexSignature Check)
  | none => none
  | some ⟨k, s⟩ => some ⟨checkWith env config follow k, checkWith env config follow s⟩
termination_by structural i => i
def elementChecks (env : Env) (config : Config) (follow : Ref → Check) :
    List (Element Schema) → List (Element Check)
  | [] => []
  | ⟨r, s⟩ :: rest => ⟨r, checkWith env config follow s⟩ :: elementChecks env config follow rest
termination_by structural es => es
end

end Schema

namespace Env

/-- A reference that may not be followed any more. -/
def tooDeep (config : Config) (r : Ref) : Check := fun _ v =>
  .ok (.fail v ("exceeds the maximum depth of " ++ toString config.maxDepth) r.name .depthExceeded .null)

/-- The check of a schema while `remaining` more references may be followed. A reference that is being
followed on the very same value accepts it. -/
def checkWithin (env : Env) (config : Config) : Nat → Schema → Check
  | 0, s => s.checkWith env config (tooDeep config)
  | remaining + 1, s => s.checkWith env config fun r visit v => do
    let target ← env.resolve r
    match visit.enter? r v with
    | none => pure (.pass v)
    | some visit => env.checkWithin config remaining target visit v

def check (env : Env) (config : Config) (s : Schema) : Check :=
  env.checkWithin config config.maxDepth s

def run (env : Env) (config : Config) (s : Schema) (v : Value) : Except Fault Outcome :=
  env.check config s .root v

/-- The normalized output of a value, or all its failures. -/
def validate (env : Env) (config : Config) (s : Schema) (v : Value) :
    Except Fault (Except (List Failure) Value) :=
  (env.run config s v).map fun o => if o.isOk then .ok o.output else .error o.failures

def accepts (env : Env) (config : Config) (s : Schema) (v : Value) : Except Fault Bool :=
  (env.run config s v).map Outcome.isOk

/-- A trial run under the environment's own configuration. -/
def admits (env : Env) (s : Schema) (v : Value) : Except Fault Bool := do
  env.accepts (← env.trial) s v

end Env
end Schemata
