import Schemata.Algebra.Intersection
import Schemata.Schema.Data

/-! Replacing the properties of an object key by key. -/
namespace Schemata

/-- Properties that replace others: those of an object, or a mapping from keys to properties. Values of other
types have none. -/
inductive Overrides where
  | object (shape : ObjectShape Schema)
  | mapping (entries : List (Value × Value))
  | other (subject : String)

namespace ObjectShape

/-- Sets a property, in the place of the one with its key. -/
def put (ps : List (Property Schema)) (p : Property Schema) : List (Property Schema) :=
  if ps.any fun q => q.key == p.key then ps.map fun q => if q.key == p.key then p else q else ps ++ [p]

/-- Properties of `base` in their order, replaced where there is a replacement, then the new ones. -/
def replaceAll (base replacements : List (Property Schema)) : List (Property Schema) :=
  (base.map fun p => (replacements.find? fun q => q.key == p.key).getD p) ++
    replacements.filter fun q => !base.any fun p => p.key == q.key

/-- The index signature and the policy of the replacing object count when it sets them. -/
def mergeWith (base upper : ObjectShape Schema) : ObjectShape Schema :=
  ⟨replaceAll base.properties upper.properties, upper.index.or base.index,
    if upper.undeclared = .ignore then base.undeclared else upper.undeclared⟩

end ObjectShape

namespace Overrides

def ofValue (v : Value) : Overrides :=
  match Schema.ofData? v, v.entries? with
  | some (.object shape), _ => .object shape
  | _, some entries => .mapping entries
  | _, none => .other v.subject

/-- The property under a raw key; it has to have that key. -/
def entry (raw content : Value) : Except Fault (Property Schema) :=
  match Key.ofValue? raw with
  | none => .error (.invalidKey raw.printed)
  | some key =>
    match Property.ofData? content with
    | some p => if p.key = key then .ok p else .error (.conflict (.overrideKey key))
    | none => .error (.conflict (.overrideKey key))

def collect : List (Property Schema) → List (Value × Value) → Except Fault (List (Property Schema))
  | ps, [] => .ok ps
  | ps, (raw, content) :: rest => do collect (ObjectShape.put ps (← entry raw content)) rest

end Overrides

namespace Env

/-- The object behind a schema. -/
def objectOf (env : Env) (operation : String) (s : Schema) : Except Fault (ObjectShape Schema) := do
  match ← env.deref s with
  | .object shape => pure shape
  | other => throw (.conflict (.objectRequired operation other))

def merge (env : Env) (base : Schema) (overrides : Overrides) : Except Fault Schema := do
  let target ← env.objectOf "merge" base
  match overrides with
  | .object upper => env.makeObject (target.mergeWith upper)
  | .mapping entries =>
    env.makeObject { target with
      properties := ObjectShape.replaceAll target.properties (← Overrides.collect [] entries) }
  | .other subject => throw (.noEntries subject)

end Env
end Schemata
