import Schemata.Constraint.Narrow
import Schemata.Schema.Equality
import Schemata.Validation

/-! A conservative subset test: a yes means that every value of the one schema is a value of the other. A
pair of schemas met again behind references is taken to hold. -/
namespace Schemata

namespace Schema

def isRef : Schema → Bool
  | .ref _ => true
  | _ => false

/-- Whether a pair occurs in a list of pairs. -/
def pairIn (a b : Schema) (pairs : List (Schema × Schema)) : Bool :=
  pairs.any fun p => p.1.same a && p.2.same b

/-- Refuses a pair that cannot be part of a key. -/
def hashable (a b : Schema) : Except Fault Unit :=
  match a.changeable?.or b.changeable? with
  | some typeName => .error (.unhashable typeName)
  | none => .ok ()

end Schema

namespace Env

/-- The schema behind a reference, if it is complete; any other schema is itself. -/
def behind? (env : Env) (s : Schema) : Except Fault (Option Schema) :=
  match s with
  | .ref r => env.resolve? r
  | s => .ok (some s)

/-- Number of schemas in the slots of all arenas. -/
def storedSize (env : Env) : Nat :=
  (env.arenas.flatMap (·.slots)).foldr (fun s n => (s.map Schema.size).getD 0 + n) 0

/-- Number of schemas that an operation on `a` and `b` can meet. -/
def reach (env : Env) (a b : Schema) : Nat :=
  env.storedSize + a.size + b.size

/-- Bound on the nesting of an operation on pairs: each pair behind references once, and between two such
pairs one step for every part. -/
def pairFuel (env : Env) (a b : Schema) : Nat :=
  let n := env.reach a b
  (n * n + 1) * (2 * n + 2)

end Env

namespace Constraint

/-- A constraint that others imply: one of them is equal to it or lies inside its bounds. -/
def impliedBy (c : Constraint) (others : List Constraint) : Except Fault Bool :=
  others.anyM fun d =>
    if d.same c then .ok true else (c.covers d).mapError fun e => Fault.check (.order e)

/-- Whether a value passes all constraints. -/
def allAccept (hooks : Hooks) (v : Value) (cs : List Constraint) : Except Fault Bool :=
  cs.allM fun c => do
    let verdict ← (c.check hooks v).mapError Fault.check
    pure verdict.isValid

end Constraint

namespace ObjectShape

/-- Values that a property of `b` can meet in `a`, when `a` does not declare its key. -/
def absentWithin (admits : Schema → Value → Except Fault Bool) (sub : Schema → Schema → Except Fault Bool)
    (a : ObjectShape Schema) (p : Property Schema) : Except Fault Bool := do
  if p.presence.isRequired then pure false
  else
    let indexed ← match a.index with
      | some i => do pure (if ← admits i.key p.key.toValue then some i.value else none)
      | none => pure none
    match indexed with
    | some value => sub value p.value
    | none => pure (a.undeclared == .reject)

/-- A property of `b` against what `a` says of its key. -/
def coversProperty (admits : Schema → Value → Except Fault Bool) (sub : Schema → Schema → Except Fault Bool)
    (a : ObjectShape Schema) (p : Property Schema) : Except Fault Bool :=
  match a.property? p.key with
  | none => absentWithin admits sub a p
  | some q => if p.presence.isRequired && !q.presence.isRequired then .ok false else sub q.value p.value

/-- A property of `a` whose key `b` does not declare. -/
def extraWithin (admits : Schema → Value → Except Fault Bool) (sub : Schema → Schema → Except Fault Bool)
    (b : ObjectShape Schema) (p : Property Schema) : Except Fault Bool := do
  let indexed ← match b.index with
    | some i => do pure (if ← admits i.key p.key.toValue then some i.value else none)
    | none => pure none
  match indexed with
  | some value => sub p.value value
  | none => pure (b.undeclared != .reject)

def indexWithin (sub : Schema → Schema → Except Fault Bool) :
    Option (IndexSignature Schema) → Option (IndexSignature Schema) → Except Fault Bool
  | some i, some j => if i.key.same j.key then sub i.value j.value else .ok false
  | _, _ => .ok true

/-- Keys that `a` lets through unchecked are no keys of `b`. -/
def looserThan (a b : ObjectShape Schema) : Bool :=
  a.undeclared != .reject && (b.undeclared == .reject || (b.index.isSome && a.index.isNone))

def within (admits : Schema → Value → Except Fault Bool) (sub : Schema → Schema → Except Fault Bool)
    (a b : ObjectShape Schema) : Except Fault Bool := do
  if a.looserThan b then pure false
  else if !(← b.properties.allM (coversProperty admits sub a)) then pure false
  else if !(← (a.properties.filter fun p => !b.declares p.key).allM (extraWithin admits sub b)) then
    pure false
  else indexWithin sub a.index b.index

end ObjectShape

namespace Element

/-- Elements in the same places; a leading place needs a leading element. -/
def pairwiseWithin (sub : Schema → Schema → Except Fault Bool) :
    List (Element Schema) → List (Element Schema) → Except Fault Bool
  | e :: es, f :: fs => do
    if f.role.isLeading && !e.role.isLeading then pure false
    else if ← sub e.value f.value then pairwiseWithin sub es fs
    else pure false
  | [], [] => .ok true
  | _, _ => .ok false

def within (sub : Schema → Schema → Except Fault Bool) (es fs : List (Element Schema)) :
    Except Fault Bool :=
  match array? fs with
  | some f => es.allM fun e => sub e.value f.value
  | none =>
    if (variadic? es).isSome || (variadic? fs).isSome || es.length != fs.length then .ok false
    else pairwiseWithin sub es fs

end Element

namespace Env

/-- The subset test on two schemas of which neither is a reference, the first no union and the second no
union or intersection. -/
def plainWithin (env : Env) (sub : Schema → Schema → Except Fault Bool) (a b : Schema) :
    Except Fault Bool :=
  match a, b with
  | .constrained base cs, .constrained target ds => do
    if ← sub base target then ds.allM fun d => d.impliedBy cs else pure false
  | .constrained base _, b => sub base b
  | .literal v, .constrained target ds => do
    if ← sub (.literal v) target then Constraint.allAccept env.hooks v ds else pure false
  | _, .constrained _ _ => .ok false
  | .literal v, .keyword .integer => .ok (Keyword.integer.holds v)
  | _, .keyword .integer => .ok false
  | a, .keyword k => do
    match ← env.domains? a with
    | none => pure false
    | some d => pure (d.subset k.domains)
  | .literal v, .literal w => .ok (v.domain == w.domain && v.literalEqual w)
  | .object p, .object q => ObjectShape.within env.admits sub p q
  | .tuple es, .tuple fs => Element.within sub es fs
  | _, _ => .ok false

def subsetWithin (env : Env) : Nat → List (Schema × Schema) → Schema → Schema → Except Fault Bool
  | 0, _, _, _ => .ok false
  | fuel + 1, seen, a, b =>
    let sub := env.subsetWithin fuel seen
    if a.same b || b.isUnknown || a.isNever then .ok true
    else if a.isRef || b.isRef then do
      a.hashable b
      if a.pairIn b seen then pure true
      else
        match ← env.behind? a, ← env.behind? b with
        | some s, some t => env.subsetWithin fuel ((a, b) :: seen) s t
        | _, _ => pure false
    else
      match a, b with
      | .union bs, b => bs.allM fun s => sub s b
      | a, .intersection ms => ms.allM fun t => sub a t
      | .intersection ms, b => do
        if ← ms.anyM fun s => sub s b then pure true
        else
          match b with
          | .union bs => bs.anyM fun t => sub a t
          | b => env.plainWithin sub a b
      | a, .union bs => bs.anyM fun t => sub a t
      | a, b => env.plainWithin sub a b

/-- Whether every value of `a` is provably a value of `b`. -/
def isSubset (env : Env) (a b : Schema) : Except Fault Bool :=
  env.subsetWithin (env.pairFuel a b) [] a b

end Env
end Schemata
