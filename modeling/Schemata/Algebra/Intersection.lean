import Schemata.Algebra.Union
import Schemata.Schema.Make

/-! The intersection of two schemas, worked out as far as their form allows. What cannot be decided stays a
lazy conjunction; what provably has no value is an error. -/
namespace Schemata

/-- A computation that notes whether it met a definition that is still pending, also when it fails. -/
abbrev Compose := ExceptT Fault (StateM Bool)

namespace Compose

def defer : Compose Unit := do set true

/-- The answer, or nothing when it is empty for sure. Any other error goes on. -/
def unlessEmpty (x : Compose Schema) : Compose (Option Schema) :=
  tryCatch (some <$> x) fun e => if e.isUnsatisfiable then pure none else throw e

def unsatisfiable {α : Type} (a b : Schema) (reason : Emptiness) : Compose α :=
  throw (.schema (.unsatisfiable a b reason))

/-- An optional place whose schemas conflict can still be left empty. -/
def place (meet : Schema → Schema → Compose Schema) (a b : Schema) (optional : Bool) : Compose Schema :=
  if optional then do pure ((← unlessEmpty (meet a b)).getD .never) else meet a b

end Compose

namespace Constraint

/-- Narrows the first known bound of the constraint's kind, if there is one. `disjoint` is the error of two
bounds that exclude each other. -/
def narrowInto (disjoint : Constraint → Constraint → Fault) (c : Constraint) :
    List Constraint → Except Fault (Option (List Constraint))
  | [] => .ok none
  | d :: ds =>
    match d.narrow? c with
    | some (.ok (some e)) => .ok (some (e :: ds))
    | some (.ok none) => .error (disjoint d c)
    | some (.error e) => .error (.check (.order e))
    | none => do pure ((← narrowInto disjoint c ds).map (d :: ·))

/-- Adds a constraint: bounds narrow, the others gather without repetition. -/
def gather (disjoint : Constraint → Constraint → Fault) (known : List Constraint) (c : Constraint) :
    Except Fault (List Constraint) := do
  match ← narrowInto disjoint c known with
  | some narrowed => pure narrowed
  | none => pure (if known.any fun d => d.same c then known else known ++ [c])

end Constraint

namespace Property

def same (p q : Property Schema) : Bool :=
  p.key == q.key && p.value.same q.value && p.presence.same q.presence

end Property

namespace Presence

/-- How a property is treated that two objects declare. Two different defaults conflict. -/
def meet? : Presence → Presence → Option Presence
  | .required, _ => some .required
  | _, .required => some .required
  | .defaultable p, .defaultable q => if p.same q then some (.defaultable p) else none
  | .defaultable p, .optional => some (.defaultable p)
  | .optional, .defaultable q => some (.defaultable q)
  | .optional, .optional => some .optional

end Presence

namespace ObjectShape

variable (admits : Schema → Value → Except Fault Bool) (meet : Schema → Schema → Compose Schema)

def meetIndex : Option (IndexSignature Schema) → Option (IndexSignature Schema) →
    Compose (Option (IndexSignature Schema))
  | none, j => pure j
  | i, none => pure i
  | some i, some j => do
    if i.key.same j.key then pure (some ⟨i.key, ← meet i.value j.value⟩)
    else throw (.conflict (.indexSignatures i j))

/-- A property that only `owner` declares, met with what `other` allows for its key. -/
def meetUndeclared (owner other : ObjectShape Schema) (p : Property Schema) : Compose (Property Schema) := do
  let indexed ← match other.index with
    | some i => do pure (if ← admits i.key p.key.toValue then some i.value else none)
    | none => pure none
  match indexed with
  | some value =>
    let met ← Compose.place meet p.value value p.presence.isOptional
    pure (if met.same p.value then p else { p with value := met })
  | none =>
    if other.undeclared = .reject then
      if p.presence.isRequired then
        Compose.unsatisfiable (.object owner) (.object other) (.rejectedRequired p.key)
      else pure (if Schema.never.same p.value then p else { p with value := .never })
    else pure p

def meetDeclared (p q : Property Schema) : Compose (Property Schema) := do
  if p.same q then pure p
  else
    match p.presence.meet? q.presence with
    | none => throw (.conflict (.defaults p.key))
    | some presence =>
      pure ⟨p.key, ← Compose.place meet p.value q.value presence.isOptional, presence⟩

/-- Properties of `a`, then those that only `b` declares. -/
def meetShapes (a b : ObjectShape Schema) : Compose (ObjectShape Schema) := do
  let index ← meetIndex meet a.index b.index
  let first ← a.properties.mapM fun p =>
    match b.property? p.key with
    | none => meetUndeclared admits meet a b p
    | some q => meetDeclared meet p q
  let second ← (b.properties.filter fun q => !a.declares q.key).mapM (meetUndeclared admits meet b a)
  pure ⟨first ++ second, index, a.undeclared.stricter b.undeclared⟩

end ObjectShape

namespace Element

variable (meet : Schema → Schema → Compose Schema)

/-- An element of the template's kind over the intersection of two schemas. -/
def meetAs (template : Element Schema) (left right : Schema) : Compose (Element Schema) := do
  pure ⟨template.role, ← Compose.place meet left right template.role.isOptional⟩

def sameDefault : Option Producer → Option Producer → Bool
  | some p, some q => p.same q
  | none, _ => true
  | _, _ => false

def meetPairwise : List (Element Schema) → List (Element Schema) → Compose (List (Element Schema))
  | e :: es, f :: fs => do
    if sameDefault e.role.default? f.role.default? then
      let g ← meetAs meet e e.value f.value
      pure (g :: (← meetPairwise es fs))
    else throw (.conflict .elementDefaults)
  | _, _ => pure []

def disjointLengths (es fs : List (Element Schema)) : Bool :=
  (match greatestLength? es with
    | some n => decide (n < leastLength fs)
    | none => false) ||
  (match greatestLength? fs with
    | some n => decide (n < leastLength es)
    | none => false)

def sameKinds (es fs : List (Element Schema)) : Bool :=
  es.map (·.role.rank) == fs.map (·.role.rank)

/-- An array narrows the elements of the other tuple; tuples of the same kinds meet place by place, and all
others stay apart. -/
def meetTuples (es fs : List (Element Schema)) : Compose Schema := do
  if disjointLengths es fs then
    Compose.unsatisfiable (.tuple es) (.tuple fs) (.disjointLengths es fs)
  else
    match array? es, array? fs with
    | some e, some f => pure (.array (← meet e.value f.value))
    | none, some f => pure (.tuple (← es.mapM fun e => meetAs meet e e.value f.value))
    | some e, none => pure (.tuple (← fs.mapM fun f => meetAs meet f e.value f.value))
    | none, none =>
      if sameKinds es fs then pure (.tuple (← meetPairwise meet es fs))
      else pure (.intersection [.tuple es, .tuple fs])

end Element

namespace Env

variable (env : Env) (meet : Schema → Schema → Compose Schema)

/-- A literal meets a schema by passing its check. -/
def meetLiteral (literal : Schema) (v : Value) (other : Schema) : Compose Schema := do
  if ← env.admits other v then pure literal
  else Compose.unsatisfiable literal other (.refusedLiteral literal other)

/-- Bases meet, bounds narrow and the other constraints gather. -/
def meetConstrained (a b : Schema) : Compose Schema := do
  let (left, cs) := a.split
  let (right, ds) := b.split
  let base ← meet left right
  let disjoint := fun c d => Fault.schema (.unsatisfiable a b (.disjointBounds c d))
  let gathered : Except Fault (List Constraint) := (cs ++ ds).foldlM (Constraint.gather disjoint) []
  pure (base.constrain (← gathered))

/-- The branches that meet, in their order; empty ones fall away. -/
def compatible (one : Schema → Compose Schema) : List Schema → Compose (List Schema)
  | [] => pure []
  | s :: rest => do
    let met ← Compose.unlessEmpty (one s)
    pure (met.toList ++ (← compatible one rest))

/-- A union meets a schema branch by branch. -/
def meetBranches (u other : Schema) (branches : List Schema) (one : Schema → Compose Schema) :
    Compose Schema := do
  let results ← compatible one branches
  if results.isEmpty then Compose.unsatisfiable u other .noBranch
  else env.union results

/-- Two schemas of which neither is a reference or a union. -/
def meetPlain (a b : Schema) : Compose Schema := do
  let left ← env.domains? a
  let right ← env.domains? b
  let disjoint := match left, right with
    | some d, some e => (d.inter e).isEmpty
    | _, _ => false
  if disjoint then Compose.unsatisfiable a b .disjointDomains
  else
    match a, b with
    | .intersection ms, b => pure (.intersection (Schema.distinct (ms ++ b.members)))
    | a, .intersection ms => pure (.intersection (Schema.distinct (a.members ++ ms)))
    | .literal v, b => meetLiteral env (.literal v) v b
    | a, .literal v => meetLiteral env (.literal v) v a
    | .constrained base cs, b => meetConstrained meet (.constrained base cs) b
    | a, .constrained base cs => meetConstrained meet a (.constrained base cs)
    | .object p, .object q => do env.makeObject (← ObjectShape.meetShapes env.admits meet p q)
    | .tuple es, .tuple fs => Element.meetTuples meet es fs
    | .keyword k, .keyword l => do
      if ← env.isSubset (.keyword k) (.keyword l) then pure (.keyword k)
      else if ← env.isSubset (.keyword l) (.keyword k) then pure (.keyword l)
      else pure (.intersection [.keyword k, .keyword l])
    | .keyword _, b => pure b
    | a, .keyword _ => pure a
    | a, b => pure (.intersection [a, b])

/-- The intersection inside the pairs of `expanding`; a pair met again behind references stays lazy. -/
def meetWithin : Nat → List (Schema × Schema) → Schema → Schema → Compose Schema
  | 0, _, a, b => pure (.intersection [a, b])
  | fuel + 1, expanding, a, b =>
    let meet := meetWithin fuel expanding
    if a.same b then pure a
    else if a.isUnknown then pure b
    else if b.isUnknown then pure a
    else if a.isNever || b.isNever then Compose.unsatisfiable a b .never
    else if a.isRef || b.isRef then do
      a.hashable b
      if a.pairIn b expanding then pure (.intersection [a, b])
      else
        match ← env.behind? a, ← env.behind? b with
        | some s, some t => meetWithin fuel ((a, b) :: expanding) s t
        | _, _ => do
          Compose.defer
          pure (.intersection [a, b])
    else
      match a, b with
      | .union bs, b => meetBranches env (.union bs) b bs fun s => meet s b
      | a, .union bs => meetBranches env (.union bs) a bs fun s => meet a s
      | a, b => meetPlain env meet a b

/-- The intersection of two schemas, and whether it met a pending definition. -/
def intersect (a b : Schema) : Except Fault Schema × Bool :=
  ((meetWithin env (env.pairFuel a b) [] a b).run false)

end Env
end Schemata
