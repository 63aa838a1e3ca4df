import Schemata.Algebra.Domains
import Schemata.Schema.Kind

/-! Checked construction of properties, tuple elements, tuples and objects. -/
namespace Schemata

namespace Property

/-- A property needs a key of its own. -/
def make (key : Key) (value : Schema) (presence : Presence) : Except Fault (Property Schema) :=
  match key with
  | .index => .error (.conflict (.namedIndex key))
  | key => .ok ⟨key, value, presence⟩

def ofParts (key : Key) (value : Schema) (kind : PresenceKind) (default : Option Producer) :
    Except Fault (Property Schema) :=
  match key, kind.presence? default with
  | .index, _ => .error (.conflict (.namedIndex key))
  | key, none => .error (.conflict (.misplacedDefault key))
  | key, some presence => .ok ⟨key, value, presence⟩

end Property

namespace Element

def ofParts (kind : RoleKind) (value : Schema) (default : Option Producer) :
    Except Fault (Element Schema) :=
  match kind.role? default with
  | none => .error (.shape (.misplacedDefault kind.name))
  | some role => .ok ⟨role, value⟩

end Element

/-! The legal orders of a tuple: leading, defaultable and optional elements, at most one variadic, trailing
elements only behind a variadic one and never beside optional or defaultable ones. -/
namespace Role

/-- Position of the second variadic element. -/
def secondVariadic? (roles : List Role) : Option Nat :=
  ((roles.zipIdx.filter fun r => r.1.isVariadic)[1]?).map (·.2)

/-- First optional or defaultable element. -/
def omissible? (roles : List Role) : Option (Role × Nat) :=
  roles.zipIdx.find? fun r => r.1.rank == 1 || r.1.rank == 2

/-- First trailing element that no variadic one precedes. -/
def strayTrailing? : Nat → List Role → Option Nat
  | _, [] => none
  | i, r :: rest =>
    if r.isVariadic then none else if r.isTrailing then some i else strayTrailing? (i + 1) rest

/-- First element that ranks below the one before it, with that one. -/
def descent? : Nat → List Role → Option (Role × Role × Nat)
  | i, a :: b :: rest => if b.rank < a.rank then some (b, a, i + 1) else descent? (i + 1) (b :: rest)
  | _, _ => none

def besideTrailing? (roles : List Role) : Option (Role × Nat) :=
  if roles.any isTrailing then omissible? roles else none

def shapeError? (roles : List Role) : Option ShapeError :=
  match secondVariadic? roles, besideTrailing? roles, strayTrailing? 0 roles, descent? 0 roles with
  | some i, _, _, _ => some (.secondVariadic i)
  | none, some (r, i), _, _ => some (.besideTrailing r.name i)
  | none, none, some i, _ => some (.trailingBeforeVariadic i)
  | none, none, none, some (r, before, i) => some (.outOfOrder r.name before.name i)
  | none, none, none, none => none

end Role

namespace Schema

def makeTuple (es : List (Element Schema)) : Except Fault Schema :=
  match Role.shapeError? (es.map (·.role)) with
  | some e => .error (.shape e)
  | none => .ok (.tuple es)

end Schema

namespace ObjectShape

/-- First key that an earlier property has. -/
def repeatedKey? : List Key → List Key → Option Key
  | _, [] => none
  | seen, k :: rest => if seen.contains k then some k else repeatedKey? (k :: seen) rest

/-- Domains of property keys. -/
def keyDomains : DomainSet := .of [.string, .symbol]

end ObjectShape

namespace Env

/-- An object has distinct keys, and an index signature over nothing but strings and symbols. -/
def makeObject (env : Env) (shape : ObjectShape Schema) : Except Fault Schema :=
  match ObjectShape.repeatedKey? [] shape.keys with
  | some k => .error (.conflict (.repeatedKey k))
  | none =>
    match shape.index with
    | none => .ok (.object shape)
    | some i => do
      match ← env.domains? i.key with
      | none => pure (.object shape)
      | some d =>
        if d.subset ObjectShape.keyDomains then pure (.object shape)
        else throw (.conflict (.indexDomain i.key))

end Env

namespace IndexSignature

def numericKey : Schema :=
  .constrained (.keyword .string) [.pattern ⟨"^-?\\d+(\\.\\d+)?$", 0, some "numeric string"⟩]

def integerKey : Schema :=
  .constrained (.keyword .string) [.pattern ⟨"^-?\\d+$", 0, some "integer string"⟩]

/-- Numeric keys are strings that look like numbers. -/
def normalized (key value : Schema) : IndexSignature Schema :=
  match key with
  | .keyword .number => ⟨numericKey, value⟩
  | .keyword .integer => ⟨integerKey, value⟩
  | key => ⟨key, value⟩

end IndexSignature
end Schemata
