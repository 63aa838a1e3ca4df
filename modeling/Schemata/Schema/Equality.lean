import Schemata.Schema

/-! Equality of schemas: the same tree, with literals and bounds compared by value inside one domain and
default producers by identity. -/
namespace Schemata

def Producer.same (a b : Producer) : Bool := a.token == b.token

namespace Presence

def same : Presence → Presence → Bool
  | .required, .required => true
  | .optional, .optional => true
  | .defaultable p, .defaultable q => p.same q
  | _, _ => false

end Presence

namespace Role

def same : Role → Role → Bool
  | .leading, .leading => true
  | .defaultable p, .defaultable q => p.same q
  | .optional, .optional => true
  | .variadic, .variadic => true
  | .trailing, .trailing => true
  | _, _ => false

end Role

namespace Constraint

def sameAll : List Constraint → List Constraint → Bool
  | [], [] => true
  | c :: cs, d :: ds => c.same d && sameAll cs ds
  | _, _ => false

end Constraint

namespace Schema

mutual
def same : Schema → Schema → Bool
  | .keyword k, .keyword l => k == l
  | .literal v, .literal w => v.same w && v.domain == w.domain
  | .constrained s cs, .constrained t ds => same s t && Constraint.sameAll cs ds
  | .union bs, .union cs => sameAll bs cs
  | .intersection ms, .intersection ns => sameAll ms ns
  | .ref r, .ref q => r == q
  | .object ⟨ps, i, u⟩, .object o =>
    sameProperties ps o.properties && sameIndex i o.index && u == o.undeclared
  | .tuple es, .tuple fs => sameElements es fs
  | _, _ => false
termination_by structural s => s
def sameAll : List Schema → List Schema → Bool
  | [], [] => true
  | s :: rest, t :: others => same s t && sameAll rest others
  | _, _ => false
termination_by structural ss => ss
def sameProperties : List (Property Schema) → List (Property Schema) → Bool
  | [], [] => true
  | ⟨k, s, p⟩ :: rest, q :: others =>
    k == q.key && same s q.value && p.same q.presence && sameProperties rest others
  | _, _ => false
termination_by structural ps => ps
def sameIndex : Option (IndexSignature Schema) → Option (IndexSignature Schema) → Bool
  | none, none => true
  | some ⟨k, s⟩, some j => same k j.key && same s j.value
  | _, _ => false
termination_by structural i => i
def sameElements : List (Element Schema) → List (Element Schema) → Bool
  | [], [] => true
  | ⟨r, s⟩ :: rest, f :: others => r.same f.role && same s f.value && sameElements rest others
  | _, _ => false
termination_by structural es => es
end

def isUnknown : Schema → Bool
  | .keyword .unknown => true
  | _ => false

def isNever : Schema → Bool
  | .union [] => true
  | _ => false

/-- Whether the schema occurs in a list. -/
def isIn (s : Schema) (ss : List Schema) : Bool :=
  ss.any fun t => t.same s

/-- Keeps the first of equal schemas. -/
def distinct : List Schema → List Schema :=
  List.foldl (fun kept s => if s.isIn kept then kept else kept ++ [s]) []

def anyConstraintChangeable? : List Constraint → Option String
  | [] => none
  | c :: cs => c.changeable?.or (anyConstraintChangeable? cs)

mutual
/-- First container inside the schema that may change; a schema with one cannot be part of a key. -/
def changeable? : Schema → Option String
  | .keyword _ => none
  | .literal v => v.changeable?
  | .constrained s cs => (changeable? s).or (anyConstraintChangeable? cs)
  | .union bs => anyChangeable? bs
  | .intersection ms => anyChangeable? ms
  | .ref _ => none
  | .object ⟨ps, i, _⟩ => (anyPropertyChangeable? ps).or (indexChangeable? i)
  | .tuple es => anyElementChangeable? es
termination_by structural s => s
def anyChangeable? : List Schema → Option String
  | [] => none
  | s :: rest => (changeable? s).or (anyChangeable? rest)
termination_by structural ss => ss
def anyPropertyChangeable? : List (Property Schema) → Option String
  | [] => none
  | ⟨_, s, _⟩ :: rest => (changeable? s).or (anyPropertyChangeable? rest)
termination_by structural ps => ps
def indexChangeable? : Option (IndexSignature Schema) → Option String
  | none => none
  | some ⟨k, s⟩ => (changeable? k).or (changeable? s)
termination_by structural i => i
def anyElementChangeable? : List (Element Schema) → Option String
  | [] => none
  | ⟨_, s⟩ :: rest => (changeable? s).or (anyElementChangeable? rest)
termination_by structural es => es
end

mutual
/-- Number of schemas in the tree. -/
def size : Schema → Nat
  | .keyword _ => 1
  | .literal _ => 1
  | .constrained s _ => size s + 1
  | .union bs => sizeAll bs + 1
  | .intersection ms => sizeAll ms + 1
  | .ref _ => 1
  | .object ⟨ps, i, _⟩ => sizeProperties ps + sizeIndex i + 1
  | .tuple es => sizeElements es + 1
termination_by structural s => s
def sizeAll : List Schema → Nat
  | [] => 0
  | s :: rest => size s + sizeAll rest
termination_by structural ss => ss
def sizeProperties : List (Property Schema) → Nat
  | [] => 0
  | ⟨_, s, _⟩ :: rest => size s + sizeProperties rest
termination_by structural ps => ps
def sizeIndex : Option (IndexSignature Schema) → Nat
  | none => 0
  | some ⟨k, s⟩ => size k + size s
termination_by structural i => i
def sizeElements : List (Element Schema) → Nat
  | [] => 0
  | ⟨_, s⟩ :: rest => size s + sizeElements rest
termination_by structural es => es
end

end Schema
end Schemata
