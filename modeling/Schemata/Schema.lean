import Schemata.Constraint
import Schemata.Domain
import Schemata.Key

/-! Schemas. A schema describes a set of values; objects and tuples also say how a value is completed and
rebuilt. A reference names a schema that a scope holds, so schemas may be recursive. -/
namespace Schemata

/-- Named sets of values. -/
inductive Keyword where
  | string | number | integer | boolean | symbol | null | undefined | object | unknown
  deriving DecidableEq

/-- What becomes of keys that an object does not declare. -/
inductive Policy where
  | ignore | delete | reject
  deriving DecidableEq

/-- A maker of default values, equal only to itself: a factory is asked for a value, any other source is
the default. -/
structure Producer where
  token : Token
  source : Value
  isFactory : Bool

/-- How an object treats the absence of a property. -/
inductive Presence where
  | required
  | optional
  | defaultable (default : Producer)

structure Property (S : Type) where
  key : Key
  value : S
  presence : Presence

/-- All keys that match `key` hold a `value`. -/
structure IndexSignature (S : Type) where
  key : S
  value : S

structure ObjectShape (S : Type) where
  properties : List (Property S)
  index : Option (IndexSignature S)
  undeclared : Policy

/-- Place of an element in a tuple. -/
inductive Role where
  | leading
  | defaultable (default : Producer)
  | optional
  | variadic
  | trailing

structure Element (S : Type) where
  role : Role
  value : S

/-- A named slot of an arena. -/
structure Ref where
  arena : Nat
  handle : Nat
  name : String
  deriving DecidableEq

inductive Schema where
  | keyword (k : Keyword)
  | literal (v : Value)
  | constrained (base : Schema) (constraints : List Constraint)
  | union (branches : List Schema)
  | intersection (members : List Schema)
  | ref (r : Ref)
  | object (shape : ObjectShape Schema)
  | tuple (elements : List (Element Schema))

namespace Keyword

def all : List Keyword :=
  [.string, .number, .integer, .boolean, .symbol, .null, .undefined, .object, .unknown]

def name : Keyword → String
  | .string => "string"
  | .number => "number"
  | .integer => "integer"
  | .boolean => "boolean"
  | .symbol => "symbol"
  | .null => "null"
  | .undefined => "undefined"
  | .object => "object"
  | .unknown => "unknown"

def ofName? (s : String) : Option Keyword :=
  all.find? fun k => k.name == s

/-- Domains that the keyword reaches into. Everything that is not a plain value is an object. -/
def domains : Keyword → DomainSet
  | .string => .of [.string]
  | .number => .of [.number]
  | .integer => .of [.number]
  | .boolean => .of [.boolean]
  | .symbol => .of [.symbol]
  | .null => .of [.null]
  | .undefined => .of [.undefined]
  | .object => .of [.object, .array, .other]
  | .unknown => fun _ => true

def holds (k : Keyword) (v : Value) : Bool :=
  match k with
  | .integer =>
    match v with
    | .number n => n.toInt?.isSome
    | _ => false
  | k => k.domains v.domain

end Keyword

namespace Policy

def all : List Policy := [.ignore, .delete, .reject]

def name : Policy → String
  | .ignore => "ignore"
  | .delete => "delete"
  | .reject => "reject"

def ofName? (s : String) : Option Policy :=
  all.find? fun p => p.name == s

def strictness : Policy → Nat
  | .ignore => 0
  | .delete => 1
  | .reject => 2

/-- The stricter of two policies. -/
def stricter (a b : Policy) : Policy :=
  if a.strictness < b.strictness then b else a

end Policy

namespace Presence

def name : Presence → String
  | .required => "required"
  | .optional => "optional"
  | .defaultable _ => "defaultable"

def isRequired : Presence → Bool
  | .required => true
  | _ => false

def isOptional : Presence → Bool
  | .optional => true
  | _ => false

def default? : Presence → Option Producer
  | .defaultable p => some p
  | _ => none

end Presence

namespace Role

def name : Role → String
  | .leading => "prefix"
  | .defaultable _ => "defaultable"
  | .optional => "optional"
  | .variadic => "variadic"
  | .trailing => "postfix"

/-- Elements come in the order of their ranks. -/
def rank : Role → Nat
  | .leading => 0
  | .defaultable _ => 1
  | .optional => 2
  | .variadic => 3
  | .trailing => 4

def default? : Role → Option Producer
  | .defaultable p => some p
  | _ => none

def isLeading (r : Role) : Bool := r.rank == 0

def isOptional (r : Role) : Bool := r.rank == 2

def isVariadic (r : Role) : Bool := r.rank == 3

def isTrailing (r : Role) : Bool := r.rank == 4

end Role

namespace ObjectShape

variable {S : Type}

def property? (o : ObjectShape S) (key : Key) : Option (Property S) :=
  o.properties.find? fun p => p.key == key

def declares (o : ObjectShape S) (key : Key) : Bool :=
  o.properties.any fun p => p.key == key

def keys (o : ObjectShape S) : List Key :=
  o.properties.map (·.key)

end ObjectShape

/-! The parts of a tuple: elements before the variadic one, the variadic one, elements behind it. -/
namespace Element

variable {S : Type}

def fixed (es : List (Element S)) : List (Element S) :=
  es.filter fun e => e.role.rank < 3

def variadic? (es : List (Element S)) : Option (Element S) :=
  es.find? fun e => e.role.isVariadic

def trailing (es : List (Element S)) : List (Element S) :=
  es.filter fun e => e.role.isTrailing

/-- The element of a tuple that is an array: one variadic element and nothing else. -/
def array? : List (Element S) → Option (Element S)
  | [e] => if e.role.isVariadic then some e else none
  | _ => none

def leastLength (es : List (Element S)) : Nat :=
  es.countP fun e => e.role.isLeading || e.role.isTrailing

/-- Nothing when a variadic element leaves the length open. -/
def greatestLength? (es : List (Element S)) : Option Nat :=
  if es.any fun e => e.role.isVariadic then none else some es.length

def describedLength (es : List (Element S)) : String :=
  let low := leastLength es
  match greatestLength? es with
  | none => "at least length " ++ toString low
  | some high =>
    if low = high then "exactly length " ++ toString low
    else "between length " ++ toString low ++ " and " ++ toString high

end Element

namespace Schema

/-- The schema without values. -/
def never : Schema := .union []

def unknown : Schema := .keyword .unknown

def array (s : Schema) : Schema := .tuple [⟨.variadic, s⟩]

/-- Branches of a union; any other schema is its own branch. -/
def branches : Schema → List Schema
  | .union bs => bs
  | s => [s]

/-- Members of an intersection; any other schema is its own member. -/
def members : Schema → List Schema
  | .intersection ms => ms
  | s => [s]

/-- Adds constraints behind those that a schema has. -/
def constrain (base : Schema) (added : List Constraint) : Schema :=
  match added, base with
  | [], base => base
  | added, .constrained inner old => .constrained inner (old ++ added)
  | added, base => .constrained base added

/-- A schema without its constraints, and these. -/
def split : Schema → Schema × List Constraint
  | .constrained base cs => (base, cs)
  | s => (s, [])

end Schema
end Schemata
