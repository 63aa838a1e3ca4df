import Schemata.Number

/-! Values: what a schema is checked against and what a check puts out. A container that contains itself
is a `knot`: its body names it by `back`. Schemas, constraints and their parts may stand inside data too;
there each is a `record` of its parts. -/
namespace Schemata

/-- Identity of a made thing: `id` tells things apart, `copy` the copies of one. -/
structure Token where
  id : Nat
  copy : Nat
  deriving DecidableEq

def Token.copied (t : Token) (copy : Nat) : Token := ⟨t.id, copy⟩

/-- A key that equals only itself; the description is for reading. -/
structure Symbol where
  token : Token
  description : String
  deriving DecidableEq

/-- Something that can be called without arguments: a class or a function. `titled` says whether it
carries its own name. -/
structure Callable where
  name : String
  isClass : Bool
  titled : Bool
  deriving DecidableEq

/-- Kinds of containers that may contain themselves. -/
inductive Container where
  | list
  | mapping
  deriving DecidableEq

/-- What a record stands for: a schema, a part of a schema, or a constraint. -/
inductive RecordKind where
  | keyword | literal | constrained | union | intersection | ref | object | tuple
  | indexSignature | property | element | producer | key
  | range | length | pattern | equals | typeTag | predicate
  deriving DecidableEq

namespace RecordKind

def name : RecordKind → String
  | .keyword => "Keyword"
  | .literal => "LiteralSchema"
  | .constrained => "Constrained"
  | .union => "UnionSchema"
  | .intersection => "IntersectionSchema"
  | .ref => "Ref"
  | .object => "ObjectSchema"
  | .tuple => "TupleSchema"
  | .indexSignature => "IndexSignature"
  | .property => "PropertyDescriptor"
  | .element => "TupleElement"
  | .producer => "DefaultProducer"
  | .key => "PropertyKey"
  | .range => "Range"
  | .length => "Length"
  | .pattern => "Pattern"
  | .equals => "Equals"
  | .typeTag => "TypeTag"
  | .predicate => "Predicate"

/-- Names of the parts, in their order. -/
def partNames : RecordKind → List String
  | .keyword => ["name"]
  | .literal => ["value", "domain"]
  | .constrained => ["base", "constraints"]
  | .union => ["branches"]
  | .intersection => ["members"]
  | .ref => ["arena", "handle", "name"]
  | .object => ["properties", "index", "undeclared"]
  | .tuple => ["elements"]
  | .indexSignature => ["key", "value"]
  | .property => ["key", "value", "kind", "default"]
  | .element => ["kind", "schema", "default"]
  | .producer => ["source", "is_factory"]
  | .key => ["domain", "value"]
  | .range => ["min_value", "max_value", "exclusive_min", "exclusive_max"]
  | .length => ["min_length", "max_length"]
  | .pattern => ["pattern", "flags", "label"]
  | .equals => ["value"]
  | .typeTag => ["cls"]
  | .predicate => ["fn", "name"]

def isConstraint : RecordKind → Bool
  | .range => true
  | .length => true
  | .pattern => true
  | .equals => true
  | .typeTag => true
  | .predicate => true
  | _ => false

end RecordKind

/-- Keys of one mapping are distinct under `Value.same`. A `foreign` value is an object of a class of that
name, known by identity only. A given tuple has a label, one that a check builds has none. A `choice` is a
member of a closed list. A record with a token is known by that token alone. -/
inductive Value where
  | null
  | undefined
  | bool (b : Bool)
  | number (n : Number)
  | string (s : String)
  | symbol (s : Symbol)
  | bytes (bs : List UInt8)
  | foreign (name : String)
  | callable (c : Callable)
  | choice (of name : String)
  | list (items : List Value)
  | tuple (label : Option Token) (items : List Value)
  | mapping (entries : List (Value × Value))
  | record (kind : RecordKind) (token : Option Token) (parts : List Value)
  | knot (label : Token) (body : Value)
  | back (label : Token) (container : Container)
  deriving Inhabited

abbrev Value.int (n : Int) : Value := .number (.int n)

namespace Value

mutual
/-- Puts `v` in the place of every free `back label`. -/
def bind (label : Token) (v : Value) : Value → Value
  | .back l c => if l = label then v else .back l c
  | .knot l body => if l = label then .knot l body else .knot l (bind label v body)
  | .list items => .list (bindAll label v items)
  | .tuple l items => .tuple l (bindAll label v items)
  | .mapping entries => .mapping (bindEntries label v entries)
  | .record kind token parts => .record kind token (bindAll label v parts)
  | .null => .null
  | .undefined => .undefined
  | .bool b => .bool b
  | .number n => .number n
  | .string s => .string s
  | .symbol s => .symbol s
  | .bytes bs => .bytes bs
  | .foreign name => .foreign name
  | .callable c => .callable c
  | .choice of name => .choice of name
termination_by structural w => w
def bindAll (label : Token) (v : Value) : List Value → List Value
  | [] => []
  | w :: rest => bind label v w :: bindAll label v rest
termination_by structural ws => ws
def bindEntries (label : Token) (v : Value) : List (Value × Value) → List (Value × Value)
  | [] => []
  | (k, w) :: rest => (bind label v k, bind label v w) :: bindEntries label v rest
termination_by structural ws => ws
end

/-- The container behind a knot, with the knot itself where it contains itself. -/
def unfold : Value → Value
  | .knot l body => bind l (.knot l body) body
  | v => v

mutual
/-- Whether the value names a container outside of itself, apart from those of `inside`. -/
def isOpen (inside : List Token) : Value → Bool
  | .back l _ => !inside.contains l
  | .knot l body => isOpen (l :: inside) body
  | .list items => anyOpen inside items
  | .tuple _ items => anyOpen inside items
  | .mapping entries => anyEntryOpen inside entries
  | .record _ _ parts => anyOpen inside parts
  | _ => false
termination_by structural v => v
def anyOpen (inside : List Token) : List Value → Bool
  | [] => false
  | v :: rest => isOpen inside v || anyOpen inside rest
termination_by structural vs => vs
def anyEntryOpen (inside : List Token) : List (Value × Value) → Bool
  | [] => false
  | (k, v) :: rest => isOpen inside k || isOpen inside v || anyEntryOpen inside rest
termination_by structural vs => vs
end

/-- Gives a container around the end of a knot an identity. -/
def labelled (label : Token) (v : Value) : Value :=
  match v with
  | .list _ => if v.isOpen [] then .knot label v else v
  | .tuple _ _ => if v.isOpen [] then .knot label v else v
  | .mapping _ => if v.isOpen [] then .knot label v else v
  | v => v

/-- Identity of a container that contains itself. -/
def label? : Value → Option Token
  | .knot l _ => some l
  | _ => none

/-- What is recognised when it is met again further in. There is only one empty tuple. -/
inductive Identity where
  | container (label : Token)
  | emptyTuple
  deriving DecidableEq

def identity? : Value → Option Identity
  | .knot l _ => some (.container l)
  | .tuple _ [] => some .emptyTuple
  | .tuple (some l) _ => some (.container l)
  | _ => none

/-- The two classes of sequences. -/
inductive Sequence where
  | list
  | tuple
  deriving DecidableEq

def Sequence.make : Sequence → List Value → Value
  | .list, items => .list items
  | .tuple, items => .tuple none items

def items? (v : Value) : Option (Sequence × List Value) :=
  match v.unfold with
  | .list items => some (.list, items)
  | .tuple _ items => some (.tuple, items)
  | _ => none

def entries? (v : Value) : Option (List (Value × Value)) :=
  match v.unfold with
  | .mapping entries => some entries
  | _ => none

/-- Name of the value's class. -/
def typeName : Value → String
  | .null => "NoneType"
  | .undefined => "_Undefined"
  | .bool _ => "bool"
  | .number (.int _) => "int"
  | .number (.double _) => "float"
  | .string _ => "str"
  | .symbol _ => "Symbol"
  | .bytes _ => "bytes"
  | .foreign name => name
  | .callable c => if c.isClass then "type" else "function"
  | .choice of _ => of
  | .list _ => "list"
  | .tuple _ _ => "tuple"
  | .mapping _ => "dict"
  | .record kind _ _ => kind.name
  | .knot _ body => body.typeName
  | .back _ .list => "list"
  | .back _ .mapping => "dict"

/-- What a message calls a value that lacks something: a class goes by its own name. -/
def subject : Value → String
  | .callable ⟨name, true, _⟩ => "type object '" ++ name ++ "'"
  | v => "'" ++ v.typeName ++ "' object"

/-- Objects that are known to no class by their class's name. -/
def isForeign : Value → Bool
  | .foreign _ => true
  | .record _ _ _ => true
  | .choice _ _ => true
  | _ => false

/-- What may be called: classes, functions and constraints. -/
def isCallable : Value → Bool
  | .callable _ => true
  | .record kind _ _ => kind.isConstraint
  | _ => false

/-- What counts as false: nothing, zero and everything empty. -/
def truthy : Value → Bool
  | .null => false
  | .undefined => false
  | .bool b => b
  | .number n => !n.equal (.int 0)
  | .string s => s != ""
  | .bytes bs => !bs.isEmpty
  | .list items => !items.isEmpty
  | .tuple _ items => !items.isEmpty
  | .mapping entries => !entries.isEmpty
  | _ => true

mutual
/-- Whether a deep copy of the value is the value itself. -/
def isShared : Value → Bool
  | .symbol _ => false
  | .list _ => false
  | .mapping _ => false
  | .record _ _ _ => false
  | .knot _ _ => false
  | .back _ _ => false
  | .tuple _ items => areShared items
  | _ => true
termination_by structural v => v
def areShared : List Value → Bool
  | [] => true
  | v :: rest => isShared v && areShared rest
termination_by structural vs => vs
end

mutual
/-- A deep copy. Symbols, records and containers become other ones, numbered `copy`; a tuple of values that
stay themselves stays itself, like all else. -/
def copied (copy : Nat) : Value → Value
  | .symbol s => .symbol ⟨s.token.copied copy, s.description⟩
  | .list items => .list (copiedAll copy items)
  | .tuple label items =>
    .tuple (if areShared items then label else label.map (·.copied copy)) (copiedAll copy items)
  | .mapping entries => .mapping (copiedEntries copy entries)
  | .record kind token parts => .record kind (token.map (·.copied copy)) (copiedAll copy parts)
  | .knot l body => .knot (l.copied copy) (copied copy body)
  | .back l c => .back (l.copied copy) c
  | .null => .null
  | .undefined => .undefined
  | .bool b => .bool b
  | .number n => .number n
  | .string s => .string s
  | .bytes bs => .bytes bs
  | .foreign name => .foreign name
  | .callable c => .callable c
  | .choice of name => .choice of name
termination_by structural v => v
def copiedAll (copy : Nat) : List Value → List Value
  | [] => []
  | v :: rest => copied copy v :: copiedAll copy rest
termination_by structural vs => vs
def copiedEntries (copy : Nat) : List (Value × Value) → List (Value × Value)
  | [] => []
  | (k, v) :: rest => (copied copy k, copied copy v) :: copiedEntries copy rest
termination_by structural vs => vs
end

mutual
/-- Whether the value can be copied: the schema of an object, anywhere inside, cannot. -/
def isCopyable : Value → Bool
  | .record .object _ _ => false
  | .record _ _ parts => areCopyable parts
  | .list items => areCopyable items
  | .tuple _ items => areCopyable items
  | .mapping entries => areEntriesCopyable entries
  | .knot _ body => isCopyable body
  | _ => true
termination_by structural v => v
def areCopyable : List Value → Bool
  | [] => true
  | v :: rest => isCopyable v && areCopyable rest
termination_by structural vs => vs
def areEntriesCopyable : List (Value × Value) → Bool
  | [] => true
  | (k, v) :: rest => isCopyable k && isCopyable v && areEntriesCopyable rest
termination_by structural vs => vs
end

mutual
/-- First container inside the value, itself included, that may change and so cannot be part of a key. -/
def changeable? : Value → Option String
  | .list _ => some "list"
  | .mapping _ => some "dict"
  | .tuple _ items => anyChangeable? items
  | .record _ none parts => anyChangeable? parts
  | .knot _ body => changeable? body
  | .back _ .list => some "list"
  | .back _ .mapping => some "dict"
  | _ => none
termination_by structural v => v
def anyChangeable? : List Value → Option String
  | [] => none
  | v :: rest => (changeable? v).or (anyChangeable? rest)
termination_by structural vs => vs
end

end Value
end Schemata
