import Schemata.Value.Equality
import Schemata.Value.Printer

/-! Constraints: atomic checks attached to a schema. -/
namespace Schemata

/-- Bounds on numbers. Any value may be given as a bound; one without an order to numbers shows when a
number is compared with it. -/
structure Range where
  least : Option Value
  greatest : Option Value
  aboveLeast : Bool
  belowGreatest : Bool

/-- Bounds on the length of strings and sequences. -/
structure Length where
  least : Option Int
  greatest : Option Int
  deriving DecidableEq

/-- A regular expression that a string has to match somewhere. -/
structure Pattern where
  source : String
  flags : Int
  label : Option String
  deriving DecidableEq

/-- Classes that values can be told apart by. -/
inductive TypeTag where
  | int | float | str | bool | list | tuple | dict | none | any | symbol | bytes
  deriving DecidableEq

/-- A narrowing function, under the name that messages use. -/
structure Predicate where
  function : String
  name : String
  deriving DecidableEq

inductive Constraint where
  | range (r : Range)
  | length (l : Length)
  | pattern (p : Pattern)
  | equals (v : Value)
  | type (t : TypeTag)
  | predicate (p : Predicate)

/-- Text that is given and not empty. -/
def nonempty? : Option String → Option String
  | some "" => none
  | s => s

def sameBound : Option Value → Option Value → Bool
  | none, none => true
  | some a, some b => a.same b
  | _, _ => false

namespace Range

def same (a b : Range) : Bool :=
  sameBound a.least b.least && sameBound a.greatest b.greatest && a.aboveLeast == b.aboveLeast &&
    a.belowGreatest == b.belowGreatest

def description (r : Range) : String :=
  let low := r.least.toList.map fun n => (if r.aboveLeast then ">" else ">=") ++ n.bareText
  let high := r.greatest.toList.map fun n => (if r.belowGreatest then "<" else "<=") ++ n.bareText
  if (low ++ high).isEmpty then "range" else "range[" ++ ", ".intercalate (low ++ high) ++ "]"

end Range

namespace Length

def description (l : Length) : String :=
  match l.least, l.greatest with
  | some a, some b => "length[" ++ toString a ++ "," ++ toString b ++ "]"
  | some a, none => "min_length[" ++ toString a ++ "]"
  | none, some b => "max_length[" ++ toString b ++ "]"
  | none, none => "length"

end Length

namespace Pattern

def description (p : Pattern) : String :=
  (nonempty? p.label).getD ("pattern[" ++ p.source ++ "]")

end Pattern

namespace TypeTag

def all : List TypeTag :=
  [.int, .float, .str, .bool, .list, .tuple, .dict, .none, .any, .symbol, .bytes]

def name : TypeTag → String
  | .int => "int"
  | .float => "float"
  | .str => "str"
  | .bool => "bool"
  | .list => "list"
  | .tuple => "tuple"
  | .dict => "dict"
  | .none => "NoneType"
  | .any => "object"
  | .symbol => "Symbol"
  | .bytes => "bytes"

def ofName? (s : String) : Option TypeTag :=
  all.find? fun t => t.name == s

/-- Name of the class with its module, where that is not the one of all basic classes. -/
def classPath : TypeTag → String
  | .symbol => "shapeguard.validation.keys.Symbol"
  | t => t.name

def ofClassPath? (s : String) : Option TypeTag :=
  all.find? fun t => t.classPath == s

/-- Truth values are integers too, and everything is an object. -/
def holds (v : Value) : TypeTag → Bool
  | .any => true
  | .int => !v.isForeign && (v.typeName == "int" || v.typeName == "bool")
  | t => !v.isForeign && v.typeName == t.name

end TypeTag

namespace Constraint

def description : Constraint → String
  | .range r => r.description
  | .length l => l.description
  | .pattern p => p.description
  | .equals v => "=== " ++ v.printed
  | .type t => "instanceof[" ++ t.name ++ "]"
  | .predicate p => p.name

def same : Constraint → Constraint → Bool
  | .range a, .range b => a.same b
  | .length a, .length b => a == b
  | .pattern a, .pattern b => a == b
  | .equals a, .equals b => a.same b
  | .type a, .type b => a == b
  | .predicate a, .predicate b => a == b
  | _, _ => false

/-- First container in the constraint that may change. -/
def changeable? : Constraint → Option String
  | .range r => (r.least.bind (·.changeable?)).or (r.greatest.bind (·.changeable?))
  | .equals v => v.changeable?
  | _ => none

end Constraint

/-! Constraints as data: one record of the parts for each kind. -/

/-- A part that may be missing. -/
def Value.ofOption {α : Type} (f : α → Value) : Option α → Value
  | some a => f a
  | none => .null

/-- Nothing for a bare null. -/
def Value.given? : Value → Option Value
  | .null => none
  | v => some v

namespace Constraint

def toData : Constraint → Value
  | .range r =>
    .record .range none
      [.ofOption id r.least, .ofOption id r.greatest, .bool r.aboveLeast, .bool r.belowGreatest]
  | .length l => .record .length none [.ofOption .int l.least, .ofOption .int l.greatest]
  | .pattern p => .record .pattern none [.string p.source, .int p.flags, .ofOption .string p.label]
  | .equals v => .record .equals none [v]
  | .type t => .record .typeTag none [.callable ⟨t.classPath, true, true⟩]
  | .predicate p => .record .predicate none [.callable ⟨p.function, false, true⟩, .string p.name]

def lengthBound? : Value → Option Int
  | .number (.int n) => some n
  | _ => none

def label? : Value → Option String
  | .string s => some s
  | _ => none

/-- The constraint that a record stands for. -/
def ofData? : Value → Option Constraint
  | .record .range _ [least, greatest, .bool above, .bool below] =>
    some (.range ⟨least.given?, greatest.given?, above, below⟩)
  | .record .length _ [least, greatest] => some (.length ⟨lengthBound? least, lengthBound? greatest⟩)
  | .record .pattern _ [.string source, .number (.int flags), label] =>
    some (.pattern ⟨source, flags, label? label⟩)
  | .record .equals _ [v] => some (.equals v)
  | .record .typeTag _ [.callable c] => (TypeTag.ofClassPath? c.name).map .type
  | .record .predicate _ [.callable c, .string name] => some (.predicate ⟨c.name, name⟩)
  | _ => none

end Constraint
end Schemata
