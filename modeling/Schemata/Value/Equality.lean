import Schemata.Value

/-! Three equalities of values. `same` is the one used inside containers: numbers by value, truth values as
the numbers one and zero, mappings without regard to order, records part by part, identity before
everything. `equal` differs on a NaN only. `literalEqual` keeps the classes of values apart. -/
namespace Schemata.Value

/-- The number that a truth value or a number counts as. -/
def asNumber? : Value → Option Number
  | .bool b => some (.int (if b then 1 else 0))
  | .number n => some n
  | _ => none

def numberSame (n : Number) (v : Value) : Bool :=
  match v.asNumber? with
  | some m => n.same m
  | none => false

mutual
/-- Equality inside containers. A container that contains itself is the same as itself, and as another
container while their items agree. -/
def same : Value → Value → Bool
  | .bool b, w => numberSame (.int (if b then 1 else 0)) w
  | .number n, w => numberSame n w
  | .list xs, w => match w.unfold with
    | .list ys => sameAll xs ys
    | _ => false
  | .tuple _ xs, w => match w.unfold with
    | .tuple _ ys => sameAll xs ys
    | _ => false
  | .mapping xs, w => match w.unfold with
    | .mapping ys => xs.length == ys.length && within xs ys
    | _ => false
  | .record kind none xs, .record other none ys => kind == other && sameAll xs ys
  | .record _ (some t) _, .record _ (some u) _ => t == u
  | .knot l body, w => w.label? == some l || same body w
  | .back l _, w => w.label? == some l
  | .null, .null => true
  | .undefined, .undefined => true
  | .string s, .string t => s == t
  | .symbol s, .symbol t => s == t
  | .bytes bs, .bytes cs => bs == cs
  | .foreign a, .foreign b => a == b
  | .callable c, .callable d => c == d
  | .choice of a, .choice other b => of == other && a == b
  | _, _ => false
termination_by structural v => v
def sameAll : List Value → List Value → Bool
  | [], [] => true
  | x :: xs, y :: ys => same x y && sameAll xs ys
  | _, _ => false
termination_by structural vs => vs
/-- Every entry has a partner: an equal key with an equal item. -/
def within : List (Value × Value) → List (Value × Value) → Bool
  | [], _ => true
  | (k, v) :: rest, ys =>
    (match ys.find? fun y => same k y.1 with
      | some y => same v y.2
      | none => false) && within rest ys
termination_by structural vs => vs
end

def isNaN : Value → Bool
  | .number n => n.isNaN
  | _ => false

/-- Equality of two values met on their own: a NaN does not even equal itself. -/
def equal (a b : Value) : Bool :=
  !a.isNaN && same a b

/-- Equality of literals: truth values, symbols and the empty values equal only themselves, numbers are
compared by value, and any other two values have to be of one class. -/
def literalEqual (a b : Value) : Bool :=
  match a, b with
  | .bool x, .bool y => x == y
  | .bool _, _ => false
  | _, .bool _ => false
  | .number x, .number y => x.equal y
  | _, _ => a.typeName == b.typeName && equal a b

end Schemata.Value
