import Schemata.Value.Equality

/-! The order of values. Numbers, texts, bytes, lists and tuples are ordered, each kind by itself; sequences
by the first place where they differ. All other pairs have no order. -/
namespace Schemata

inductive Comparison where
  | less
  | atMost
  | greater
  | atLeast
  deriving DecidableEq

namespace Comparison

def sign : Comparison → String
  | .less => "<"
  | .atMost => "<="
  | .greater => ">"
  | .atLeast => ">="

def holds : Comparison → Ordering → Bool
  | .less, .lt => true
  | .atMost, .lt => true
  | .atMost, .eq => true
  | .greater, .gt => true
  | .atLeast, .gt => true
  | .atLeast, .eq => true
  | _, _ => false

end Comparison

/-- Two values without an order, by the names of their classes. -/
structure Incomparable where
  comparison : Comparison
  left : String
  right : String
  deriving DecidableEq

namespace Number

/-- A NaN stands in no order to anything. -/
def order? (a b : Number) : Option Ordering :=
  if a.less b then some .lt
  else if b.less a then some .gt
  else if a.equal b then some .eq
  else none

end Number

namespace Value

def numbersHold (c : Comparison) (a b : Number) : Bool :=
  match a.order? b with
  | some o => c.holds o
  | none => false

def stringOrder (s t : String) : Ordering :=
  if s < t then .lt else if t < s then .gt else .eq

def bytesOrder (bs cs : List UInt8) : Ordering :=
  if bs < cs then .lt else if cs < bs then .gt else .eq

def incomparable (c : Comparison) (v w : Value) : Except Incomparable Bool :=
  .error ⟨c, v.typeName, w.typeName⟩

mutual
def holds (c : Comparison) : Value → Value → Except Incomparable Bool
  | .string s, .string t => .ok (c.holds (stringOrder s t))
  | .bytes bs, .bytes cs => .ok (c.holds (bytesOrder bs cs))
  | .list xs, w => match w.unfold with
    | .list ys => holdsAll c xs ys
    | _ => incomparable c (.list xs) w
  | .tuple l xs, w => match w.unfold with
    | .tuple _ ys => holdsAll c xs ys
    | _ => incomparable c (.tuple l xs) w
  | .knot _ body, w => holds c body w
  | v, w => match v.asNumber?, w.asNumber? with
    | some n, some m => .ok (numbersHold c n m)
    | _, _ => incomparable c v w
termination_by structural v => v
/-- The first place where two sequences differ decides, else their lengths. -/
def holdsAll (c : Comparison) : List Value → List Value → Except Incomparable Bool
  | [], [] => .ok (c.holds .eq)
  | [], _ :: _ => .ok (c.holds .lt)
  | _ :: _, [] => .ok (c.holds .gt)
  | x :: xs, y :: ys => if same x y then holdsAll c xs ys else holds c x y
termination_by structural vs => vs
end

end Value
end Schemata
