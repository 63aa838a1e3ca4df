/-! Numbers: integers of any size beside binary64 values. The two kinds are compared exactly, as points
of one line counted in units of 2⁻¹⁰⁷⁴. -/
namespace Schemata

/-- A binary64 value. A finite one is `magnitude` units of 2⁻¹⁰⁷⁴, so zero keeps its sign. A NaN carries
the occurrence that made it: it equals nothing, but a container still recognises the one it holds. -/
inductive Double where
  | nan (occurrence : Nat)
  | infinite (negative : Bool)
  | finite (negative : Bool) (magnitude : Nat)
  deriving DecidableEq

inductive Number where
  | int (value : Int)
  | double (value : Double)
  deriving DecidableEq

/-- A point of the number line with both its ends. -/
inductive Point where
  | below
  | finite (units : Int)
  | above
  deriving DecidableEq

namespace Point

def less : Point → Point → Bool
  | .below, .below => false
  | .below, _ => true
  | .finite _, .below => false
  | .finite a, .finite b => decide (a < b)
  | .finite _, .above => true
  | .above, _ => false

end Point

/-- Powers of two. -/
def twoTo (n : Nat) : Nat := Nat.pow 2 n

/-- Units in one. -/
def unitsPerOne : Nat := twoTo 1074

namespace Double

/-- Place on the line; a NaN has none. -/
def point? : Double → Option Point
  | .nan _ => none
  | .infinite true => some .below
  | .infinite false => some .above
  | .finite true m => some (.finite (-(m : Int)))
  | .finite false m => some (.finite m)

def isNaN : Double → Bool
  | .nan _ => true
  | _ => false

def isFinite : Double → Bool
  | .finite _ _ => true
  | _ => false

/-- The integer that a finite value without fractional part stands for. -/
def toInt? : Double → Option Int
  | .finite negative m =>
    if m % unitsPerOne = 0 then
      some (if negative then -((m / unitsPerOne : Nat) : Int) else (m / unitsPerOne : Nat))
    else none
  | _ => none

end Double

namespace Number

def point? : Number → Option Point
  | .int n => some (.finite (n * unitsPerOne))
  | .double d => d.point?

def isNaN : Number → Bool
  | .int _ => false
  | .double d => d.isNaN

/-- Equality of values; a NaN equals nothing. -/
def equal : Number → Number → Bool
  | .int m, .int n => m == n
  | a, b =>
    match a.point?, b.point? with
    | some p, some q => p == q
    | _, _ => false

def less : Number → Number → Bool
  | .int m, .int n => decide (m < n)
  | a, b =>
    match a.point?, b.point? with
    | some p, some q => p.less q
    | _, _ => false

/-- Equality inside containers: equal values, or one and the same NaN. -/
def same (a b : Number) : Bool :=
  a.equal b || (a.isNaN && a == b)

def toInt? : Number → Option Int
  | .int n => some n
  | .double d => d.toInt?

end Number
end Schemata
