import Schemata.Number

/-! Decimal text of numbers. A binary64 value is written with the fewest digits that read back to it, the
nearest of those to the value; reading rounds to the nearest value, ties to even. -/
namespace Schemata.Decimal

/-- `digits * 10 ^ exponent`. -/
structure Scaled where
  digits : Nat
  exponent : Int
  deriving DecidableEq

def tenTo (n : Nat) : Nat := Nat.pow 10 n

def digitCount (n : Nat) : Nat :=
  (Nat.toDigits 10 n).length

/-- Drops the last digits of `n` while they are zeros, at most `fuel` of them. -/
def stripZeros : Nat → Scaled → Scaled
  | 0, s => s
  | fuel + 1, s =>
    if s.digits % 10 = 0 then stripZeros fuel ⟨s.digits / 10, s.exponent + 1⟩ else s

/-- The reals that round to one magnitude, in quarters of a unit; `closed` when the ends round to it too. -/
structure Interval where
  value : Nat
  lower : Nat
  upper : Nat
  closed : Bool

def interval (magnitude : Nat) : Interval :=
  let step := magnitude.log2 - 52
  let mantissa := magnitude >>> step
  let below := if mantissa = twoTo 52 ∧ 0 < step then twoTo step else 2 * twoTo step
  ⟨4 * magnitude, 4 * magnitude - below, 4 * magnitude + 2 * twoTo step, mantissa % 2 == 0⟩

/-- Exponent of the first decimal digit of a positive magnitude. -/
def leadingExponent (magnitude : Nat) : Int :=
  (digitCount (magnitude * tenTo 400 / unitsPerOne) : Int) - 401

/-- The better of the two neighbours of the value on the grid of multiples of `10 ^ exponent`, if one of
them reads back. -/
def onGrid? (i : Interval) (exponent : Int) : Option Scaled :=
  let grain := tenTo exponent.toNat * (4 * unitsPerOne)
  let shrink := tenTo (-exponent).toNat
  let value := i.value * shrink
  let count := value / grain
  let inside := fun c : Nat =>
    let p := c * grain
    if i.closed then decide (i.lower * shrink ≤ p ∧ p ≤ i.upper * shrink)
    else decide (i.lower * shrink < p ∧ p < i.upper * shrink)
  let down := value - count * grain
  let up := (count + 1) * grain - value
  match inside count, inside (count + 1) with
  | true, true =>
    if down < up ∨ (down = up ∧ count % 2 = 0) then some ⟨count, exponent⟩ else some ⟨count + 1, exponent⟩
  | true, false => some ⟨count, exponent⟩
  | false, true => some ⟨count + 1, exponent⟩
  | false, false => none

/-- Fewest digits that read back to a positive magnitude; seventeen always do. -/
def shortest (magnitude : Nat) : Scaled :=
  let i := interval magnitude
  let lead := leadingExponent magnitude
  let found := (List.range 17).findSome? fun (n : Nat) => onGrid? i (lead - (n : Int))
  stripZeros 400 (found.getD ⟨0, 0⟩)

def zeros (n : Nat) : String :=
  String.ofList (List.replicate n '0')

/-- Positional from 10⁻⁴ up to 10¹⁶, else with an exponent of two digits at least; a value without
fraction keeps one zero after the point. -/
def layout (s : Scaled) : String :=
  let digits := Nat.toDigits 10 s.digits
  let count := digits.length
  let place := (count : Int) + s.exponent
  if -4 < place ∧ place ≤ 16 then
    if place ≤ 0 then "0." ++ zeros (-place).toNat ++ String.ofList digits
    else if (count : Int) ≤ place then String.ofList digits ++ zeros (place - count).toNat ++ ".0"
    else String.ofList (digits.take place.toNat) ++ "." ++ String.ofList (digits.drop place.toNat)
  else
    let exponent := place - 1
    let power := toString exponent.natAbs
    let rest := digits.drop 1
    String.ofList (digits.take 1) ++ (if rest.isEmpty then "" else "." ++ String.ofList rest) ++
      (if exponent < 0 then "e-" else "e+") ++ zeros (2 - power.length) ++ power

/-- Nearest integer to a quotient, a tie to the even one. -/
def roundToEven (num den : Nat) : Nat :=
  let q := num / den
  let r := num % den
  if 2 * r < den then q else if den < 2 * r then q + 1 else q + q % 2

/-- The binary64 value nearest to `digits * 10 ^ exponent`. -/
def nearest (negative : Bool) (s : Scaled) : Double :=
  let num := s.digits * tenTo s.exponent.toNat * unitsPerOne
  let den := tenTo (-s.exponent).toNat
  let step := (num / den).log2 - 52
  let magnitude := roundToEven num (den * twoTo step) * twoTo step
  if magnitude < twoTo 2098 then .finite negative magnitude else .infinite negative

def natOfDigits (cs : List Char) : Nat :=
  cs.foldl (fun n c => 10 * n + (c.toNat - '0'.toNat)) 0

def signed : List Char → Bool × List Char
  | '-' :: cs => (true, cs)
  | '+' :: cs => (false, cs)
  | cs => (false, cs)

/-- Reads an optional exponent mark; anything else after the digits is refused. -/
def exponent? : List Char → Option Int
  | [] => some 0
  | 'e' :: cs =>
    let (negative, ds) := signed cs
    if ds.isEmpty || !ds.all Char.isDigit then none
    else some (if negative then -(natOfDigits ds : Int) else natOfDigits ds)
  | _ => none

/-- Reads digits with an optional point and exponent. -/
def scaled? (cs : List Char) : Option Scaled :=
  let whole := cs.takeWhile Char.isDigit
  let (fraction, rest) := match cs.dropWhile Char.isDigit with
    | '.' :: r => (r.takeWhile Char.isDigit, r.dropWhile Char.isDigit)
    | r => ([], r)
  if (whole ++ fraction).isEmpty then none
  else (exponent? rest).map fun e => ⟨natOfDigits (whole ++ fraction), e - fraction.length⟩

end Schemata.Decimal

namespace Schemata
open Decimal

namespace Double

def text : Double → String
  | .nan _ => "nan"
  | .infinite true => "-inf"
  | .infinite false => "inf"
  | .finite negative 0 => if negative then "-0.0" else "0.0"
  | .finite negative m => (if negative then "-" else "") ++ layout (shortest m)

/-- Reads a written binary64 value; a NaN becomes the given occurrence. -/
def read? (occurrence : Nat) (s : String) : Option Double :=
  let (negative, cs) := signed s.toList
  match String.ofList cs with
  | "nan" => some (.nan occurrence)
  | "inf" => some (.infinite negative)
  | _ => (scaled? cs).map (nearest negative)

end Double

def Number.text : Number → String
  | .int n => toString n
  | .double d => d.text

end Schemata
