import Schemata.Constraint
import Schemata.Value.Order

/-! Bounds met with bounds. `narrow` is the conjunction of two bounds, nothing when they are disjoint;
`covers` holds when narrowing changes nothing. -/
namespace Schemata
namespace Range

/-- The tighter of two bounds on one side: the second where it compares so to the first. Equal bounds are
open when one of them is. -/
def tighter (c : Comparison) :
    Option Value × Bool → Option Value × Bool → Except Incomparable (Option Value × Bool)
  | (none, _), b => .ok b
  | a, (none, _) => .ok a
  | (some a, aOpen), (some b, bOpen) =>
    if a.equal b then .ok (some a, aOpen || bOpen)
    else do
      let chosen := if ← Value.holds c b a then b else a
      pure (some chosen, if chosen.equal a then aOpen else bOpen)

/-- No number lies between the bounds. -/
def isEmpty (r : Range) : Except Incomparable Bool :=
  match r.least, r.greatest with
  | some a, some b => do
    if ← Value.holds .greater a b then pure true
    else pure (a.equal b && (r.aboveLeast || r.belowGreatest))
  | _, _ => .ok false

def narrow (a b : Range) : Except Incomparable (Option Range) := do
  let low ← tighter .greater (a.least, a.aboveLeast) (b.least, b.aboveLeast)
  let high ← tighter .less (a.greatest, a.belowGreatest) (b.greatest, b.belowGreatest)
  let r : Range := ⟨low.1, high.1, low.2, high.2⟩
  if ← r.isEmpty then pure none else pure (some r)

def covers (a b : Range) : Except Incomparable Bool := do
  match ← a.narrow b with
  | some r => pure (r.same b)
  | none => pure false

end Range

namespace Length

def meet (pick : Int → Int → Int) : Option Int → Option Int → Option Int
  | none, b => b
  | a, none => a
  | some a, some b => some (pick a b)

def isEmpty (l : Length) : Bool :=
  match l.least, l.greatest with
  | some a, some b => decide (b < a)
  | _, _ => false

def narrow? (a b : Length) : Option Length :=
  let l : Length := ⟨meet max a.least b.least, meet min a.greatest b.greatest⟩
  if l.isEmpty then none else some l

def covers (a b : Length) : Bool :=
  a.narrow? b == some b

end Length

namespace Constraint

/-- Conjunction of two bounds of one kind, empty when they are disjoint; nothing for other pairs. -/
def narrow? : Constraint → Constraint → Option (Except Incomparable (Option Constraint))
  | .range a, .range b => some ((a.narrow b).map fun r => r.map .range)
  | .length a, .length b => some (.ok ((a.narrow? b).map .length))
  | _, _ => none

def covers : Constraint → Constraint → Except Incomparable Bool
  | .range a, .range b => a.covers b
  | .length a, .length b => .ok (a.covers b)
  | _, _ => .ok false

end Constraint
end Schemata
