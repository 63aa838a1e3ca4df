import Schemata.Regex

/-! How many characters an expression can match. -/
namespace Schemata.Regex

/-- Least and greatest number of characters; neither counts beyond a limit. -/
structure Width where
  least : Nat
  greatest : Nat

namespace Width

def limit : Nat := 0x10000000000000000

def of (least greatest : Nat) : Width := ⟨min least limit, min greatest limit⟩

def zero : Width := ⟨0, 0⟩

def add (a b : Width) : Width := of (a.least + b.least) (a.greatest + b.greatest)

def either (a b : Width) : Width := ⟨min a.least b.least, max a.greatest b.greatest⟩

/-- Without `most` the rounds have no greatest number. -/
def times (a : Width) (least : Nat) (most : Option Nat) : Width :=
  of (a.least * least) (most.elim (if a.greatest = 0 then 0 else limit) (a.greatest * ·))

/-- Greatest width of a look behind a place. -/
def fixedLimit : Nat := 0xffffffff

/-- The one width that there is. -/
def fixed? (a : Width) : Option Nat :=
  if a.least = a.greatest ∧ a.least ≤ fixedLimit then some a.least else none

end Width

mutual
/-- Width of a part, from those of the groups closed before it. Looks consume nothing. -/
def width (groups : List (Nat × Width)) : Regex → Width
  | .char _ => ⟨1, 1⟩
  | .anchor _ => .zero
  | .sequence parts => widthAll groups parts
  | .choice parts => widthAny groups parts
  | .repeated _ least most part => (width groups part).times least most
  | .atomic part => width groups part
  | .ahead _ _ => .zero
  | .behind _ _ _ => .zero
  | .group _ part => width groups part
  | .flagged _ part => width groups part
  | .again number => (groups.lookup number).getD .zero
  | .given _ yes no => (width groups yes).either (width groups no)
termination_by structural r => r
def widthAll (groups : List (Nat × Width)) : List Regex → Width
  | [] => .zero
  | r :: rest => (width groups r).add (widthAll groups rest)
termination_by structural rs => rs
def widthAny (groups : List (Nat × Width)) : List Regex → Width
  | [] => .zero
  | [r] => width groups r
  | r :: rest => (width groups r).either (widthAny groups rest)
termination_by structural rs => rs
end

end Schemata.Regex
