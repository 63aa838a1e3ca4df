import Schemata.Value.Printer

/-! Domains of values. Every value lies in exactly one; a set of them bounds what a schema accepts. -/
namespace Schemata

inductive Domain where
  | string | number | boolean | symbol | null | undefined | object | array | other
  deriving DecidableEq

namespace Domain

def all : List Domain :=
  [.string, .number, .boolean, .symbol, .null, .undefined, .object, .array, .other]

theorem mem_all (d : Domain) : d ∈ all := by
  cases d <;> decide

def name : Domain → String
  | .string => "string"
  | .number => "number"
  | .boolean => "boolean"
  | .symbol => "symbol"
  | .null => "null"
  | .undefined => "undefined"
  | .object => "object"
  | .array => "array"
  | .other => "other"

end Domain

abbrev DomainSet := Domain → Bool

namespace DomainSet

def of (ds : List Domain) : DomainSet := fun d => ds.contains d

def union (a b : DomainSet) : DomainSet := fun d => a d || b d

def inter (a b : DomainSet) : DomainSet := fun d => a d && b d

def subset (a b : DomainSet) : Bool := Domain.all.all fun d => !a d || b d

def isEmpty (a : DomainSet) : Bool := Domain.all.all fun d => !a d

def toList (a : DomainSet) : List Domain := Domain.all.filter a

/-- Names of the domains in alphabetical order. -/
def names (a : DomainSet) : List String :=
  (a.toList.map Domain.name).mergeSort fun s t => !decide (t < s)

theorem subset_iff {a b : DomainSet} : a.subset b = true ↔ ∀ d, a d = true → b d = true := by
  simp only [subset, List.all_eq_true, Bool.or_eq_true, Bool.not_eq_true']
  constructor
  · intro h d hd
    rcases h d (Domain.mem_all d) with h | h
    · rw [hd] at h; exact absurd h (by decide)
    · exact h
  · intro h d _
    cases hd : a d
    · exact Or.inl rfl
    · exact Or.inr (h d hd)

end DomainSet

namespace Value

def domain : Value → Domain
  | .null => .null
  | .undefined => .undefined
  | .bool _ => .boolean
  | .number _ => .number
  | .string _ => .string
  | .symbol _ => .symbol
  | .bytes _ => .other
  | .foreign _ => .other
  | .callable _ => .other
  | .choice _ _ => .other
  | .list _ => .array
  | .tuple _ _ => .array
  | .mapping _ => .object
  | .record _ _ _ => .other
  | .knot _ body => body.domain
  | .back _ .list => .array
  | .back _ .mapping => .object

/-- Containers are named by their kind, other objects by their class. -/
def described (v : Value) : String :=
  match v.domain with
  | .object => "object"
  | .array => "array"
  | .other => v.typeName
  | _ => v.formatted

def isNumber : Value → Bool
  | .number _ => true
  | _ => false

end Value
end Schemata
