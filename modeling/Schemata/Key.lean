import Schemata.Value.Printer

/-! Property keys. Names and symbols are two disjoint kinds; numbers have no kind of their own and count
as their decimal text. The index marker stands for all keys of an index signature. -/
namespace Schemata

inductive Key where
  | name (s : String)
  | symbol (s : Symbol)
  | index
  deriving DecidableEq

namespace Key

/-- The key that a value stands for: integral numbers by their integer, other numbers by their text, keys
by themselves. Truth values and everything else are no keys. -/
def ofValue? : Value → Option Key
  | .symbol s => some (.symbol s)
  | .string s => some (.name s)
  | .number n => some (.name (match n.toInt? with
    | some i => toString i
    | none => n.text))
  | .record .key _ [_, .string s] => some (.name s)
  | .record .key _ [_, .symbol s] => some (.symbol s)
  | .record .key _ [_, .null] => some .index
  | _ => none

/-- The key as it stands in a checked mapping. -/
def toValue : Key → Value
  | .name s => .string s
  | .symbol s => .symbol s
  | .index => .null

def text : Key → String
  | .name s => s
  | .symbol s => "[" ++ s.printed ++ "]"
  | .index => "[index]"

/-- Name of the key's kind. -/
def kind : Key → String
  | .name _ => "string"
  | .symbol _ => "symbol"
  | .index => "index"

/-- The key as data: its kind beside what it holds. -/
def toData (k : Key) : Value :=
  .record .key none [.choice "KeyDomain" k.kind, k.toValue]

theorem ofValue?_toData (k : Key) : ofValue? k.toData = some k := by
  cases k <;> rfl

end Key
end Schemata
