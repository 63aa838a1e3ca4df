/-! Keys with what stands under them, in the order in which the keys were first put. -/
namespace Schemata.Entries

variable {κ α : Type} [BEq κ]

/-- What is put under a known key takes the place of the old. -/
def put (entries : List (κ × α)) (key : κ) (a : α) : List (κ × α) :=
  if entries.any fun e => e.1 == key then entries.map fun e => if e.1 == key then (e.1, a) else e
  else entries ++ [(key, a)]

def ofList (given : List (κ × α)) : List (κ × α) :=
  given.foldl (fun entries e => put entries e.1 e.2) []

end Schemata.Entries
