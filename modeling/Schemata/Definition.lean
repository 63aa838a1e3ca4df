import Schemata.Schema.Data

/-! Definitions: plain data that describes schemas, with finished schemas and constraints anywhere in it. -/
namespace Schemata.Value

/-- The text of a value that is one. -/
def string? : Value → Option String
  | .string s => some s
  | _ => none

def isToken (token : String) (v : Value) : Bool :=
  v.string? == some token

def isConstraint : Value → Bool
  | .record kind _ _ => kind.isConstraint
  | _ => false

/-- How a definition stands at a property or a tuple element: as it is, `[d, "?"]`, or `[d, "=", source]`. -/
inductive Form where
  | plain
  | optional
  | default (source : Value)

/-- The form that the items of a sequence write. -/
def formOf : List Value → Form
  | [_, mark] => if mark.isToken "?" then .optional else .plain
  | [_, mark, source] => if mark.isToken "=" then .default source else .plain
  | _ => .plain

def form (v : Value) : Form :=
  match v.items? with
  | some (_, items) => formOf items
  | none => .plain

end Schemata.Value
