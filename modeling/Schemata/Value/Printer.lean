import Schemata.Decimal
import Schemata.Text.Quoted
import Schemata.Value

/-! The text of values in messages: `printed` shows a value as it is written, `formatted` as a schema's
reader writes it, `bareText` keeps strings and keys bare. -/
namespace Schemata

def Callable.printed (c : Callable) : String :=
  if c.isClass then "<class " ++ Text.quoted c.name ++ ">" else "<function " ++ c.name ++ ">"

def Symbol.printed (s : Symbol) : String :=
  "Symbol(" ++ s.description ++ ")"

namespace Value

/-- What stands for a container inside itself. -/
def ellipsis : Value → String
  | .list _ => "[...]"
  | .tuple _ _ => "(...)"
  | _ => "\x7b...\x7d"

/-- A tuple of one item keeps a comma. -/
def parenthesized : List String → String
  | [item] => "(" ++ item ++ ",)"
  | items => "(" ++ ", ".intercalate items ++ ")"

/-- A member of a closed list, under its list's name. -/
def choiceText (of name : String) : String :=
  "<" ++ of ++ "." ++ name.map Char.toUpper ++ ": " ++ Text.quoted name ++ ">"

/-- Every part of a record stands under its name. -/
def recordText (kind : RecordKind) (parts : List String) : String :=
  kind.name ++ "(" ++ ", ".intercalate (kind.partNames.zipWith (fun name part => name ++ "=" ++ part) parts) ++
    ")"

mutual
/-- Text of a value inside the containers of `active`. -/
def printedWithin (active : List (Token × String)) : Value → String
  | .null => "None"
  | .undefined => "undefined"
  | .bool b => if b then "True" else "False"
  | .number n => n.text
  | .string s => Text.quoted s
  | .symbol s => s.printed
  | .bytes bs => Text.quotedBytes bs
  | .foreign name => "<" ++ name ++ ">"
  | .callable c => c.printed
  | .choice of name => choiceText of name
  | .list items => "[" ++ ", ".intercalate (printedItems active items) ++ "]"
  | .tuple _ items => parenthesized (printedItems active items)
  | .mapping entries => "\x7b" ++ ", ".intercalate (printedEntries active entries) ++ "\x7d"
  | .record kind _ parts => recordText kind (printedItems active parts)
  | .knot l body => match active.lookup l with
    | some dots => dots
    | none => printedWithin ((l, ellipsis body) :: active) body
  | .back l _ => (active.lookup l).getD "..."
termination_by structural v => v
def printedItems (active : List (Token × String)) : List Value → List String
  | [] => []
  | v :: rest => printedWithin active v :: printedItems active rest
termination_by structural vs => vs
def printedEntries (active : List (Token × String)) : List (Value × Value) → List String
  | [] => []
  | (k, v) :: rest =>
    (printedWithin active k ++ ": " ++ printedWithin active v) :: printedEntries active rest
termination_by structural vs => vs
end

def printed (v : Value) : String :=
  printedWithin [] v

/-- Text that keeps a string bare, and shows a key by what it names. -/
def bareText : Value → String
  | .string s => s
  | .record .key _ [.choice _ "string", .string s] => s
  | .record .key _ [.choice _ "symbol", v] => "[" ++ v.printed ++ "]"
  | .record .key _ [.choice _ "index", _] => "[index]"
  | v => v.printed

def formatted : Value → String
  | .bool b => if b then "true" else "false"
  | .null => "null"
  | .string s => "\"" ++ s ++ "\""
  | v => v.printed

/-- The text that a report quotes; nothing for a bare null. -/
def quoted? : Value → Option String
  | .null => none
  | v => some v.printed

end Value
end Schemata
