import Schemata.Constraint
import Schemata.Key
import Schemata.Verdict

/-! Failures of a validation run, each with the path to the value that failed. -/
namespace Schemata

/-- A step into a value. A truth value counts as a position; the index marker holds no name. -/
inductive Segment where
  | name (s : String)
  | symbol (s : Symbol)
  | position (n : Int)
  | flag (b : Bool)
  | marker

abbrev Path := List Segment

namespace Segment

def ofKey : Key → Segment
  | .name s => .name s
  | .symbol s => .symbol s
  | .index => .marker

/-- The step that a value writes. -/
def ofValue : Value → Segment
  | .symbol s => .symbol s
  | .number (.int n) => .position n
  | .bool b => .flag b
  | v => .name v.bareText

/-- Names are joined by dots, all else stands in brackets. -/
def text (isFirst : Bool) : Segment → String
  | .name s => if isFirst then s else "." ++ s
  | .symbol s => "[" ++ s.printed ++ "]"
  | .position n => "[" ++ toString n ++ "]"
  | .flag b => "[" ++ (Value.bool b).printed ++ "]"
  | .marker => if isFirst then "None" else ".None"

end Segment

namespace Path

/-- The root is a dollar sign. -/
def text : Path → String
  | [] => "$"
  | s :: rest => s.text true ++ "".intercalate (rest.map (Segment.text false))

end Path

structure Failure where
  path : Path
  message : String
  constraint : String
  code : Code
  actual : Value

namespace Failure

/-- The same failure seen from one level further out. -/
def within (s : Segment) (f : Failure) : Failure :=
  { f with path := s :: f.path }

def pathText (f : Failure) : String := Path.text f.path

def text (f : Failure) : String :=
  if f.path.isEmpty then f.message else f.pathText ++ " " ++ f.message

/-- A check's refusal; what it leaves open is filled in. -/
def ofRejection (constraint : String) (r : Rejection) : Failure :=
  ⟨[], (nonempty? r.message).getD "is invalid", (nonempty? r.constraint).getD constraint,
    r.code.getD .validationGeneric, r.actual⟩

def ofVerdict (constraint : String) : Verdict → List Failure
  | .valid => []
  | .invalid r => [ofRejection constraint r]

/-- Failures under their path's text, paths in the order in which they first failed. -/
def byPath (fs : List Failure) : List (String × List Failure) :=
  fs.foldl (fun groups f =>
    if groups.any fun g => g.1 == f.pathText then
      groups.map fun g => if g.1 == f.pathText then (g.1, g.2 ++ [f]) else g
    else groups ++ [(f.pathText, [f])]) []

def headline : String := "Validation failed"

/-- All failures as one message. -/
def summary : List Failure → String
  | [] => headline
  | [f] => f.text
  | fs =>
    headline ++ " (" ++ toString fs.length ++ " errors)\n" ++
      "\n".intercalate (fs.map fun f => "  " ++ f.text)

end Failure
end Schemata
