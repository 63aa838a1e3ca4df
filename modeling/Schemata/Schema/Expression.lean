import Schemata.Schema

/-! The expression of a schema: its text in messages. -/
namespace Schemata

namespace Producer

/-- A factory is shown by its own name if it has one, a constant by its text. -/
def expression (p : Producer) : String :=
  if p.isFactory then
    match p.source with
    | .callable c => (if c.titled then c.name else "factory") ++ "()"
    | _ => "factory()"
  else p.source.printed

end Producer

namespace Schema

/-- Unions, intersections and constrained schemas stand in parentheses inside others. -/
def wrapped (s : Schema) (text : String) : String :=
  match s with
  | .union _ => "(" ++ text ++ ")"
  | .intersection _ => "(" ++ text ++ ")"
  | .constrained _ _ => "(" ++ text ++ ")"
  | _ => text

/-- Only unions of two or more branches stand in parentheses as elements. -/
def wrappedElement (s : Schema) (text : String) : String :=
  match s with
  | .union (_ :: _ :: _) => "(" ++ text ++ ")"
  | _ => text

end Schema

namespace Property

def textWith (key : Key) (presence : Presence) (value : String) : String :=
  key.text ++ (if presence.isOptional then "?" else "") ++ ": " ++ value ++
    (match presence.default? with
      | some p => " = " ++ p.expression
      | none => "")

end Property

namespace IndexSignature

def textWith (key value : String) : String := "[" ++ key ++ "]: " ++ value

end IndexSignature

namespace Element

def textWith (role : Role) (text : String) : String :=
  match role with
  | .optional => text ++ "?"
  | .defaultable p => text ++ " = " ++ p.expression
  | .variadic => "..." ++ text ++ "[]"
  | _ => text

end Element

namespace ObjectShape

/-- The policy is shown first, and only when it is not the default one. -/
def textWith (undeclared : Policy) (members : List String) : String :=
  let parts := (if undeclared = .ignore then [] else ["+: " ++ undeclared.name]) ++ members
  if parts.isEmpty then "\x7b\x7d" else "\x7b " ++ ", ".intercalate parts ++ " \x7d"

end ObjectShape

namespace Schema

mutual
def expression : Schema → String
  | .keyword k => k.name
  | .literal v => v.formatted
  | .constrained s cs => expression s ++ " & " ++ " & ".intercalate (cs.map (·.description))
  | .union [] => "never"
  | .union (b :: bs) =>
    " | ".intercalate (wrapped b (expression b) :: wrappedExpressions bs)
  | .intersection ms => " & ".intercalate (wrappedExpressions ms)
  | .ref r => r.name
  | .object ⟨ps, i, u⟩ => ObjectShape.textWith u (propertyExpressions ps ++ indexExpressions i)
  | .tuple [⟨.variadic, s⟩] => wrappedElement s (expression s) ++ "[]"
  | .tuple es => "[" ++ ", ".intercalate (elementExpressions es) ++ "]"
termination_by structural s => s
def wrappedExpressions : List Schema → List String
  | [] => []
  | s :: rest => wrapped s (expression s) :: wrappedExpressions rest
termination_by structural ss => ss
def propertyExpressions : List (Property Schema) → List String
  | [] => []
  | ⟨k, s, p⟩ :: rest => Property.textWith k p (expression s) :: propertyExpressions rest
termination_by structural ps => ps
def indexExpressions : Option (IndexSignature Schema) → List String
  | none => []
  | some ⟨k, s⟩ => [IndexSignature.textWith (expression k) (expression s)]
termination_by structural i => i
def elementExpressions : List (Element Schema) → List String
  | [] => []
  | ⟨r, s⟩ :: rest => Element.textWith r (wrappedElement s (expression s)) :: elementExpressions rest
termination_by structural es => es
end

end Schema

namespace Property

def expression (p : Property Schema) : String :=
  textWith p.key p.presence p.value.expression

end Property

namespace IndexSignature

def expression (i : IndexSignature Schema) : String :=
  textWith i.key.expression i.value.expression

end IndexSignature

namespace Element

def expression (e : Element Schema) : String :=
  textWith e.role (e.value.wrappedElement e.value.expression)

end Element
end Schemata
