import Schemata.Entries
import Schemata.Error
import Schemata.Schema.Expression

/-! Reports: an error as code, message, origin and details. -/
namespace Schemata

/-- A detail without a value is left out; `cause` is the class of an error behind this one. -/
structure Report where
  code : Code
  message : String
  origin : String
  schema : Option String
  details : List (String × Value)
  cause : Option String

namespace Report

def text (r : Report) : String :=
  "[" ++ r.code.name ++ "] " ++ r.message

/-- A detail that is known is set anew. -/
def withDetails (r : Report) (added : List (String × Value)) : Report :=
  { r with details := added.foldl (fun details d => Entries.put details d.1 d.2) r.details }

/-- Details in the order of their names. -/
def sortedDetails (r : Report) : List (String × Value) :=
  r.details.mergeSort fun a b => !decide (b.1 < a.1)

def withOrigin (r : Report) (origin : String) : Report :=
  { r with origin := origin }

def chain (r : Report) (cause : String) : Report :=
  { r with cause := some cause }

def isNull : Value → Bool
  | .null => true
  | _ => false

/-- Keeps the details that hold a value. -/
def given (details : List (String × Value)) : List (String × Value) :=
  details.filter fun d => !isNull d.2

def conflict (message : String) (origin : String) (details : List (String × Value)) : Report :=
  ⟨.schemaConflict, message, origin, none, given details, none⟩

def repeatedKey (key : Value) (origin : String) : Report :=
  conflict ("Key " ++ key.bareText ++ " is declared more than once") origin [("key", key)]

def unsatisfiable (left right : Value) (reason origin : String) : Report :=
  let message := "Intersection of " ++ left.bareText ++ " and " ++ right.bareText ++ " is empty" ++
    (if reason = "" then "" else ": " ++ reason)
  ⟨.unsatisfiableSchema, message, origin, none, given [("left", left), ("right", right)], none⟩

def tupleShape (message : String) (position : Value) (origin : String) : Report :=
  ⟨.invalidTupleShape, message, origin, none, given [("position", position)], none⟩

/-- The quoted definition is shown as it is written. -/
def definition (message : String) (quoted : Option String) (origin : String) : Report :=
  ⟨.invalidDefinition, message, origin, none, quoted.toList.map fun q => ("definition", .string q), none⟩

def unresolved (name : Value) (origin : String) : Report :=
  definition ("'" ++ name.bareText ++ "' is not a keyword or a name defined in scope") none origin

def frozen (name : Value) (origin : String) : Report :=
  ⟨.registryFrozen, "Cannot define '" ++ name.bareText ++ "': scope is frozen", origin, none,
    given [("name", name)], none⟩

def keyNotFound (key schema : Value) (origin : String) : Report :=
  ⟨.keyNotFound, "Key " ++ key.bareText ++ " does not exist on " ++ schema.bareText, origin,
    match schema with
    | .null => none
    | s => some s.bareText,
    [("key", .string key.bareText)], none⟩

def producerFailed (e : Raised) (origin : String) : Report :=
  ⟨.defaultProducerFailed, "Default producer raised " ++ e.kind ++ ": " ++ e.text, origin, none, [],
    some e.kind⟩

end Report

namespace Emptiness

def text : Emptiness → String
  | .never => "never admits no value"
  | .disjointDomains => "disjoint value domains"
  | .noBranch => "no branch of the union is compatible"
  | .refusedLiteral literal other => literal.expression ++ " does not satisfy " ++ other.expression
  | .disjointBounds a b => a.description ++ " and " ++ b.description ++ " are disjoint"
  | .rejectedRequired key => "key " ++ key.text ++ " is required but rejected as undeclared"
  | .disjointLengths a b =>
    Element.describedLength a ++ " and " ++ Element.describedLength b ++ " are disjoint"

end Emptiness

namespace ShapeError

def report : ShapeError → Report
  | .misplacedDefault role =>
    .tupleShape ("A " ++ role ++ " element must carry a default producer exactly when it is defaultable")
      .null "tuples"
  | .secondVariadic position =>
    .tupleShape "A tuple may have at most one variadic element" (.int position) "tuples"
  | .besideTrailing role position =>
    .tupleShape ("A " ++ role ++ " element at position " ++ toString position ++
      " cannot coexist with postfix elements") (.int position) "tuples"
  | .trailingBeforeVariadic position =>
    .tupleShape ("Postfix element at position " ++ toString position ++
      " must follow a variadic element") (.int position) "tuples"
  | .outOfOrder role before position =>
    .tupleShape ("A " ++ role ++ " element at position " ++ toString position ++ " cannot follow a " ++
      before ++ " element") (.int position) "tuples"

end ShapeError

namespace ConflictError

def keyed (message : String) (key : String) (origin : String) : Report :=
  .conflict message origin [("key", .string key)]

def report : ConflictError → Report
  | .namedIndex key => keyed "Index signatures are not named properties" key.text "properties"
  | .misplacedDefault key =>
    keyed ("Property " ++ key.text ++ " must carry a default producer exactly when it is defaultable")
      key.text "properties"
  | .repeatedKey key => .repeatedKey (.string key.text) "objects"
  | .indexDomain key =>
    .conflict ("Index signature keys must be strings or symbols, not " ++ key.expression) "objects" []
  | .indexSignatures a b =>
    .conflict ("Index signatures " ++ a.expression ++ " and " ++ b.expression ++
      " have different key schemas") "algebra" []
  | .defaults key => keyed ("Key " ++ key.text ++ " has conflicting defaults") key.text "algebra"
  | .elementDefaults => .conflict "Tuple elements have conflicting defaults" "algebra" []
  | .objectRequired operation schema =>
    .conflict (operation ++ " requires an object schema, not " ++ schema.expression) "algebra" []
  | .overrideKey key =>
    keyed ("Override for " ++ key.text ++ " must be a property descriptor with that key") key.text "algebra"
  | .keywordName name => keyed ("'" ++ name ++ "' would shadow a keyword") name "scope"
  | .definedName name => keyed ("'" ++ name ++ "' is already defined") name "scope"
  | .secondIndex key => keyed "An object may declare only one index signature" key "definitions"
  | .optionalDefault key =>
    keyed ("Key " ++ key.text ++ " cannot be both optional and defaultable") key.text "definitions"
  | .other message key origin =>
    .conflict message origin (if key = "" then [] else [("key", .string key)])

end ConflictError

namespace DefinitionError

def report : DefinitionError → Report
  | .unresolved name origin => .unresolved (.string name) origin
  | .schemaName name => .definition (name.printed ++ " is not a valid schema name") none "scope"
  | .lostReference name =>
    .definition ("Reference '" ++ name ++ "' outlived the scope that defined it") none "arena"
  | .pendingReference name =>
    .definition ("'" ++ name ++ "' is referenced before its definition is complete") none "arena"
  | .unsupported typeName quoted =>
    .definition ("Cannot build a schema from " ++ typeName) quoted "definitions"
  | .policy text quoted => .definition ("Unknown undeclared key policy " ++ text) quoted "definitions"
  | .propertyKey text => .definition (text ++ " is not a valid property key") none "definitions"
  | .mixedOperators quoted =>
    .definition "Mixed '|' and '&' need explicit grouping" (some quoted) "definitions"
  | .misplacedMarker quoted =>
    .definition "Optional and default markers are only valid on properties and tuple elements"
      (some quoted) "definitions"
  | .danglingSpread quoted =>
    .definition "'...' must be followed by a tuple or array definition" (some quoted) "definitions"
  | .spread schema quoted =>
    .definition ("Cannot spread " ++ schema.expression ++ " into a tuple") quoted "definitions"

end DefinitionError

namespace SchemaError

def report : SchemaError → Report
  | .conflict e => e.report
  | .unsatisfiable a b reason =>
    .unsatisfiable (.string a.expression) (.string b.expression) reason.text "algebra"
  | .shape e => e.report
  | .definition e => e.report
  | .frozen name => .frozen name "scope"
  | .keyNotFound key schema => .keyNotFound (.string key) (.string schema.expression) "algebra"
  | .producer e => .producerFailed e "properties"

end SchemaError
end Schemata
