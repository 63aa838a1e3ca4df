import Schemata.Code
import Schemata.Constraint.Check
import Schemata.Schema

/-! What can go wrong while schemas are made, combined and looked into, by cause. -/
namespace Schemata

/-- Why an intersection is known to be empty. -/
inductive Emptiness where
  | never
  | disjointDomains
  | noBranch
  | refusedLiteral (literal other : Schema)
  | disjointBounds (a b : Constraint)
  | rejectedRequired (key : Key)
  | disjointLengths (a b : List (Element Schema))

/-- A tuple whose elements stand in no legal order. -/
inductive ShapeError where
  | misplacedDefault (role : String)
  | secondVariadic (position : Nat)
  | besideTrailing (role : String) (position : Nat)
  | trailingBeforeVariadic (position : Nat)
  | outOfOrder (role before : String) (position : Nat)

/-- Two parts of a schema that cannot stand together. -/
inductive ConflictError where
  | namedIndex (key : Key)
  | misplacedDefault (key : Key)
  | repeatedKey (key : Key)
  | indexDomain (key : Schema)
  | indexSignatures (a b : IndexSignature Schema)
  | defaults (key : Key)
  | elementDefaults
  | objectRequired (operation : String) (schema : Schema)
  | overrideKey (key : Key)
  | keywordName (name : String)
  | definedName (name : String)
  | secondIndex (key : String)
  | optionalDefault (key : Key)
  | other (message key origin : String)

/-- A definition that describes no schema. A quoted definition is shown in the report; a bare null is not. -/
inductive DefinitionError where
  | unresolved (name : String) (origin : String)
  | schemaName (name : Value)
  | lostReference (name : String)
  | pendingReference (name : String)
  | unsupported (typeName : String) (quoted : Option String)
  | policy (text : String) (quoted : Option String)
  | propertyKey (text : String)
  | mixedOperators (quoted : String)
  | misplacedMarker (quoted : String)
  | danglingSpread (quoted : String)
  | spread (schema : Schema) (quoted : Option String)

inductive SchemaError where
  | conflict (e : ConflictError)
  | unsatisfiable (a b : Schema) (reason : Emptiness)
  | shape (e : ShapeError)
  | definition (e : DefinitionError)
  | frozen (name : Value)
  | keyNotFound (key : String) (schema : Schema)
  | producer (e : Raised)

/-- The problem of one field of a configuration. -/
inductive IssueKind where
  | enumeration | greaterThan | extraForbidden | intType | intParsing | intParsingSize | intFromFloat
  | finiteNumber | boolType | boolParsing | stringType | stringUnicode
  deriving DecidableEq

structure ConfigIssue where
  field : String
  kind : IssueKind
  deriving DecidableEq

/-- A level of the log that is none: it is no text, the class of texts itself, or the name of something else. -/
inductive LogLevelError where
  | noText (subject : String)
  | textClass
  | bytes
  | unknownName (text : String)
  | noNumber (text : String)
  deriving DecidableEq

/-- Everything that an operation can stop with. -/
inductive Fault where
  | schema (e : SchemaError)
  | config (issues : List ConfigIssue)
  | check (e : CheckError)
  | unhashable (typeName : String)
  | invalidKey (text : String)
  | invalidChoice (text kind : String)
  | unknownKeyword (name : String)
  | invalidInteger (text : String)
  | tooManyDigits (count : Nat)
  | noEntries (subject : String)
  | uncopyable
  | invalidCapacity (size : Int)
  | unknownLogDomain (text : String)
  | logLevel (e : LogLevelError)
  | misuse (message : String)
  | raised (e : Raised)

def Fault.isUnsatisfiable : Fault → Bool
  | .schema (.unsatisfiable _ _ _) => true
  | _ => false

def Fault.isKeyNotFound : Fault → Bool
  | .schema (.keyNotFound _ _) => true
  | _ => false

/-- Errors of schemas, as opposed to misuse and outside errors. -/
def Fault.isSchemaError : Fault → Bool
  | .schema _ => true
  | _ => false

abbrev Fault.conflict (e : ConflictError) : Fault := .schema (.conflict e)
abbrev Fault.definition (e : DefinitionError) : Fault := .schema (.definition e)
abbrev Fault.shape (e : ShapeError) : Fault := .schema (.shape e)

end Schemata
