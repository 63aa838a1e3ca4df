/-! Codes of problems. The thousands digit of a code is its category. -/
namespace Schemata

inductive Code where
  | constructionGeneric | schemaConflict | unsatisfiableSchema | invalidTupleShape | invalidDefinition
  | registryFrozen
  | validationGeneric | requiredKeyMissing | invalidFormat | outOfRange | invalidType | constraintViolation
  | undeclaredKey | invalidLength | literalMismatch | depthExceeded | duplicateKey
  | lookupGeneric | keyNotFound
  | producerGeneric | defaultProducerFailed
  | internalGeneric | unexpectedError
  deriving DecidableEq

namespace Code

def all : List Code :=
  [.constructionGeneric, .schemaConflict, .unsatisfiableSchema, .invalidTupleShape, .invalidDefinition,
   .registryFrozen, .validationGeneric, .requiredKeyMissing, .invalidFormat, .outOfRange, .invalidType,
   .constraintViolation, .undeclaredKey, .invalidLength, .literalMismatch, .depthExceeded, .duplicateKey,
   .lookupGeneric, .keyNotFound, .producerGeneric, .defaultProducerFailed, .internalGeneric,
   .unexpectedError]

def number : Code → Nat
  | .constructionGeneric => 1000
  | .schemaConflict => 1001
  | .unsatisfiableSchema => 1002
  | .invalidTupleShape => 1003
  | .invalidDefinition => 1004
  | .registryFrozen => 1005
  | .validationGeneric => 2000
  | .requiredKeyMissing => 2001
  | .invalidFormat => 2002
  | .outOfRange => 2003
  | .invalidType => 2004
  | .constraintViolation => 2005
  | .undeclaredKey => 2006
  | .invalidLength => 2007
  | .literalMismatch => 2008
  | .depthExceeded => 2009
  | .duplicateKey => 2010
  | .lookupGeneric => 3000
  | .keyNotFound => 3001
  | .producerGeneric => 4000
  | .defaultProducerFailed => 4001
  | .internalGeneric => 9000
  | .unexpectedError => 9001

def label : Code → String
  | .constructionGeneric => "CONSTRUCTION_GENERIC"
  | .schemaConflict => "SCHEMA_CONFLICT"
  | .unsatisfiableSchema => "UNSATISFIABLE_SCHEMA"
  | .invalidTupleShape => "INVALID_TUPLE_SHAPE"
  | .invalidDefinition => "INVALID_DEFINITION"
  | .registryFrozen => "REGISTRY_FROZEN"
  | .validationGeneric => "VALIDATION_GENERIC"
  | .requiredKeyMissing => "REQUIRED_KEY_MISSING"
  | .invalidFormat => "INVALID_FORMAT"
  | .outOfRange => "OUT_OF_RANGE"
  | .invalidType => "INVALID_TYPE"
  | .constraintViolation => "CONSTRAINT_VIOLATION"
  | .undeclaredKey => "UNDECLARED_KEY"
  | .invalidLength => "INVALID_LENGTH"
  | .literalMismatch => "LITERAL_MISMATCH"
  | .depthExceeded => "DEPTH_EXCEEDED"
  | .duplicateKey => "DUPLICATE_KEY"
  | .lookupGeneric => "LOOKUP_GENERIC"
  | .keyNotFound => "KEY_NOT_FOUND"
  | .producerGeneric => "PRODUCER_GENERIC"
  | .defaultProducerFailed => "DEFAULT_PRODUCER_FAILED"
  | .internalGeneric => "INTERNAL_GENERIC"
  | .unexpectedError => "UNEXPECTED_ERROR"

def name (c : Code) : String :=
  "E" ++ toString c.number ++ "_" ++ c.label

def category (c : Code) : String :=
  match c.number / 1000 with
  | 1 => "construction"
  | 2 => "validation"
  | 3 => "lookup"
  | 4 => "producer"
  | _ => "internal"

def ofName? (s : String) : Option Code :=
  all.find? fun c => c.name == s

end Code
end Schemata
