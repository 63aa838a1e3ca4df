import Schemata.Error.Report

/-! The one-line message of everything that an operation can stop with. -/
namespace Schemata

namespace IssueKind

def name : IssueKind → String
  | .enumeration => "enum"
  | .greaterThan => "greater_than"
  | .extraForbidden => "extra_forbidden"
  | .intType => "int_type"
  | .intParsing => "int_parsing"
  | .intParsingSize => "int_parsing_size"
  | .intFromFloat => "int_from_float"
  | .finiteNumber => "finite_number"
  | .boolType => "bool_type"
  | .boolParsing => "bool_parsing"
  | .stringType => "string_type"
  | .stringUnicode => "string_unicode"

end IssueKind

namespace ConfigIssue

/-- Issues as fields and kinds, in the order of their names. -/
def sorted (issues : List ConfigIssue) : List (String × String) :=
  (issues.map fun i => (i.field, i.kind.name)).mergeSort fun a b =>
    decide (a.1 < b.1) || (a.1 == b.1 && !decide (b.2 < a.2))

end ConfigIssue

def tooManyDigitsText (count : Nat) : String :=
  "Exceeds the limit (" ++ toString Text.digitLimit ++ " digits) for integer string conversion: value has " ++
    toString count ++ " digits; use sys.set_int_max_str_digits() to increase the limit"

namespace CheckError

def message : CheckError → String
  | .pattern .malformed => "malformed pattern"
  | .pattern .repetitionTooLarge => "the repetition number is too large"
  | .pattern (.tooManyDigits count) => tooManyDigitsText count
  | .pattern .localeOfText => "cannot use LOCALE flag with a str pattern"
  | .pattern .twoAlphabets => "ASCII and UNICODE flags are incompatible"
  | .order e =>
    "'" ++ e.comparison.sign ++ "' not supported between instances of '" ++ e.left ++
      "' and '" ++ e.right ++ "'"

end CheckError

namespace LogLevelError

def message : LogLevelError → String
  | .noText subject => subject ++ " has no attribute 'upper'"
  | .textClass => "unbound method str.upper() needs an argument"
  | .bytes => "attribute name must be string, not 'bytes'"
  | .unknownName text => "Unknown level: " ++ Text.quoted text
  | .noNumber text => "Level not an integer or a valid string: " ++ text

end LogLevelError

namespace Fault

def message : Fault → String
  | .schema e => e.report.text
  | .config issues => ", ".intercalate (issues.map fun i => i.field ++ ": " ++ i.kind.name)
  | .check e => e.message
  | .unhashable typeName => "unhashable type: " ++ Text.quoted typeName
  | .invalidKey text => text ++ " is not a valid property key"
  | .invalidChoice text kind => text ++ " is not a valid " ++ kind
  | .unknownKeyword name => "Unknown keyword '" ++ name ++ "'"
  | .invalidInteger text => "invalid literal for int() with base 10: " ++ text
  | .tooManyDigits count => tooManyDigitsText count
  | .noEntries subject => subject ++ " has no attribute 'items'"
  | .uncopyable => "cannot pickle 'mappingproxy' object"
  | .invalidCapacity size => "maxsize must be positive or None, not " ++ toString size
  | .unknownLogDomain text =>
    "Unknown logging domain " ++ text ++ "; expected one of schema, algebra, scope, validator"
  | .logLevel e => e.message
  | .misuse message => message
  | .raised e => e.text

end Fault
end Schemata
