import Schemata.Proofs.Algebra.Moving
import Schemata.Proofs.Scope.Reading

/-! Definitions that are read without looking behind the names of their batch. They intersect nothing and spread no
name, their index keys are no names of the batch, and in a union a keyword, a literal or a constraint on one stands
beside such names only that lead to objects and tuples. -/
namespace Schemata

/-- What is known of names before a batch is read: which ones it defines, and which ones lead, or will lead, to objects
and tuples. -/
structure Outlook where
  defines : String → Bool
  structures : String → Bool

namespace Value

/-- The items of a sequence that is no knot. -/
def listed? : Value → Option (List Value)
  | .list items => some items
  | .tuple _ items => some items
  | _ => none

/-- A name with `[]` behind it. -/
def isArrayName (text : String) : Bool :=
  match text.toList.reverse with
  | ']' :: '[' :: _ => true
  | _ => false

/-- What is read as a keyword or a literal. -/
def isWord : Value → Bool
  | .string text => !isArrayName text && (Schema.ofKeyword? text).any Schema.isWord
  | .null | .undefined | .bool _ | .number _ | .symbol _ => true
  | _ => false

/-- What is read as a keyword or a literal, constrained or not. -/
def isLeaf (d : Value) : Bool :=
  match d.listed? with
  | some (head :: rest) =>
    match Engine.readingOf (head :: rest) with
    | .constrained => head.isWord
    | _ => false
  | _ => d.isWord

/-- What is read as an object or a tuple. -/
def isStructure (d : Value) : Bool :=
  match d with
  | .mapping _ => true
  | .string text => isArrayName text
  | d =>
    match d.listed?.map Engine.readingOf with
    | some .tuple => true
    | _ => false

/-- What can stand beside leaves in a union. -/
def isOperand (o : Outlook) (d : Value) : Bool :=
  d.isLeaf || d.isStructure ||
    match d with
    | .string text => !isArrayName text && ((Schema.ofKeyword? text).isSome || o.structures text)
    | d =>
      match d.listed?.map Engine.readingOf with
      | some .literals => true
      | _ => false

/-- What is read as a name, an object or a tuple. -/
def isCompound (d : Value) : Bool :=
  d.isStructure ||
    match d with
    | .string text => (Schema.ofKeyword? text).isNone
    | _ => false

/-- The operands of a list of operands and operators. -/
def operands : List Value → List Value
  | [] => []
  | [d] => [d]
  | d :: _ :: rest => d :: operands rest

/-- A definition in the place of a property or an element, by what is known of its first item and of itself. -/
def fitsForm (d : Value) (head plain : Bool) : Bool :=
  match d.form with
  | .plain => plain
  | .optional => head
  | .default source => head && (Producer.ofData? source).isNone

/-- The definition of a property or an element is that of a leaf. -/
def hasLeaf (d : Value) : Bool :=
  match d.form with
  | .plain => d.isLeaf
  | _ => (d.listed?.bind List.head?).any isLeaf

/-- The keys that a member of an object indexes. -/
def indexed? (raw : Value) : Option String := if raw.isToken "+" then none else Engine.indexName? raw

/-- Objects whose index signature has nothing to overlap, or leaves only. -/
inductive Membership where
  | properties
  | signature
  | leaves

/-- A member that such an object can have. -/
def fitsMembership (raw d : Value) : Membership → Bool
  | .properties => (indexed? raw).isNone
  | .signature => (indexed? raw).isSome
  | .leaves =>
    match indexed? raw with
    | some keys => (Value.string keys).isWord && d.isLeaf
    | none => d.hasLeaf

/-- An object with an index signature declares no properties, or everything in it is a leaf. -/
def fitsOverlaps (entries : List (Value × Value)) : Bool :=
  [Membership.properties, .signature, .leaves].any fun k =>
    entries.all fun e => e.1.isToken "+" || fitsMembership e.1 e.2 k

/-- A list, by its reading. -/
def listOrderly (o : Outlook) (items : List Value) (first operands elements : Bool) : Bool :=
  match Engine.readingOf items with
  | .literals | .mixed | .misplaced => true
  | .operation isUnion =>
    isUnion && operands && ((Value.operands items).all (isOperand o) || (Value.operands items).all isCompound)
  | .constrained => first
  | .tuple => elements

mutual
/-- A definition that can be read before what its names stand for is known. -/
def isOrderly (o : Outlook) : Value → Bool
  | .mapping entries => membersOrderly o entries && fitsOverlaps entries
  | .list items => listOrderly o items (firstOrderly o items) (operandsOrderly o items) (elementsOrderly o items)
  | .tuple _ items => listOrderly o items (firstOrderly o items) (operandsOrderly o items) (elementsOrderly o items)
  | .knot _ _ => false
  | .record kind _ _ => !kind.isSchema
  | _ => true
termination_by structural d => d
def headOrderly (o : Outlook) : Value → Bool
  | .list items => firstOrderly o items
  | .tuple _ items => firstOrderly o items
  | .knot _ _ => false
  | _ => true
termination_by structural d => d
def firstOrderly (o : Outlook) : List Value → Bool
  | d :: _ => isOrderly o d
  | [] => true
termination_by structural ds => ds
def operandsOrderly (o : Outlook) : List Value → Bool
  | [] => true
  | [d] => isOrderly o d
  | d :: _ :: rest => isOrderly o d && operandsOrderly o rest
termination_by structural ds => ds
def elementsOrderly (o : Outlook) : List Value → Bool
  | [] => true
  | [d] => d.isToken "..." || fitsForm d (headOrderly o d) (isOrderly o d)
  | d :: next :: rest =>
    if d.isToken "..." then next.isStructure && isOrderly o next && elementsOrderly o rest
    else fitsForm d (headOrderly o d) (isOrderly o d) && elementsOrderly o (next :: rest)
termination_by structural ds => ds
def membersOrderly (o : Outlook) : List (Value × Value) → Bool
  | [] => true
  | (raw, d) :: rest =>
    (raw.isToken "+" ||
      match indexed? raw with
      | some keys => !o.defines keys && isOrderly o d
      | none => fitsForm d (headOrderly o d) (isOrderly o d)) && membersOrderly o rest
termination_by structural es => es
end

end Value
end Schemata
