import Schemata.Definition
import Schemata.Session

/-! Reading definitions as schemas. A string is a keyword, a name of the scope, or an array of these; other
plain values are literals; a mapping is an object; a list is a literal union, an operation, a constrained
schema or a tuple. -/
namespace Schemata

namespace Schema

/-- Keywords and the names of fixed schemas. -/
def ofKeyword? (s : String) : Option Schema :=
  match Keyword.ofName? s with
  | some k => some (.keyword k)
  | none =>
    match s with
    | "true" => some trueLiteral
    | "false" => some falseLiteral
    | "never" => some never
    | _ => none

end Schema

namespace Engine

/-- The reference to a name of the scope. -/
def ref? (scope : Option Nat) (name : String) : Engine (Option Ref) := do
  let s ← get
  pure ((scope.bind s.arena?).bind fun a => a.ref? name)

/-- The schema of a name given by its characters in reverse order. -/
def nameReversed (scope : Option Nat) : List Char → Engine Schema
  | ']' :: '[' :: rest => do pure (.array (← nameReversed scope rest))
  | cs => do
    let name := String.ofList cs.reverse
    match Schema.ofKeyword? name with
    | some s => pure s
    | none =>
      match ← ref? scope name with
      | some r => pure (.ref r)
      | none => throw (.definition (.unresolved name "definitions"))

/-- Each `[]` at the end makes an array. -/
def name (scope : Option Nat) (text : String) : Engine Schema :=
  nameReversed scope text.toList.reverse

/-- The union of the literals behind the literal mark. -/
def literals (scope : Option Nat) (vs : List Value) : Engine Schema :=
  if vs.isEmpty then pure .never else union scope (vs.map Schema.literal)

/-- The operands joined by one operator. -/
def joined (scope : Option Nat) (isUnion : Bool) (operands : List Schema) : Engine Schema :=
  if isUnion then union scope operands
  else
    match operands with
    | [] => pure .never
    | s :: rest => meetAll scope s rest

/-- An optional mark at the end of a key; behind a backslash it is part of the name. -/
def optionalName (s : String) : String × Bool :=
  match s.toList.reverse with
  | '?' :: '\\' :: rest => (String.ofList (rest.reverse ++ ['?']), false)
  | '?' :: rest => (String.ofList rest.reverse, true)
  | _ => (s, false)

/-- The key that a definition's key writes, and whether it is marked optional. -/
def propertyKey (raw : Value) : Engine (Key × Bool) :=
  match raw with
  | .string s => pure (.name (optionalName s).1, (optionalName s).2)
  | raw =>
    match Key.ofValue? raw with
    | some key => pure (key, false)
    | none => throw (.definition (.propertyKey raw.printed))

/-- The keys of an index signature, written in brackets. -/
def indexName? (raw : Value) : Option String := do
  let s ← raw.string?
  let cs := s.toList
  if 2 < cs.length ∧ cs.head? = some '[' ∧ cs.getLast? = some ']' then
    some (String.ofList ((cs.drop 1).dropLast))
  else none

def policyOf (d : Value) : Engine Policy :=
  match d.string?.bind Policy.ofName? with
  | some p => pure p
  | none => throw (.definition (.policy d.printed d.quoted?))

/-- The element name of an optional place: a name of its own before a question mark. -/
def optionalElement? (d : Value) : Option String := do
  let s ← d.string?
  match s.toList.reverse with
  | '?' :: c :: rest => some (String.ofList (c :: rest).reverse)
  | _ => none

def unsupported (d : Value) : Engine Schema :=
  throw (.definition (.unsupported d.typeName d.quoted?))

/-- Elements of a spread tuple; behind a variadic element a leading one is trailing. -/
def spliced : Bool → List (Element Schema) → Bool × List (Element Schema)
  | seen, [] => (seen, [])
  | seen, e :: es =>
    let now := seen || e.role.isVariadic
    let f : Element Schema := if seen && e.role.isLeading then ⟨.trailing, e.value⟩ else e
    let rest := spliced now es
    (rest.1, f :: rest.2)

/-- The elements of the tuple behind a schema. -/
def spreadOf (scope : Option Nat) (d : Value) (s : Schema) : Engine (List (Element Schema)) := do
  match ← lift ((← env scope).deref s) with
  | .tuple es => pure es
  | other => throw (.definition (.spread other d.quoted?))

/-- How a list is read, by its marks alone. -/
inductive Reading where
  | literals
  | operation (isUnion : Bool)
  | mixed
  | constrained
  | misplaced
  | tuple

def everySecond : List Value → List Value
  | _ :: v :: rest => v :: everySecond rest
  | _ => []

def readingOf (items : List Value) : Reading :=
  match items with
  | [] => .tuple
  | head :: rest =>
    if head.isToken "===" then .literals
    else if 3 ≤ items.length ∧ items.length % 2 = 1 ∧
        (rest.head?.any fun op => op.isToken "|" || op.isToken "&") = true then
      if (everySecond items).all (·.isToken "|") then .operation true
      else if (everySecond items).all (·.isToken "&") then .operation false
      else .mixed
    else if !rest.isEmpty && rest.all Value.isConstraint then .constrained
    else
      match Value.formOf items with
      | .plain => .tuple
      | _ => .misplaced

/-- An object under construction. -/
structure Draft where
  policy : Policy
  index : Option (IndexSignature Schema)
  properties : List (Property Schema)

/-! A definition may contain itself where it only quotes data: in a literal, in a default, in the text of
an error. `close` puts the containers around a part in the places where the part names them. -/

/-- A list, by the readings of its first item, of its operands and of its elements. -/
def assemble (scope : Option Nat) (close : Value → Value) (whole : Value) (items : List Value)
    (head : Engine Schema) (operands : Engine (List Schema)) (elements : Engine (List (Element Schema))) :
    Engine Schema :=
  match readingOf items with
  | .literals => literals scope ((items.drop 1).map close)
  | .operation isUnion => do joined scope isUnion (← operands)
  | .mixed => throw (.definition (.mixedOperators whole.printed))
  | .constrained => do pure ((← head).constrain ((items.drop 1).filterMap (Constraint.ofData? ∘ close)))
  | .misplaced => throw (.definition (.misplacedMarker whole.printed))
  | .tuple => do lift (Schema.makeTuple (← elements))

/-- A tuple element, by the readings of the whole definition and of its first item; `seen` says whether a
variadic element came before. -/
def element (scope : Option Nat) (close : Value → Value) (seen : Bool) (d : Value)
    (head plain : Engine Schema) : Engine (Element Schema) :=
  match optionalElement? d with
  | some text => do pure ⟨.optional, ← name scope text⟩
  | none =>
    match d.form with
    | .optional => do pure ⟨.optional, ← head⟩
    | .default source => do
      let s ← head
      pure ⟨.defaultable (← producerOf (close source)), s⟩
    | .plain => do pure ⟨if seen then .trailing else .leading, ← plain⟩

/-- A property, by the readings of the whole definition and of its first item. -/
def property (close : Value → Value) (raw d : Value) (head plain : Engine Schema) :
    Engine (Property Schema) := do
  let (key, optional) ← propertyKey (close raw)
  match d.form with
  | .default source =>
    if optional then throw (.conflict (.optionalDefault key))
    else
      let s ← head
      lift (Property.make key s (.defaultable (← producerOf (close source))))
  | .optional => do lift (Property.make key (← head) .optional)
  | .plain => do lift (Property.make key (← plain) (if optional then .optional else .required))

/-- A member of an object: its policy, its index signature or a property. -/
def member (scope : Option Nat) (close : Value → Value) (draft : Draft) (raw d : Value)
    (head plain : Engine Schema) : Engine Draft :=
  if raw.isToken "+" then do pure { draft with policy := ← policyOf (close d) }
  else
    match indexName? raw with
    | some keys =>
      if draft.index.isSome then throw (.conflict (.secondIndex (raw.string?.getD "")))
      else do
        let key ← name scope keys
        pure { draft with index := some (.normalized key (← plain)) }
    | none => do
      pure { draft with properties := draft.properties ++ [← property close raw d head plain] }

/-- The object that a draft has come to. -/
def finish (scope : Option Nat) (draft : Draft) : Engine Schema :=
  buildObject scope ⟨draft.properties, draft.index, draft.policy⟩

mutual
/-- The schema that a definition describes. -/
def read (scope : Option Nat) (policy : Policy) (close : Value → Value) : Value → Engine Schema
  | .string s => name scope s
  | .null => pure (.literal .null)
  | .undefined => pure (.literal .undefined)
  | .bool b => pure (.literal (.bool b))
  | .number n => pure (.literal (.number n))
  | .symbol s => pure (.literal (.symbol s))
  | .mapping entries => do finish scope (← readMembers scope policy close ⟨policy, none, []⟩ entries)
  | .list items =>
    let whole := close (.list items)
    assemble scope close whole items (readFirst scope policy close items)
      (readOperands scope policy close items) (readElements scope policy close whole false items)
  | .tuple label items =>
    let whole := close (.tuple label items)
    assemble scope close whole items (readFirst scope policy close items)
      (readOperands scope policy close items) (readElements scope policy close whole false items)
  | .knot label (.mapping entries) => do
    let inner := close ∘ Value.bind label (.knot label (.mapping entries))
    finish scope (← readMembers scope policy inner ⟨policy, none, []⟩ entries)
  | .knot label (.list items) =>
    let whole := close (.knot label (.list items))
    let inner := close ∘ Value.bind label (.knot label (.list items))
    assemble scope inner whole items (readFirst scope policy inner items)
      (readOperands scope policy inner items) (readElements scope policy inner whole false items)
  | .knot label (.tuple l items) =>
    let whole := close (.knot label (.tuple l items))
    let inner := close ∘ Value.bind label (.knot label (.tuple l items))
    assemble scope inner whole items (readFirst scope policy inner items)
      (readOperands scope policy inner items) (readElements scope policy inner whole false items)
  | .record kind token parts =>
    match Schema.ofData? (close (.record kind token parts)) with
    | some s => pure s
    | none => unsupported (close (.record kind token parts))
  | d => unsupported (close d)
termination_by structural d => d
/-- The schema of the first item of a list. -/
def readHead (scope : Option Nat) (policy : Policy) (close : Value → Value) : Value → Engine Schema
  | .list items => readFirst scope policy close items
  | .tuple _ items => readFirst scope policy close items
  | .knot label (.list items) =>
    readFirst scope policy (close ∘ Value.bind label (.knot label (.list items))) items
  | .knot label (.tuple inner items) =>
    readFirst scope policy (close ∘ Value.bind label (.knot label (.tuple inner items))) items
  | _ => pure .never
termination_by structural d => d
def readFirst (scope : Option Nat) (policy : Policy) (close : Value → Value) : List Value → Engine Schema
  | d :: _ => read scope policy close d
  | [] => pure .never
termination_by structural ds => ds
/-- Operands, each but the first behind its operator. -/
def readOperands (scope : Option Nat) (policy : Policy) (close : Value → Value) :
    List Value → Engine (List Schema)
  | [] => pure []
  | [d] => do pure [← read scope policy close d]
  | d :: _ :: rest => do
    let s ← read scope policy close d
    pure (s :: (← readOperands scope policy close rest))
termination_by structural ds => ds
/-- Elements of a tuple; `seen` says whether a variadic one came before. -/
def readElements (scope : Option Nat) (policy : Policy) (close : Value → Value) (whole : Value) :
    Bool → List Value → Engine (List (Element Schema))
  | _, [] => pure []
  | seen, [d] =>
    if d.isToken "..." then throw (.definition (.danglingSpread whole.printed))
    else do
      pure [← element scope close seen d (readHead scope policy close d) (read scope policy close d)]
  | seen, d :: next :: rest =>
    if d.isToken "..." then do
      let es ← spreadOf scope (close next) (← read scope policy close next)
      let spliced := spliced seen es
      pure (spliced.2 ++ (← readElements scope policy close whole spliced.1 rest))
    else do
      let e ← element scope close seen d (readHead scope policy close d) (read scope policy close d)
      pure (e :: (← readElements scope policy close whole seen (next :: rest)))
termination_by structural _ ds => ds
/-- Members of an object in their order. -/
def readMembers (scope : Option Nat) (policy : Policy) (close : Value → Value) :
    Draft → List (Value × Value) → Engine Draft
  | draft, [] => pure draft
  | draft, (raw, d) :: rest => do
    let draft ← member scope close draft raw d (readHead scope policy close d) (read scope policy close d)
    readMembers scope policy close draft rest
termination_by structural _ es => es
end

/-- Reads a definition under the given configuration, else the scope's, else the ambient one. -/
def parse (scope : Option Nat) (given : Option Config) (d : Value) : Engine Schema := do
  let c ← config scope given
  read scope c.undeclared id d

/-- A schema stands for itself; anything else is read as a definition. -/
def schemaOf (scope : Option Nat) (given : Option Config) (d : Value) : Engine Schema :=
  match Schema.ofData? d with
  | some s => pure s
  | none => parse scope given d

end Engine
end Schemata
