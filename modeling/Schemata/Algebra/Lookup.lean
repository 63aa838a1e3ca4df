import Schemata.Schema.Data
import Schemata.Session

/-! The schema of the values reached by a path. A step of a path is a raw key, a key, or a schema of
keys. -/
namespace Schemata
namespace Engine

/-- A step as a report names it. -/
def stepText (key : Value) : String :=
  match Schema.ofData? key with
  | some s => s.expression
  | none => key.formatted

def missing {α : Type} (key : Value) (s : Schema) : Engine α :=
  throw (.schema (.keyNotFound (stepText key) s))

def undefinedSchema : Schema := .keyword .undefined

/-- The property of a raw key, else the index signature that takes it. -/
def valueAt (scope : Option Nat) (o : ObjectShape Schema) (key : Value) : Engine Schema := do
  match Key.ofValue? key with
  | none => missing key (.object o)
  | some k =>
    match o.property? k with
    | some p =>
      if p.presence.isOptional then union scope [p.value, undefinedSchema] else pure p.value
    | none =>
      match o.index with
      | none => missing key (.object o)
      | some i =>
        if ← lift ((← env scope).admits i.key k.toValue) then pure i.value
        else missing key (.object o)

/-- The index signature's value, when it takes all keys of a schema. -/
def valueUnder (scope : Option Nat) (o : ObjectShape Schema) (keys : Schema) : Engine Schema := do
  match o.index with
  | none => missing keys.toData (.object o)
  | some i =>
    if ← lift ((← env scope).isSubset keys i.key) then pure i.value
    else missing keys.toData (.object o)

mutual
/-- The value under one step: of a literal that of its value, of a union the union of all. -/
def propertyValue (scope : Option Nat) (o : ObjectShape Schema) : Value → Engine Schema
  | .record .literal _ [v, _] => propertyValue scope o v
  | .record .union _ [.tuple _ (b :: bs)] => do
    let first ← propertyValue scope o b
    union scope (first :: (← propertyValues scope o bs))
  | key =>
    match Schema.ofData? key with
    | some s => valueUnder scope o s
    | none => valueAt scope o key
termination_by structural v => v
def propertyValues (scope : Option Nat) (o : ObjectShape Schema) : List Value → Engine (List Schema)
  | [] => pure []
  | v :: rest => do
    let value ← propertyValue scope o v
    pure (value :: (← propertyValues scope o rest))
termination_by structural vs => vs
end

/-- Part of a text that a report on it shows. -/
def excerpt : Nat := 200

/-- The number that a text of digits writes. Digits without a place value write none, and neither do too
many digits. -/
def digitsValue (s : String) : Except Fault Nat :=
  let count := (s.toList.takeWhile Text.isDecimal).length
  if Text.digitLimit < count then .error (.tooManyDigits count)
  else
    match s.toList.mapM Text.decimalValue? with
    | some ds => .ok (ds.foldl (fun n d => 10 * n + d) 0)
    | none => .error (.invalidInteger (String.ofList ((Text.quoted s).toList.take excerpt)))

/-- The position that a step names: a whole number, or a text of digits. -/
def position? (key : Value) : Except Fault (Option Nat) :=
  let value := match key with
    | .record .literal _ [v, _] => v
    | v => v
  match value with
  | .number (.int n) => .ok (if 0 ≤ n then some n.toNat else none)
  | .string s =>
    if s != "" && s.toList.all Text.isDigit then (digitsValue s).map some else .ok none
  | _ => .ok none

/-- The element at a position. Behind the fixed elements it may be the variadic one or any behind that. -/
def elementValue (es : List (Element Schema)) (key : Value) : Engine Schema := do
  match ← lift (position? key) with
  | none => missing key (.tuple es)
  | some n =>
    match (Element.fixed es)[n]? with
    | some e => if e.role.isOptional then union none [e.value, undefinedSchema] else pure e.value
    | none =>
      match Element.variadic? es with
      | none => missing key (.tuple es)
      | some e => union none (e.value :: (Element.trailing es).map (·.value))

mutual
/-- The value under one key, with `follow` for references. -/
def stepWith (scope : Option Nat) (key : Value) (follow : Ref → Engine Schema) : Schema → Engine Schema
  | .ref r => follow r
  | .object o => propertyValue scope o key
  | .tuple es => elementValue es key
  | .union (b :: bs) => do
    let first ← stepWith scope key follow b
    union scope (first :: (← stepEach scope key follow bs))
  | .intersection ms => do
    match ← stepFound scope key follow ms with
    | [] => missing key (.intersection ms)
    | s :: rest => meetAll scope s rest
  | .constrained base _ => stepWith scope key follow base
  | .union [] => missing key .never
  | .keyword k => missing key (.keyword k)
  | .literal v => missing key (.literal v)
termination_by structural s => s
def stepEach (scope : Option Nat) (key : Value) (follow : Ref → Engine Schema) :
    List Schema → Engine (List Schema)
  | [] => pure []
  | s :: rest => do
    let value ← stepWith scope key follow s
    pure (value :: (← stepEach scope key follow rest))
termination_by structural ss => ss
/-- Values under the key in the members that have it. -/
def stepFound (scope : Option Nat) (key : Value) (follow : Ref → Engine Schema) :
    List Schema → Engine (List Schema)
  | [] => pure []
  | s :: rest => do
    let value ← tryCatch (some <$> stepWith scope key follow s) fun e =>
      if e.isKeyNotFound then pure none else throw e
    pure (value.toList ++ (← stepFound scope key follow rest))
termination_by structural ss => ss
end

def stepWithin (scope : Option Nat) (key : Value) : Nat → Schema → Engine Schema
  | 0, s => stepWith scope key (fun r => missing key (.ref r)) s
  | fuel + 1, s => stepWith scope key (fun r => do
      stepWithin scope key fuel (← lift ((← env scope).resolve r))) s

/-- The value under one key. References are followed as deep as distinct ones can nest. -/
def step (scope : Option Nat) (s : Schema) (key : Value) : Engine Schema := do
  stepWithin scope key ((← env scope).slotCount + 1) s

/-- The value reached by following a path. -/
def select (scope : Option Nat) : Schema → List Value → Engine Schema
  | s, [] => pure s
  | s, key :: rest => do select scope (← step scope s key) rest

end Engine
end Schemata
