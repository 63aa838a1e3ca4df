import Schemata.Definition.Reading

/-! Scopes: registries of named schemas, open for definitions until they are frozen. The first validation
through a scope freezes it. -/
namespace Schemata
namespace Engine

/-- Opens a scope, with the ambient configuration unless one is given. -/
def openScope (given : Option Config) : Engine Nat := do
  let c ← config none given
  let s ← get
  let id := s.nextScope
  set { s with
    nextScope := id + 1
    arenas := s.arenas ++ [Arena.empty id]
    scopes := s.scopes ++ [(id, Scope.mk c false none)] }
  pure id

/-- The scope is gone; references into it lead nowhere. -/
def dropScope (id : Nat) : Engine Unit :=
  modify fun s => { s with
    arenas := s.arenas.filter fun a => a.id != id
    scopes := s.scopes.filter fun e => e.1 != id }

/-- Text that no definition could use as a name. -/
def unfitName (name : String) : Bool :=
  match name.toList, name.toList.reverse with
  | [], _ => true
  | '[' :: _, _ => true
  | _, '?' :: _ => true
  | _, ']' :: '[' :: _ => true
  | _, _ => false

/-- A name has to be new, well formed and no keyword. A container that may change names nothing at all. -/
def checkName (sc : Scope) (a : Arena) (name : Value) : Except Fault String :=
  if sc.frozen then .error (.schema (.frozen name))
  else
    match name with
    | .string text =>
      if unfitName text then .error (.definition (.schemaName name))
      else if (Schema.ofKeyword? text).isSome then .error (.conflict (.keywordName text))
      else if (a.ref? text).isSome then .error (.conflict (.definedName text))
      else .ok text
    | name => .error (.definition (.schemaName name))

def setWaiting (id : Nat) (waiting : Option (List DeferredCheck)) : Engine Unit :=
  modify fun s =>
    match s.scope? id with
    | some sc => s.setScope id { sc with waiting := waiting }
    | none => s

def updateArena (id : Nat) (f : Arena → Arena) : Engine Unit :=
  modify fun s =>
    match s.arena? id with
    | some a => s.setArena (f a)
    | none => s

/-- Reserves slots for all names. -/
def allocateAll (id : Nat) : List String → Engine (List Ref)
  | [] => pure []
  | name :: rest => do
    let s ← get
    match s.arena? id with
    | none => pure []
    | some a =>
      let (r, a) := a.allocate name
      set (s.setArena a)
      pure (r :: (← allocateAll id rest))

/-- Reads the definitions into their slots, one after the other. -/
def fillAll (id : Nat) : List (Ref × Value) → Engine Unit
  | [] => pure ()
  | (r, d) :: rest => do
    let schema ← parse (some id) none d
    updateArena id fun a => a.fill r schema
    fillAll id rest

/-- Fills a batch and then runs the checks that waited for its end. -/
def completeBatch (id : Nat) (batch : List (Ref × Value)) : Engine Unit := do
  setWaiting id (some [])
  fillAll id batch
  let waiting := ((← get).scope? id).bind (·.waiting)
  setWaiting id none
  runAllDeferred (some id) (waiting.getD [])

/-- Defines several names at once, so that they may refer to each other: all of them, or none. -/
def defineAll (id : Nat) (definitions : List (Value × Value)) : Engine (List Ref) := do
  let s ← get
  match s.scope? id, s.arena? id with
  | some sc, some a =>
    match definitions.findSome? fun d => d.1.changeable? with
    | some typeName => throw (.unhashable typeName)
    | none => pure ()
    let names ← lift (definitions.mapM fun d => checkName sc a d.1)
    let refs ← allocateAll id names
    tryCatch (completeBatch id (refs.zip (definitions.map (·.2)))) fun e => do
      updateArena id fun a => names.foldl Arena.discard a
      setWaiting id none
      throw e
    pure refs
  | _, _ => pure []

/-- The schema that a reference of the scope leads to. -/
def resolve (scope : Option Nat) (r : Ref) : Engine Schema := do
  lift ((← env scope).resolve r)

/-- The schema behind a name of the scope. -/
def resolveName (scope : Option Nat) (name : String) : Engine Schema := do
  match ← ref? scope name with
  | some r => resolve scope r
  | none => throw (.definition (.unresolved name "scope"))

def freeze (id : Nat) : Engine Unit :=
  modify fun s =>
    match s.scope? id with
    | some sc => s.setScope id { sc with frozen := true }
    | none => s

def names (id : Nat) : Engine (List String) := do
  pure ((((← get).arena? id).map Arena.names).getD [])

/-- Whether a value is a defined name of the scope. -/
def contains (id : Nat) (name : Value) : Engine Bool := do
  match name with
  | .string text => pure (← ref? (some id) text).isSome
  | _ => pure false

def isFrozen (id : Nat) : Engine Bool := do
  pure ((((← get).scope? id).map (·.frozen)).getD false)

/-- A line that shows the names of a scope and whether it is open. -/
def describeScope (id : Nat) : Engine String := do
  let state := if ← isFrozen id then "frozen" else "open"
  pure ("Scope(" ++ ", ".intercalate (← names id) ++ "; " ++ state ++ ")")

/-- Runs a check without freezing the scope. -/
def accepts (scope : Option Nat) (given : Option Config) (s : Schema) (v : Value) : Engine Bool := do
  let c ← config scope given
  lift ((← env scope).accepts c s v)

/-- Validates a value against a schema, through the scope if there is one. -/
def validateSchema (scope : Option Nat) (given : Option Config) (s : Schema) (v : Value) :
    Engine (Except (List Failure) Value) := do
  match scope with
  | some id => freeze id
  | none => pure ()
  let c ← config scope given
  lift ((← env scope).validate c s v)

/-- Validates a value against a schema or a definition. -/
def validate (scope : Option Nat) (given : Option Config) (d : Value) (v : Value) :
    Engine (Except (List Failure) Value) := do
  validateSchema scope given (← schemaOf scope given d) v

end Engine
end Schemata
