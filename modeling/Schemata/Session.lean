import Schemata.Algebra.Merge
import Schemata.Memo

/-! Sessions: the scopes that are open, the memo of derived schemas, the settings of the environment, and
the operations that use them. An operation that fails keeps what it changed before. -/
namespace Schemata

/-- A derived schema, by what it is derived from. -/
inductive DerivedKey where
  | intersection (a b : Schema)
  | merge (base : Schema) (upper : ObjectShape Schema)

namespace DerivedKey

def same : DerivedKey → DerivedKey → Bool
  | .intersection a b, .intersection c d => a.same c && b.same d
  | .merge a p, .merge b q => a.same b && (Schema.object p).same (.object q)
  | _, _ => false

def changeable? : DerivedKey → Option String
  | .intersection a b => a.changeable?.or b.changeable?
  | .merge base upper => base.changeable?.or (Schema.object upper).changeable?

end DerivedKey

instance : BEq DerivedKey := ⟨DerivedKey.same⟩

/-- Work that waits until all definitions of a batch are complete. -/
inductive DeferredCheck where
  | intersection (a b : Schema)
  | overlap (shape : ObjectShape Schema) (index : IndexSignature Schema)

/-- A scope takes definitions until it is frozen. While a batch is being defined it holds the checks that
wait for its end. -/
structure Scope where
  config : Config
  frozen : Bool
  waiting : Option (List DeferredCheck)

/-- A property that an index signature takes too, with a value that the signature's does not contain. -/
structure OverlapWarning where
  property : Property Schema
  index : IndexSignature Schema

namespace OverlapWarning

def text (w : OverlapWarning) : String :=
  "Property " ++ w.property.key.text ++ " (" ++ w.property.value.expression ++
    ") overlaps index signature " ++ w.index.expression ++ "; precedence between them is unspecified"

end OverlapWarning

/-- Scopes are numbered like their arenas. -/
structure Session where
  application : String
  hooks : Hooks
  environment : Variables
  arenas : List Arena
  scopes : List (Nat × Scope)
  memo : Memo DerivedKey (Except Fault Schema)
  warnings : List OverlapWarning
  nextScope : Nat
  nextProducer : Nat

abbrev Engine := ExceptT Fault (StateM Session)

namespace Session

def memoCapacity : Nat := 4096

def start (application : String) (hooks : Hooks) : Session :=
  ⟨application, hooks, [], [], [], .empty (some memoCapacity), [], 1, 0⟩

def settings (s : Session) : Except Fault Settings :=
  Settings.read s.application s.environment []

/-- The configuration that holds where no scope and no configuration is given. -/
def ambient (s : Session) : Except Fault Config :=
  s.settings.bind Config.ofSettings

def scope? (s : Session) (id : Nat) : Option Scope := s.scopes.lookup id

def arena? (s : Session) (id : Nat) : Option Arena := s.arenas.find? fun a => a.id == id

def configOf (s : Session) (scope : Option Nat) : Except Fault Config :=
  match scope.bind s.scope? with
  | some sc => .ok sc.config
  | none => s.ambient

def env (s : Session) (scope : Option Nat) : Env :=
  ⟨s.hooks, s.arenas, s.configOf scope⟩

def setScope (s : Session) (id : Nat) (sc : Scope) : Session :=
  { s with scopes := s.scopes.map fun e => if e.1 == id then (id, sc) else e }

def setArena (s : Session) (a : Arena) : Session :=
  { s with arenas := s.arenas.map fun b => if b.id == a.id then a else b }

end Session

namespace Engine

def lift {α : Type} (x : Except Fault α) : Engine α :=
  match x with
  | .ok a => pure a
  | .error e => throw e

def env (scope : Option Nat) : Engine Env := do pure ((← get).env scope)

/-- The given configuration, else the scope's, else the ambient one. -/
def config (scope : Option Nat) (given : Option Config) : Engine Config := do
  match given with
  | some c => pure c
  | none => lift ((← get).configOf scope)

def newProducer (source : Value) (isFactory : Bool) : Engine Producer := do
  let s ← get
  set { s with nextProducer := s.nextProducer + 1 }
  pure ⟨⟨s.nextProducer, 0⟩, source, isFactory⟩

/-- The producer of a default. A producer stands for itself, and what can be called is a factory. -/
def producerOf (source : Value) : Engine Producer := do
  match Producer.ofData? source with
  | some p => pure p
  | none => newProducer source source.isCallable

/-- Puts a check off to the end of the scope's batch; outside of a batch there is nothing to wait for. -/
def defer (scope : Option Nat) (check : DeferredCheck) : Engine Bool := do
  let s ← get
  match scope with
  | none => pure false
  | some id =>
    match s.scope? id with
    | some sc =>
      match sc.waiting with
      | some waiting =>
        set (s.setScope id { sc with waiting := some (waiting ++ [check]) })
        pure true
      | none => pure false
    | none => pure false

/-- Looks a derived schema up, or works it out and keeps it. Errors of schemas are kept like results; a
result that met a pending definition is not. -/
def derive (key : DerivedKey) (work : Unit → Except Fault Schema × Bool) : Engine (Schema × Bool) := do
  if key.changeable?.isSome then
    let (outcome, deferred) := work ()
    pure (← lift outcome, deferred)
  else
    let s ← get
    let (memo, request) := s.memo.request key
    set { s with memo := memo }
    match request with
    | .known outcome => pure (← lift outcome, false)
    | _ =>
      let (outcome, deferred) := work ()
      let keep := match outcome with
        | .ok _ => !deferred
        | .error e => e.isSchemaError
      modify fun s => { s with memo := s.memo.settle key outcome keep }
      pure (← lift outcome, deferred)

/-- The intersection of two schemas. One that met a pending definition is checked again when the batch is
complete. -/
def intersection (scope : Option Nat) (a b : Schema) : Engine Schema := do
  let e ← env scope
  let (s, deferred) ← derive (.intersection a b) fun _ => e.intersect a b
  if deferred then discard (defer scope (.intersection a b))
  pure s

/-- Intersects from the left. -/
def meetAll (scope : Option Nat) : Schema → List Schema → Engine Schema
  | s, [] => pure s
  | s, t :: rest => do meetAll scope (← intersection scope s t) rest

def merge (scope : Option Nat) (base : Schema) (overrides : Overrides) : Engine Schema := do
  let e ← env scope
  match overrides with
  | .object upper =>
    pure (← derive (.merge base upper) fun _ => (e.merge base overrides, false)).1
  | _ => lift (e.merge base overrides)

def union (scope : Option Nat) (ss : List Schema) : Engine Schema := do
  lift ((← env scope).union ss)

/-- Warns of every property that the index signature takes too and does not contain. -/
def warnOverlaps (scope : Option Nat) (index : IndexSignature Schema) :
    List (Property Schema) → Engine Unit
  | [] => pure ()
  | p :: ps => do
    let e ← env scope
    if ← lift (e.admits index.key p.key.toValue) then
      if !(← lift (e.isSubset p.value index.value)) then
        modify fun s => { s with warnings := s.warnings ++ [⟨p, index⟩] }
    warnOverlaps scope index ps

/-- Builds an object and looks for overlaps of its index signature. -/
def buildObject (scope : Option Nat) (shape : ObjectShape Schema) : Engine Schema := do
  let s ← lift ((← env scope).makeObject shape)
  match shape.index with
  | none => pure s
  | some index =>
    if !(← defer scope (.overlap shape index)) then warnOverlaps scope index shape.properties
    pure s

def runDeferred (scope : Option Nat) : DeferredCheck → Engine Unit
  | .intersection a b => discard (intersection scope a b)
  | .overlap shape index => warnOverlaps scope index shape.properties

def runAllDeferred (scope : Option Nat) : List DeferredCheck → Engine Unit
  | [] => pure ()
  | c :: cs => do
    runDeferred scope c
    runAllDeferred scope cs

end Engine
end Schemata
