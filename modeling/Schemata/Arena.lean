import Schemata.Config

/-! Arenas hold the named schemas of a scope in numbered slots. A reference names a slot and does not keep
its arena alive. -/
namespace Schemata

/-- A slot is empty until its schema is known, and again after its name was given up. Handles are never
used twice. -/
structure Arena where
  id : Nat
  slots : List (Option Schema)
  handles : List (String × Nat)

/-- What a reference leads to. -/
inductive Target where
  | lost
  | pending
  | filled (s : Schema)

namespace Arena

def empty (id : Nat) : Arena := ⟨id, [], []⟩

def ref? (a : Arena) (name : String) : Option Ref :=
  (a.handles.lookup name).map fun h => ⟨a.id, h, name⟩

def names (a : Arena) : List String := a.handles.map (·.1)

/-- Reserves a slot for a name. -/
def allocate (a : Arena) (name : String) : Ref × Arena :=
  (⟨a.id, a.slots.length, name⟩,
    { a with slots := a.slots ++ [none], handles := a.handles ++ [(name, a.slots.length)] })

def fill (a : Arena) (r : Ref) (s : Schema) : Arena :=
  { a with slots := a.slots.set r.handle (some s) }

/-- Gives up a name and empties its slot. -/
def discard (a : Arena) (name : String) : Arena :=
  match a.handles.lookup name with
  | some h =>
    { a with slots := a.slots.set h none, handles := a.handles.filter fun e => e.1 != name }
  | none => a

def target (a : Arena) (r : Ref) : Target :=
  match a.slots[r.handle]? with
  | some (some s) => .filled s
  | _ => .pending

end Arena

/-- What an operation on schemas may look at: the meaning of supplied functions, the arenas that are alive,
the configuration of trial runs. -/
structure Env where
  hooks : Hooks
  arenas : List Arena
  trial : Except Fault Config

namespace Env

def target (env : Env) (r : Ref) : Target :=
  match env.arenas.find? fun a => a.id == r.arena with
  | some a => a.target r
  | none => .lost

/-- Follows a reference; a schema still being defined is no answer. -/
def resolve? (env : Env) (r : Ref) : Except Fault (Option Schema) :=
  match env.target r with
  | .lost => .error (.definition (.lostReference r.name))
  | .pending => .ok none
  | .filled s => .ok (some s)

/-- Follows a reference to a complete definition. -/
def resolve (env : Env) (r : Ref) : Except Fault Schema :=
  match env.target r with
  | .lost => .error (.definition (.lostReference r.name))
  | .pending => .error (.definition (.pendingReference r.name))
  | .filled s => .ok s

def slotCount (env : Env) : Nat :=
  env.arenas.foldr (fun a n => a.slots.length + n) 0

/-- Follows references until a schema of another kind, at most `fuel` of them. -/
def throughRefs (env : Env) : Nat → Schema → Except Fault Schema
  | fuel + 1, .ref r => do throughRefs env fuel (← env.resolve r)
  | _, s => pure s

/-- Follows references until a schema of another kind; a chain meets no slot twice. -/
def deref (env : Env) (s : Schema) : Except Fault Schema :=
  env.throughRefs (env.slotCount + 1) s

end Env
end Schemata
