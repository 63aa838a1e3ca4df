import Schemata.Arena
import Schemata.Constraint.Check
import Schemata.Schema.Expression
import Schemata.Validation.Failure

/-! Checks: how a value is checked and rebuilt, put together from the checks of its parts. -/
namespace Schemata

/-- What surrounds a value while it is checked: the number of references followed, those being followed on
this very value, and those being followed on values around it that may be met again. -/
structure Visit where
  depth : Nat
  here : List (Nat × Nat)
  around : List ((Nat × Nat) × Value.Identity)

/-- What became of a checked value. `rebuilt` says whether the output is a new container. -/
structure Outcome where
  output : Value
  rebuilt : Bool
  failures : List Failure

abbrev Check := Visit → Value → Except Fault Outcome

namespace Visit

def root : Visit := ⟨0, [], []⟩

/-- The surroundings of another value: a part of this one, or a container built from it. -/
def renewed (visit : Visit) : Visit := { visit with here := [] }

/-- Follows a reference on a value, unless it is being followed there already. -/
def enter? (visit : Visit) (r : Ref) (v : Value) : Option Visit :=
  let slot := (r.arena, r.handle)
  match v.identity? with
  | some identity =>
    if visit.around.contains (slot, identity) then none
    else some { visit with depth := visit.depth + 1, around := (slot, identity) :: visit.around }
  | none =>
    if visit.here.contains slot then none
    else some { visit with depth := visit.depth + 1, here := slot :: visit.here }

end Visit

namespace Outcome

def pass (v : Value) : Outcome := ⟨v, false, []⟩

def fail (v : Value) (message constraint : String) (code : Code) (actual : Value) : Outcome :=
  ⟨v, false, [⟨[], message, constraint, code, actual⟩]⟩

def isOk (o : Outcome) : Bool := o.failures.isEmpty

/-- The outcome of a part, its failures seen from the whole. -/
def within (s : Segment) (o : Outcome) : Outcome :=
  { o with failures := o.failures.map (Failure.within s) }

def outputs (os : List Outcome) : List Value := os.map (·.output)

def allFailures (os : List Outcome) : List Failure := os.flatMap (·.failures)

end Outcome

namespace Keyword

def article : Keyword → String
  | .null => "null"
  | .undefined => "undefined"
  | .integer => "an integer"
  | .object => "an object"
  | .unknown => "an unknown"
  | k => "a " ++ k.name

def check (k : Keyword) (v : Value) : Verdict :=
  if k.holds v then .valid
  else
    .refuse ("must be " ++ k.article ++ " (was " ++ v.described ++ ")") .invalidType k.name
      (.string k.name) v

end Keyword

namespace Producer

/-- What happens when a constraint is asked for a value. -/
def uncalled : Raised :=
  ⟨"TypeError", "Constraint.__call__() missing 1 required positional argument: 'value'"⟩

/-- A fresh default: what a factory makes, or a deep copy of a constant. -/
def produce (hooks : Hooks) (copy : Nat) (p : Producer) : Except Fault Value :=
  if p.isFactory then
    match p.source with
    | .callable c => (hooks.make c).mapError fun e => .schema (.producer e)
    | _ => .error (.schema (.producer uncalled))
  else if p.source.isCopyable then .ok (p.source.copied copy)
  else .error .uncopyable

end Producer

namespace Check

/-- Runs a check on a part of the value. -/
def inside (c : Check) (s : Segment) (visit : Visit) (v : Value) : Except Fault Outcome :=
  (c visit.renewed v).map (Outcome.within s)

/-- A trial run. -/
def accepts (c : Check) (visit : Visit) (v : Value) : Except Fault Bool :=
  (c visit v).map Outcome.isOk

def keyword (k : Keyword) : Check := fun _ v =>
  .ok ⟨v, false, Failure.ofVerdict k.name (k.check v)⟩

def literal (literal : Value) : Check := fun _ v =>
  .ok (if v.domain = literal.domain ∧ literal.literalEqual v = true then .pass v
    else
      .fail v ("must be " ++ literal.formatted ++ " (was " ++ v.described ++ ")") literal.formatted
        .literalMismatch v)

/-- Failures of all constraints, in their order. -/
def constraintFailures (hooks : Hooks) (v : Value) : List Constraint → Except Fault (List Failure)
  | [] => .ok []
  | c :: cs => do
    let verdict ← (c.check hooks v).mapError Fault.check
    pure (Failure.ofVerdict c.description verdict ++ (← constraintFailures hooks v cs))

/-- Constraints look at the output of an accepted value. -/
def constrained (hooks : Hooks) (base : Check) (cs : List Constraint) : Check := fun visit v => do
  let o ← base visit v
  if o.isOk then pure { o with failures := (← constraintFailures hooks o.output cs) } else pure o

/-- Every member checks what the one before it put out. -/
def conjunction : List Check → Check
  | [] => fun _ v => .ok (.pass v)
  | c :: cs => fun visit v => do
    let o ← c visit v
    let rest ← conjunction cs (if o.rebuilt then visit.renewed else visit) o.output
    pure ⟨rest.output, o.rebuilt || rest.rebuilt, o.failures ++ rest.failures⟩

/-- The first branch that accepts, or the failures of all branches before it was found. -/
def firstAccepting (visit : Visit) (v : Value) :
    List (Schema × Check) → Except Fault (Outcome ⊕ List (Schema × List Failure))
  | [] => .ok (.inr [])
  | (s, c) :: rest => do
    let o ← c visit v
    if o.isOk then pure (.inl o)
    else
      match ← firstAccepting visit v rest with
      | .inl accepted => pure (.inl accepted)
      | .inr attempts => pure (.inr ((s, o.failures) :: attempts))

/-- Failures of the branches whose domains the value lies in. -/
def matching (domains : Schema → Except Fault (Option DomainSet)) (d : Domain) :
    List (Schema × List Failure) → Except Fault (List (List Failure))
  | [] => .ok []
  | (s, fs) :: rest => do
    let fits := match ← domains s with
      | none => true
      | some ds => ds d
    let others ← matching domains d rest
    pure (if fits then fs :: others else others)

/-- The first accepting branch decides. When none accepts, a single branch of the value's domain reports
its own failures. -/
def union (domains : Schema → Except Fault (Option DomainSet)) (branches : List (Schema × Check)) : Check :=
  fun visit v => do
    match ← firstAccepting visit v branches with
    | .inl accepted => pure accepted
    | .inr attempts =>
      match ← matching domains v.domain attempts with
      | [fs] => pure ⟨v, false, fs⟩
      | _ =>
        let text := (Schema.union (branches.map (·.1))).expression
        pure (.fail v ("must be " ++ text ++ " (was " ++ v.described ++ ")") text .invalidType v)

/-- A default, checked where the configuration asks for it. -/
def default (config : Config) (hooks : Hooks) (c : Check) (p : Producer) (s : Segment) (visit : Visit) :
    Except Fault Outcome := do
  let v ← p.produce hooks (visit.depth + 1)
  if config.defensiveDefaults then c.inside s visit v else pure (.pass v)

end Check

/-- An entry of a checked mapping: its key, the key as given, the item. -/
structure Entry where
  key : Key
  raw : Value
  item : Value

namespace Entry

def find? (es : List Entry) (key : Key) : Option Entry :=
  es.find? fun e => e.key == key

/-- Takes up one more entry. What is no key is a failure, and so is a key that was there before. -/
def add (es : List Entry) (raw item : Value) : List Entry × List Failure :=
  match Key.ofValue? raw with
  | none =>
    (es, [⟨[.name raw.bareText], raw.printed ++ " is not a valid key", "key", .invalidType, raw⟩])
  | some key =>
    match find? es key with
    | some first =>
      (es, [⟨[.ofKey key], "must be given once (also given as " ++ first.raw.printed ++ ")", "unique_keys",
        .duplicateKey, raw⟩])
    | none => (es ++ [⟨key, raw, item⟩], [])

/-- The entries of a mapping by key, and the failures of its keys. -/
def collect : List Entry → List (Value × Value) → List Entry × List Failure
  | es, [] => (es, [])
  | es, (raw, item) :: rest =>
    let step := add es raw item
    let final := collect step.1 rest
    (final.1, step.2 ++ final.2)

end Entry

/-- Entries of an output under construction, with the failures met on the way. -/
structure Rebuilt where
  entries : List (Value × Value)
  failures : List Failure

namespace Rebuilt

def empty : Rebuilt := ⟨[], []⟩

def append (a b : Rebuilt) : Rebuilt := ⟨a.entries ++ b.entries, a.failures ++ b.failures⟩

def item (key : Key) (o : Outcome) : Rebuilt := ⟨[(key.toValue, o.output)], o.failures⟩

def failure (key : Key) (message constraint : String) (code : Code) (actual : Value) : Rebuilt :=
  ⟨[], [⟨[.ofKey key], message, constraint, code, actual⟩]⟩

end Rebuilt

namespace Check

def isUndefined : Value → Bool
  | .undefined => true
  | _ => false

/-- The entry of a property, unless it counts as absent. -/
def given? (config : Config) (es : List Entry) (p : Property Check) : Option Entry :=
  (Entry.find? es p.key).filter fun e =>
    !(isUndefined e.item && p.presence.isOptional && !config.exactOptional)

def property (config : Config) (hooks : Hooks) (visit : Visit) (es : List Entry) (p : Property Check) :
    Except Fault Rebuilt :=
  match given? config es p with
  | some e => (p.value.inside (.ofKey p.key) visit e.item).map (Rebuilt.item p.key)
  | none =>
    match p.presence with
    | .required =>
      pure (.failure p.key "must be present" ("required[" ++ p.key.text ++ "]") .requiredKeyMissing .null)
    | .optional => pure .empty
    | .defaultable d =>
      (p.value.default config hooks d (.ofKey p.key) visit).map (Rebuilt.item p.key)

def properties (config : Config) (hooks : Hooks) (visit : Visit) (es : List Entry) :
    List (Property Check) → Except Fault Rebuilt
  | [] => .ok .empty
  | p :: ps => do
    let r ← property config hooks visit es p
    pure (r.append (← properties config hooks visit es ps))

/-- Whether an index signature takes a key. -/
def indexTakes (index : Option (IndexSignature Check)) (visit : Visit) (key : Key) :
    Except Fault (Option Check) :=
  match index with
  | none => .ok none
  | some i => do
    pure (if ← i.key.accepts visit.renewed key.toValue then some i.value else none)

/-- An entry that no property declares: the index signature comes first, then the policy. -/
def undeclared (shape : ObjectShape Check) (visit : Visit) (e : Entry) : Except Fault Rebuilt := do
  match ← indexTakes shape.index visit e.key with
  | some value => (value.inside (.ofKey e.key) visit e.item).map (Rebuilt.item e.key)
  | none =>
    match shape.undeclared with
    | .reject =>
      pure (.failure e.key ("must be removed (undeclared key " ++ e.key.text ++ ")") "undeclared"
        .undeclaredKey e.raw)
    | .ignore => pure (.item e.key (.pass e.item))
    | .delete => pure .empty

def undeclaredAll (shape : ObjectShape Check) (visit : Visit) : List Entry → Except Fault Rebuilt
  | [] => .ok .empty
  | e :: es => do
    let r ← if shape.declares e.key then pure .empty else undeclared shape visit e
    pure (r.append (← undeclaredAll shape visit es))

/-- Declared properties come first and in their order, then all other entries in theirs. -/
def object (config : Config) (hooks : Hooks) (shape : ObjectShape Check) : Check := fun visit v =>
  match v.entries? with
  | none =>
    .ok (.fail v ("must be an object (was " ++ v.described ++ ")") "object" .invalidType v)
  | some raw => do
    let (es, keyFailures) := Entry.collect [] raw
    let declared ← properties config hooks visit es shape.properties
    let rest ← undeclaredAll shape visit es
    let all := declared.append rest
    pure ⟨.mapping all.entries, true, keyFailures ++ all.failures⟩

/-- Elements before the variadic one. Behind the last item defaults are filled in, up to an element that
has none. -/
def fixedElements (config : Config) (hooks : Hooks) (visit : Visit) :
    Nat → List (Element Check) → List Value → Except Fault (List Outcome)
  | _, [], _ => .ok []
  | i, e :: es, v :: vs => do
    let o ← e.value.inside (.position i) visit v
    pure (o :: (← fixedElements config hooks visit (i + 1) es vs))
  | i, e :: es, [] =>
    match e.role with
    | .defaultable d => do
      let o ← e.value.default config hooks d (.position i) visit
      pure (o :: (← fixedElements config hooks visit (i + 1) es []))
    | _ => .ok []

def repeatedElement (c : Check) (visit : Visit) : Nat → List Value → Except Fault (List Outcome)
  | _, [] => .ok []
  | i, v :: vs => do
    let o ← c.inside (.position i) visit v
    pure (o :: (← repeatedElement c visit (i + 1) vs))

def trailingElements (visit : Visit) :
    Nat → List (Element Check) → List Value → Except Fault (List Outcome)
  | i, e :: es, v :: vs => do
    let o ← e.value.inside (.position i) visit v
    pure (o :: (← trailingElements visit (i + 1) es vs))
  | _, _, _ => .ok []

/-- Items of a tuple of legal length, from the front, the middle and the end. -/
def elements (config : Config) (hooks : Hooks) (es : List (Element Check)) (visit : Visit)
    (items : List Value) : Except Fault (List Outcome) := do
  let fixed := Element.fixed es
  let trailing := Element.trailing es
  let front := items.take (items.length - trailing.length)
  let head ← fixedElements config hooks visit 0 fixed front
  match Element.variadic? es with
  | none => pure head
  | some e =>
    let middle ← repeatedElement e.value visit fixed.length (front.drop fixed.length)
    let tail ← trailingElements visit front.length trailing (items.drop front.length)
    pure (head ++ middle ++ tail)

def lengthFits (es : List (Element Check)) (n : Nat) : Bool :=
  Element.leastLength es ≤ n && (match Element.greatestLength? es with
    | some high => n ≤ high
    | none => true)

/-- A wrong length is the only failure reported of a sequence. The output keeps its class; an empty tuple
is no new container. -/
def tuple (config : Config) (hooks : Hooks) (shape : List (Element Schema)) (es : List (Element Check)) :
    Check := fun visit v =>
  match v.items? with
  | none => .ok (.fail v ("must be an array (was " ++ v.described ++ ")") "array" .invalidType v)
  | some (sequence, items) =>
    if lengthFits es items.length then do
      let os ← elements config hooks es visit items
      pure ⟨sequence.make (Outcome.outputs os), !(sequence == .tuple && os.isEmpty),
        Outcome.allFailures os⟩
    else
      .ok (.fail v ("must be " ++ Element.describedLength es ++ " (was " ++ toString items.length ++ ")")
        (Schema.tuple shape).expression .invalidLength (.int items.length))

end Check
end Schemata
