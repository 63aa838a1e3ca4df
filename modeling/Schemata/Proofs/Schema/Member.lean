import Schemata.Proofs.Constraint.Implication
import Schemata.Proofs.Schema.Parts
import Schemata.Proofs.Value.Fields
import Schemata.Proofs.Value.Scalar

/-! What it means to be a value of a schema, apart from any check: a relation with one rule for every form of
schema. It covers schemas without index signatures, without defaults, and with plain constraints. -/
namespace Schemata

namespace Entry

/-- The entry of a key, unless it counts as absent. -/
def given? (exact : Bool) (es : List Entry) (key : Key) (presence : Presence) : Option Entry :=
  (find? es key).filter fun e => !(Check.isUndefined e.item && presence.isOptional && !exact)

theorem given?_exact (es : List Entry) (key : Key) (presence : Presence) :
    given? true es key presence = find? es key := by
  cases h : find? es key <;> simp [given?, h]

theorem given?_find {exact : Bool} {es : List Entry} {key : Key} {presence : Presence} {e : Entry}
    (h : given? exact es key presence = some e) : find? es key = some e :=
  (Option.filter_eq_some_iff.mp h).1

end Entry

namespace Element

variable {S : Type}

/-- A sequence of `n` items has a legal length. -/
def Admits (es : List (Element S)) (n : Nat) : Prop :=
  leastLength es ≤ n ∧ ∀ high, greatestLength? es = some high → n ≤ high

/-- Every item beside what the tuple asks of it. -/
def places (es : List (Element S)) (items : List Value) : List (S × Value) :=
  let front := items.take (items.length - (trailing es).length)
  ((fixed es).map (·.value)).zip front ++
    match variadic? es with
    | none => []
    | some e =>
      ((front.drop (fixed es).length).map fun x => (e.value, x)) ++
        ((trailing es).map (·.value)).zip (items.drop front.length)

end Element

/-- What the schemas of a fragment may use: the references of `named`, and lazy conjunctions. A conjunction
passes on what its members put out, so beside it no object deletes anything. -/
structure Dialect where
  named : Ref → Prop
  lazy : Prop

/-- The fragment has references. -/
def Dialect.Follows (d : Dialect) : Prop := ∃ r, d.named r

/-- The fragment without references and conjunctions. -/
def Dialect.plain : Dialect := ⟨fun _ => False, False⟩

/-- The fragment without its references. -/
def Dialect.closed (d : Dialect) : Dialect := ⟨fun _ => False, d.lazy⟩

namespace Schema

/-- A single node belongs to the fragment. -/
def Fits (d : Dialect) : Schema → Prop
  | .keyword _ => True
  | .literal v => v.isScalar = true
  | .constrained _ cs => ∀ c ∈ cs, c.Plain
  | .union _ => True
  | .intersection _ => d.lazy
  | .ref r => d.named r
  | .object o => o.index = none ∧ o.keys.Nodup ∧ (∀ p ∈ o.properties, p.presence.default? = none) ∧
      (d.lazy → o.undeclared ≠ .delete)
  | .tuple es => Role.shapeError? (es.map (·.role)) = none ∧ ∀ e ∈ es, e.role.default? = none

/-- The value belongs to the schema. An optional property may be given as undefined unless optional is
`exact`. -/
inductive Member (env : Env) (exact : Bool) : Schema → Value → Prop
  | keyword {k : Keyword} {v : Value} : k.holds v = true → Member env exact (.keyword k) v
  | literal {w v : Value} : v.domain = w.domain ∧ w.literalEqual v = true → Member env exact (.literal w) v
  | constrained {s : Schema} {cs : List Constraint} {v : Value} : Member env exact s v →
      (∀ c ∈ cs, c.Accepts v) → Member env exact (.constrained s cs) v
  | union {bs : List Schema} {s : Schema} {v : Value} : s ∈ bs → Member env exact s v →
      Member env exact (.union bs) v
  | intersection {ms : List Schema} {v : Value} : (∀ s ∈ ms, Member env exact s v) →
      Member env exact (.intersection ms) v
  | ref {r : Ref} {s : Schema} {v : Value} : env.resolve r = .ok s → Member env exact s v →
      Member env exact (.ref r) v
  | object {o : ObjectShape Schema} {v : Value} {es : List Entry} : v.fields? = some es →
      (∀ p ∈ o.properties, ∀ e, Entry.given? exact es p.key p.presence = some e →
        Member env exact p.value e.item) →
      (∀ p ∈ o.properties, p.presence.isRequired = true →
        (Entry.given? exact es p.key p.presence).isSome = true) →
      (o.undeclared = .reject → ∀ e ∈ es, o.declares e.key = true) → Member env exact (.object o) v
  | tuple {es : List (Element Schema)} {v : Value} {q : Value.Sequence} {items : List Value} :
      v.items? = some (q, items) → Element.Admits es items.length →
      (∀ t ∈ Element.places es items, Member env exact t.1 t.2) → Member env exact (.tuple es) v

/-- A property is met by the entries of a mapping. -/
def Met (env : Env) (exact : Bool) (es : List Entry) (p : Property Schema) : Prop :=
  (∀ e, Entry.given? exact es p.key p.presence = some e → Member env exact p.value e.item) ∧
    (p.presence.isRequired = true → (Entry.given? exact es p.key p.presence).isSome = true)

section Rules

variable {env : Env} {exact : Bool} {v : Value}

@[simp] theorem member_keyword {k : Keyword} : Member env exact (.keyword k) v ↔ k.holds v = true :=
  ⟨fun h => by cases h; assumption, .keyword⟩

theorem member_literal {w : Value} : Member env exact (.literal w) v ↔
    v.domain = w.domain ∧ w.literalEqual v = true :=
  ⟨fun h => by cases h; assumption, .literal⟩

@[simp] theorem member_constrained {s : Schema} {cs : List Constraint} :
    Member env exact (.constrained s cs) v ↔ Member env exact s v ∧ ∀ c ∈ cs, c.Accepts v :=
  ⟨fun h => by cases h; exact ⟨‹_›, ‹_›⟩, fun h => .constrained h.1 h.2⟩

@[simp] theorem member_union {bs : List Schema} :
    Member env exact (.union bs) v ↔ ∃ s ∈ bs, Member env exact s v :=
  ⟨fun h => by cases h; exact ⟨_, ‹_›, ‹_›⟩, fun ⟨_, hs, h⟩ => .union hs h⟩

@[simp] theorem member_intersection {ms : List Schema} :
    Member env exact (.intersection ms) v ↔ ∀ s ∈ ms, Member env exact s v :=
  ⟨fun h => by cases h; assumption, .intersection⟩

theorem member_ref {r : Ref} {s : Schema} (hr : env.resolve r = .ok s) :
    Member env exact (.ref r) v ↔ Member env exact s v := by
  constructor
  · intro h
    cases h with
    | ref h hs =>
      obtain rfl := Except.ok.inj (hr.symm.trans h)
      exact hs
  · exact .ref hr

theorem member_object {o : ObjectShape Schema} {es : List Entry} (hf : v.fields? = some es) :
    Member env exact (.object o) v ↔ (∀ p ∈ o.properties, Met env exact es p) ∧
      (o.undeclared = .reject → ∀ e ∈ es, o.declares e.key = true) := by
  constructor
  · intro h
    cases h with
    | object hf' h₁ h₂ h₃ =>
      obtain rfl := Option.some.inj (hf.symm.trans hf')
      exact ⟨fun p hp => ⟨h₁ p hp, h₂ p hp⟩, h₃⟩
  · exact fun h => .object hf (fun p hp => (h.1 p hp).1) (fun p hp => (h.1 p hp).2) h.2

theorem fields_of_member {o : ObjectShape Schema} (h : Member env exact (.object o) v) :
    ∃ es, v.fields? = some es := by
  cases h
  exact ⟨_, ‹_›⟩

theorem member_tuple {es : List (Element Schema)} {q : Value.Sequence} {items : List Value}
    (hi : v.items? = some (q, items)) : Member env exact (.tuple es) v ↔
      Element.Admits es items.length ∧ ∀ t ∈ Element.places es items, Member env exact t.1 t.2 := by
  constructor
  · intro h
    cases h with
    | tuple hi' h₁ h₂ =>
      obtain ⟨rfl, rfl⟩ := Prod.mk.inj (Option.some.inj (hi.symm.trans hi'))
      exact ⟨h₁, h₂⟩
  · exact fun h => .tuple hi h.1 h.2

theorem items_of_member {es : List (Element Schema)} (h : Member env exact (.tuple es) v) :
    ∃ q items, v.items? = some (q, items) := by
  cases h
  exact ⟨_, _, ‹_›⟩

theorem member_object_iff {o : ObjectShape Schema} : Member env exact (.object o) v ↔
    ∃ es, v.fields? = some es ∧ (∀ p ∈ o.properties, Met env exact es p) ∧
      (o.undeclared = .reject → ∀ e ∈ es, o.declares e.key = true) := by
  constructor
  · intro h
    obtain ⟨es, hf⟩ := fields_of_member h
    exact ⟨es, hf, (member_object hf).mp h⟩
  · rintro ⟨es, hf, h⟩
    exact (member_object hf).mpr h

theorem member_tuple_iff {es : List (Element Schema)} : Member env exact (.tuple es) v ↔
    ∃ q items, v.items? = some (q, items) ∧ Element.Admits es items.length ∧
      ∀ t ∈ Element.places es items, Member env exact t.1 t.2 := by
  constructor
  · intro h
    obtain ⟨q, items, hi⟩ := items_of_member h
    exact ⟨q, items, hi, (member_tuple hi).mp h⟩
  · rintro ⟨q, items, hi, h⟩
    exact (member_tuple hi).mpr h

theorem member_literal_iff {w : Value} (hw : w.isScalar = true) :
    Member env exact (.literal w) v ↔ w.Twin v := member_literal.trans (Value.twin_iff hw)

@[simp] theorem not_member_never : ¬ Member env exact never v := by simp [never]

@[simp] theorem member_unknown : Member env exact unknown v := by
  simp [unknown, Keyword.holds, Keyword.domains]

end Rules

end Schema

/-- Every reference of the dialect leads to an object or a tuple of the fragment. -/
def Env.Grounded (env : Env) (d : Dialect) : Prop :=
  ∀ r, d.named r → ∃ t, env.target r = .filled t ∧ t.isStructure = true ∧ t.Every (Schema.Fits d)

/-- The fragment with the references that an arena gives for its names. -/
def Dialect.over (a : Arena) (lazy : Prop) : Dialect := ⟨fun r => a.ref? r.name = some r, lazy⟩

/-- Every name of the arena stands for an object or a tuple of the fragment. -/
def Arena.Complete (a : Arena) (lazy : Prop) : Prop :=
  ∀ name r, a.ref? name = some r →
    ∃ t, a.target r = .filled t ∧ t.isStructure = true ∧ t.Every (Schema.Fits (.over a lazy))

theorem Env.grounded_over {env : Env} {a : Arena} {lazy : Prop}
    (hin : env.arenas.find? (fun b => b.id == a.id) = some a) (ha : a.Complete lazy) :
    env.Grounded (.over a lazy) := by
  intro r hr
  obtain ⟨t, ht, h⟩ := ha r.name r hr
  obtain ⟨handle, -, hhandle⟩ := Option.map_eq_some_iff.mp hr
  have hid : r.arena = a.id := by rw [← hhandle]
  exact ⟨t, by simp only [Env.target, hid, hin]; exact ht, h⟩

/-- An environment without scopes. -/
def Env.bare : Env := ⟨⟨fun _ _ => .value .null, fun _ => .ok .null⟩, [], .ok Config.default⟩

theorem Env.grounded_closed {env : Env} (d : Dialect) : env.Grounded d.closed := nofun

namespace Env.Grounded

variable {env : Env} {d : Dialect} {r : Ref}

theorem resolve (h : env.Grounded d) (hr : d.named r) :
    ∃ t, env.resolve r = .ok t ∧ t.isStructure = true ∧ t.Every (Schema.Fits d) := by
  obtain ⟨t, ht, h⟩ := h r hr
  exact ⟨t, by simp [Env.resolve, ht], h⟩

theorem resolve? (h : env.Grounded d) (hr : d.named r) :
    ∃ t, env.resolve? r = .ok (some t) ∧ env.resolve r = .ok t ∧ t.isStructure = true ∧
      t.Every (Schema.Fits d) := by
  obtain ⟨t, ht, h⟩ := h r hr
  exact ⟨t, by simp [Env.resolve?, ht], by simp [Env.resolve, ht], h⟩

end Env.Grounded
end Schemata
