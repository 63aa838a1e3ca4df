import Schemata.Proofs.Algebra.Compose
import Schemata.Proofs.Algebra.Order
import Schemata.Proofs.Validation.Keys

/-! Objects of keywords with index signatures, key by key. An entry goes by its property, else by the index
signature, else by the policy. -/
namespace Schemata

/-- Properties and an index signature of keywords, under different keys and without defaults. The schema of the
keys has references only if it is `linked`. -/
structure ObjectShape.OfKeywords (linked : Prop) (o : ObjectShape Schema) : Prop where
  keys : o.keys.Nodup
  values : ∀ p ∈ o.properties, ∃ k, p.value = .keyword k
  defaults : ∀ p ∈ o.properties, p.presence.default? = none
  index : ∀ i, o.index = some i → i.key.Every (Schema.KeyNode linked) ∧ ∃ k, i.value = .keyword k

theorem Presence.same_comm (p q : Presence) : p.same q = q.same p := by
  cases p <;> cases q <;> simp [same, Producer.same, BEq.comm]

namespace Schema

variable {s t : Schema}

/-- Only a keyword itself equals it. -/
theorem eq_keyword_of_same (hs : ∃ k, s = .keyword k) (h : s.same t = true ∨ t.same s = true) : t = s := by
  obtain ⟨k, rfl⟩ := hs
  cases t <;> simp [same] at h ⊢
  exact h.elim Eq.symm id

/-- Only a property of a keyword without a default itself equals it. -/
theorem eq_property_of_same {p q : Property Schema} (hvalue : ∃ k, p.value = .keyword k)
    (hdefault : p.presence.default? = none) (hkey : p.key = q.key)
    (h : p.value.same q.value = true ∨ q.value.same p.value = true) (hpresence : p.presence.same q.presence = true) :
    q = p := by
  have hv := eq_keyword_of_same hvalue h
  have hp := Presence.eq_of_same hpresence hdefault
  cases p
  cases q
  simp_all

theorem eq_properties_of_same {ps qs : List (Property Schema)} (hvalues : ∀ p ∈ ps, ∃ k, p.value = .keyword k)
    (hdefaults : ∀ p ∈ ps, p.presence.default? = none)
    (h : sameProperties ps qs = true ∨ sameProperties qs ps = true) : qs = ps := by
  have pairs : List.Forall₂ (fun p q => p.key = q.key ∧ (p.value.same q.value = true ∨ q.value.same p.value = true) ∧
      p.presence.same q.presence = true) ps qs := by
    rcases h with h | h
    · exact (sameProperties_iff.mp h).imp fun p q h => ⟨h.1, Or.inl h.2.1, h.2.2⟩
    · refine (sameProperties_iff.mp h).flip.imp fun p q h => ⟨h.1.symm, Or.inr h.2.1, ?_⟩
      rw [Presence.same_comm]
      exact h.2.2
  have given : ∀ p ∈ ps, (∃ k, p.value = .keyword k) ∧ p.presence.default? = none := fun p hp =>
    ⟨hvalues p hp, hdefaults p hp⟩
  have equal : List.Forall₂ (· = ·) ps qs := ((List.forall₂_and_left ps qs).mpr ⟨given, pairs⟩).imp fun p q h =>
    (eq_property_of_same h.1.1 h.1.2 h.2.1 h.2.2.1 h.2.2.2).symm
  rw [List.forall₂_eq_eq_eq] at equal
  exact equal.symm

/-- Only an object of keywords equals one. -/
theorem ofKeywords_of_same {linked : Prop} {a : ObjectShape Schema} (ha : a.OfKeywords linked)
    (ht : t.Every (KeyNode True)) (h : (object a).same t = true ∨ t.same (object a) = true) :
    ∃ b, t = .object b ∧ b.OfKeywords linked := by
  cases t with
  | object b =>
    refine ⟨b, rfl, ?_⟩
    obtain ⟨ps, i, u⟩ := a
    obtain ⟨qs, j, w⟩ := b
    simp only [same, Bool.and_eq_true] at h
    obtain rfl := eq_properties_of_same ha.values ha.defaults (h.imp (·.1.1) (·.1.1))
    refine ⟨ha.keys, ha.values, ha.defaults, fun j' hj => ?_⟩
    obtain rfl : j = some j' := hj
    have hindex := h.imp (·.1.2) (·.1.2)
    cases i with
    | none => simp [sameIndex] at hindex
    | some i =>
      obtain ⟨hkey, k, hk⟩ := ha.index i rfl
      obtain ⟨key, value⟩ := i
      obtain ⟨key', value'⟩ := j'
      simp only [sameIndex, Bool.and_eq_true] at hindex
      obtain rfl := eq_keyword_of_same ⟨k, hk⟩ (hindex.imp (·.2) (·.2))
      exact ⟨KeyNode.of_same hkey (ht.part (by simp [parts, IndexSignature.parts])) (hindex.symm.imp (·.1) (·.1)), k, hk⟩
  | _ => simp [same] at h

end Schema

namespace Env

variable {env : Env} {config : Config} {linked : Prop} {a b o : ObjectShape Schema} {es : List Entry} {key : Key}
  {v : Value}

/-- Trial runs follow as many references as the configuration does, where there are references. -/
def TriesLike (env : Env) (config : Config) (linked : Prop) : Prop :=
  ∀ trial, env.trial = .ok trial → linked → trial.maxDepth = config.maxDepth

/-- What an object says of the entries under one key. -/
def Says (env : Env) (config : Config) (o : ObjectShape Schema) (es : List Entry) (key : Key) : Prop :=
  match o.property? key with
  | some p => env.Fulfils config es p
  | none => ∀ e, Entry.find? es key = some e → env.Spares config o e

theorem says_of_property {p : Property Schema} (h : o.property? key = some p) :
    env.Says config o es key ↔ env.Fulfils config es p := by simp [Says, h]

theorem says_of_none (h : o.property? key = none) :
    env.Says config o es key ↔ ∀ e, Entry.find? es key = some e → env.Spares config o e := by simp [Says, h]

/-- An object says of its values what it says of every key. -/
theorem accepts_object_iff (hk : o.keys.Nodup) (hf : v.fields? = some es) :
    env.accepts config (.object o) v = .ok true ↔ ∀ key, env.Says config o es key := by
  have hnodup := Value.nodup_of_fields hf
  rw [accepts_object]
  constructor
  · rintro ⟨es', hf', hprops, hextra⟩ key
    obtain rfl := Option.some.inj (hf.symm.trans hf')
    cases hprop : o.property? key with
    | some p => exact (says_of_property hprop).mpr (hprops p (ObjectShape.property?_mem hprop).1)
    | none =>
      refine (says_of_none hprop).mpr fun e he => ?_
      obtain ⟨hmem, rfl⟩ := (Entry.find?_eq_some hnodup).mp he
      exact hextra e hmem (ObjectShape.declares_eq_false.mpr hprop)
  · refine fun h => ⟨es, hf, fun p hp => ?_, fun e he hdecl => ?_⟩
    · exact (says_of_property ((Schema.property?_eq_some hk).mpr ⟨hp, rfl⟩)).mp (h p.key)
    · have hprop : o.property? e.key = none := ObjectShape.declares_eq_false.mp hdecl
      exact (says_of_none hprop).mp (h e.key) e ((Entry.find?_eq_some hnodup).mpr ⟨he, rfl⟩)

/-- What the index signature has for a key: its schema of items, or nothing where it does not take the key. -/
def Indexes (env : Env) (config : Config) (o : ObjectShape Schema) (key : Key) : Option Schema → Prop
  | some s => ∃ i, o.index = some i ∧ i.value = s ∧ env.accepts config i.key key.toValue = .ok true
  | none => ∀ i, o.index = some i → env.accepts config i.key key.toValue = .ok false

theorem indexes_of_index_none (h : o.index = none) : env.Indexes config o key none := by simp [Indexes, h]

theorem spares_of_indexed {e : Entry} {s : Schema} (h : env.Indexes config o e.key (some s)) :
    env.Spares config o e ↔ env.accepts config s e.item = .ok true := by
  obtain ⟨i, hi, rfl, htaken⟩ := h
  simp [Spares, hi, htaken]

theorem spares_of_unindexed {e : Entry} (h : env.Indexes config o e.key none) :
    env.Spares config o e ↔ o.undeclared ≠ .reject := by
  unfold Spares
  cases hi : o.index with
  | none => rfl
  | some i => simp [h i hi]

/-- What follows a look into an index signature. -/
theorem indexed_yields (config : Config) {α : Type} {f : Option Schema → Compose α} {P : α → Prop} {Q : Fault → Prop}
    (hadmits : ∀ i, o.index = some i →
      Ends (env.admits i.key key.toValue) (fun taken => env.accepts config i.key key.toValue = .ok taken) Q)
    (h : ∀ x, env.Indexes config o key x → (f x).Yields P Q) :
    Compose.Yields (do
      let x ← match o.index with
        | some i => do pure (if ← env.admits i.key key.toValue then some i.value else none)
        | none => pure none
      f x) P Q := by
  cases hi : o.index with
  | none => exact h none (indexes_of_index_none hi)
  | some i =>
    refine Compose.Yields.bind (.lift (hadmits i hi)) fun taken htaken => h _ ?_
    cases taken with
    | true => exact ⟨i, hi, rfl, htaken⟩
    | false =>
      intro j hj
      obtain rfl := Option.some.inj (hi.symm.trans hj)
      exact htaken

/-- An entry that is let be is one that the index signature answers on. -/
theorem indexes_of_spares {e : Entry} (h : env.Spares config o e) : ∃ x, env.Indexes config o e.key x := by
  unfold Spares at h
  cases hi : o.index with
  | none => exact ⟨none, indexes_of_index_none hi⟩
  | some i =>
    rw [hi] at h
    obtain ⟨taken, htaken, -⟩ := h
    cases taken with
    | true => exact ⟨some i.value, i, hi, rfl, htaken⟩
    | false =>
      refine ⟨none, fun j hj => ?_⟩
      obtain rfl := Option.some.inj (hi.symm.trans hj)
      exact htaken

/-- A trial run on a key tells whether the schema takes it. -/
theorem accepts_of_admits_key {s : Schema} {taken : Bool} (htry : env.TriesLike config linked)
    (hs : s.Every (Schema.KeyNode linked)) (h : env.admits s key.toValue = .ok taken) :
    env.accepts config s key.toValue = .ok taken := by
  obtain ⟨trial, htrial, h⟩ := bind_ok h
  have hlike := Schema.keys_refl (hs.mono fun _ => Schema.KeyNode.isRef)
  exact ((accepts_key (htry trial htrial) hlike key).ok_iff taken).mp h

theorem admits_key_ends {s : Schema} (htry : env.TriesLike config linked) (hs : s.Every (Schema.KeyNode linked)) :
    Ends (env.admits s key.toValue) (fun taken => env.accepts config s key.toValue = .ok taken) fun _ => True := by
  cases hrun : env.admits s key.toValue with
  | error e => trivial
  | ok taken => exact accepts_of_admits_key htry hs hrun

/-- A trial run of the index signature tells what it has for a key. -/
theorem indexes_of_trial {α : Type} {f : Option Schema → Except Fault α} {r : α} (htry : env.TriesLike config linked)
    (ho : o.OfKeywords linked) (h : (do
      let x ← match o.index with
        | some i => do pure (if ← env.admits i.key key.toValue then some i.value else none)
        | none => pure none
      f x) = .ok r) : ∃ x, env.Indexes config o key x ∧ f x = .ok r := by
  cases hi : o.index with
  | none =>
    rw [hi] at h
    exact ⟨none, indexes_of_index_none hi, h⟩
  | some i =>
    rw [hi] at h
    obtain ⟨taken, htaken, h⟩ := bind_ok h
    have htaken := accepts_of_admits_key htry (ho.index i hi).1 htaken
    refine ⟨_, ?_, h⟩
    cases taken with
    | true => exact ⟨i, hi, rfl, htaken⟩
    | false =>
      intro j hj
      obtain rfl := Option.some.inj (hi.symm.trans hj)
      exact htaken

/-- Equal schemas of keys take the same keys. -/
theorem accepts_same_key {s t : Schema} (hs : s.Every (Schema.KeyNode linked)) (ht : t.Every (Schema.KeyNode linked))
    (h : s.same t = true) (taken : Bool) :
    env.accepts config s key.toValue = .ok taken ↔ env.accepts config t key.toValue = .ok taken :=
  (accepts_key (fun _ => rfl) (Schema.keys_of_same hs ht h) key).ok_iff taken

/-- The entry stands under a key that `a` has no property and no index signature for and rejects, and that the
index signature of `b` takes. -/
def Intrudes (env : Env) (config : Config) (a b : ObjectShape Schema) (e : Entry) : Prop :=
  a.undeclared = .reject ∧ a.index = none ∧ a.declares e.key = false ∧ b.declares e.key = false ∧
    ∃ i, b.index = some i ∧ env.accepts config i.key e.key.toValue = .ok true ∧
      env.accepts config i.value e.item = .ok true

/-- An object that says of every key what it should, but for intruders, accepts the mapping unless it has one. -/
theorem accepts_or_intrudes (hk : a.keys.Nodup) (hf : v.fields? = some es)
    (h : ∀ key, env.Says config a es key ∨ ∃ e ∈ es, env.Intrudes config a b e) :
    env.accepts config (.object a) v = .ok true ∨ ∃ e ∈ es, env.Intrudes config a b e := by
  by_cases hintrudes : ∃ e ∈ es, env.Intrudes config a b e
  · exact Or.inr hintrudes
  · exact Or.inl ((accepts_object_iff hk hf).mpr fun key => (h key).resolve_right hintrudes)

/-- Objects that nothing tells apart but how the schemas of their keys are written. -/
structure Interchangeable (env : Env) (config : Config) (a b : ObjectShape Schema) : Prop where
  properties : a.properties = b.properties
  undeclared : a.undeclared = b.undeclared
  index : Option.Rel (fun i j => i.value = j.value ∧ ∀ (key : Key) taken,
    env.accepts config i.key key.toValue = .ok taken ↔ env.accepts config j.key key.toValue = .ok taken) a.index b.index

namespace Interchangeable

theorem of_same (ha : a.OfKeywords linked) (hb : b.OfKeywords linked) (h : (Schema.object a).same (.object b) = true) :
    env.Interchangeable config a b := by
  obtain ⟨ps, i, u⟩ := a
  obtain ⟨qs, j, w⟩ := b
  simp only [Schema.same, Bool.and_eq_true, beq_iff_eq] at h
  obtain ⟨⟨hprops, hindex⟩, hpolicy⟩ := h
  refine ⟨(Schema.eq_properties_of_same ha.values ha.defaults (Or.inl hprops)).symm, hpolicy, ?_⟩
  cases i <;> cases j <;> simp only [Schema.sameIndex, Bool.and_eq_true, Bool.false_eq_true] at hindex
  · exact .none
  · rename_i i j
    have hvalue := Schema.eq_keyword_of_same (ha.index i rfl).2 (Or.inl hindex.2)
    exact .some ⟨hvalue.symm, fun key => accepts_same_key (ha.index i rfl).1 (hb.index j rfl).1 hindex.1⟩

theorem symm (h : env.Interchangeable config a b) : env.Interchangeable config b a := by
  refine ⟨h.properties.symm, h.undeclared.symm, ?_⟩
  have hindex := h.index
  generalize a.index = i at hindex ⊢
  generalize b.index = j at hindex ⊢
  cases hindex with
  | none => exact .none
  | some hij => exact .some ⟨hij.1.symm, fun key taken => (hij.2 key taken).symm⟩

theorem trans (h : env.Interchangeable config a b) (h' : env.Interchangeable config b o) :
    env.Interchangeable config a o := by
  refine ⟨h.properties.trans h'.properties, h.undeclared.trans h'.undeclared, ?_⟩
  have hindex := h.index
  have hindex' := h'.index
  generalize a.index = i at hindex ⊢
  generalize b.index = j at hindex hindex'
  generalize o.index = k at hindex' ⊢
  cases hindex with
  | none =>
    cases hindex'
    exact .none
  | some hij =>
    cases hindex' with
    | some hjk => exact .some ⟨hij.1.trans hjk.1, fun key taken => (hij.2 key taken).trans (hjk.2 key taken)⟩

theorem property? (h : env.Interchangeable config a b) : a.property? key = b.property? key := by
  rw [ObjectShape.property?, h.properties, ObjectShape.property?]

theorem indexes (h : env.Interchangeable config a b) (x : Option Schema) :
    env.Indexes config a key x ↔ env.Indexes config b key x := by
  have hindex := h.index
  unfold Indexes
  generalize a.index = i at hindex ⊢
  generalize b.index = j at hindex ⊢
  cases hindex with
  | none => rfl
  | some hij => cases x <;> simp [hij.1, hij.2]

theorem spares {e : Entry} (h : env.Interchangeable config a b) (hspares : env.Spares config a e) :
    env.Spares config b e := by
  obtain ⟨x, hx⟩ := indexes_of_spares hspares
  have hxb := (h.indexes x).mp hx
  cases x with
  | none => exact (spares_of_unindexed hxb).mpr (h.undeclared ▸ (spares_of_unindexed hx).mp hspares)
  | some s => exact (spares_of_indexed hxb).mpr ((spares_of_indexed hx).mp hspares)

/-- They say the same of every key. -/
theorem said (h : env.Interchangeable config a b) (hsaid : env.Says config a es key) : env.Says config b es key := by
  cases hprop : a.property? key with
  | some p => exact (says_of_property (h.property? ▸ hprop)).mpr ((says_of_property hprop).mp hsaid)
  | none =>
    exact (says_of_none (h.property? ▸ hprop)).mpr fun e he => h.spares ((says_of_none hprop).mp hsaid e he)

theorem accepts (hak : a.keys.Nodup) (h : env.Interchangeable config a b)
    (hacc : env.accepts config (.object a) v = .ok true) : env.accepts config (.object b) v = .ok true := by
  obtain ⟨es, hf, -⟩ := accepts_object.mp hacc
  have hbk : b.keys.Nodup := by
    rw [ObjectShape.keys, ← h.properties]
    exact hak
  exact (accepts_object_iff hbk hf).mpr fun key => h.said ((accepts_object_iff hak hf).mp hacc key)

/-- They have the same intruders. -/
theorem intrudes {a' b' : ObjectShape Schema} {e : Entry} (ha : env.Interchangeable config a a')
    (hb : env.Interchangeable config b b') (h : env.Intrudes config a b e) : env.Intrudes config a' b' e := by
  obtain ⟨hreject, hindex, hda, hdb, i, hi, htaken, hitem⟩ := h
  have hindex' : a'.index = none := by
    have hrel := ha.index
    rw [hindex] at hrel
    generalize a'.index = j at hrel
    cases hrel
    rfl
  obtain ⟨j, hj, hvalue, htaken'⟩ := (hb.indexes (some i.value)).mp ⟨i, hi, rfl, htaken⟩
  refine ⟨ha.undeclared ▸ hreject, hindex', ?_, ?_, j, hj, htaken', hvalue ▸ hitem⟩
  · rw [ObjectShape.declares, ← ha.properties]
    exact hda
  · rw [ObjectShape.declares, ← hb.properties]
    exact hdb

end Interchangeable

/-- A mapping of numbers under any strings. -/
def counts (undeclared : Policy) : ObjectShape Schema := ⟨[], some ⟨.keyword .string, .keyword .number⟩, undeclared⟩

/-- The empty mapping and no other. -/
def closed : ObjectShape Schema := ⟨[], none, .reject⟩

theorem counts_ofKeywords (undeclared : Policy) : (counts undeclared).OfKeywords False where
  keys := List.nodup_nil
  values := nofun
  defaults := nofun
  index := by
    rintro i ⟨⟩
    exact ⟨.intro trivial nofun, .number, rfl⟩

theorem closed_ofKeywords : closed.OfKeywords False := ⟨List.nodup_nil, nofun, nofun, nofun⟩

/-- One count. -/
def count : Value := .mapping [(.string "x", .int 1)]

end Env
end Schemata
