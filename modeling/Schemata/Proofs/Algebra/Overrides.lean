import Schemata.Algebra.Merge
import Schemata.Proofs.Algebra.ObjectMeets
import Schemata.Proofs.Schema.Hashable
import Schemata.Proofs.Validation.Likeness

/-! Objects that override others. Overriding is associative and has the empty object for its unit; what one object
says of a key is what the other says unless it declares the key itself. What overrides alike comes to alike objects. -/
namespace Schemata.ObjectShape

variable {a b c o : ObjectShape Schema} {base upper : List (Property Schema)} {key : Key}

/-- The object that declares nothing. -/
def blank : ObjectShape Schema := ⟨[], none, .ignore⟩

/-- The first property of a key. -/
def named? (ps : List (Property Schema)) (key : Key) : Option (Property Schema) := ps.find? fun p => p.key == key

theorem property?_eq (o : ObjectShape Schema) (key : Key) : o.property? key = named? o.properties key := rfl

theorem key_of_named? {ps : List (Property Schema)} {p : Property Schema} (h : named? ps key = some p) :
    p.key = key := by
  simpa using List.find?_some h

/-- The property that stands in the place of another one. -/
def replacement (upper : List (Property Schema)) (p : Property Schema) : Property Schema := (named? upper p.key).getD p

@[simp] theorem key_replacement (upper : List (Property Schema)) (p : Property Schema) :
    (replacement upper p).key = p.key := by
  unfold replacement
  cases h : named? upper p.key with
  | none => rfl
  | some q => exact key_of_named? h

/-- The properties whose keys no other property has. -/
def beyond (base upper : List (Property Schema)) : List (Property Schema) :=
  upper.filter fun q => !base.any fun p => p.key == q.key

theorem replaceAll_eq (base upper : List (Property Schema)) :
    replaceAll base upper = base.map (replacement upper) ++ beyond base upper := rfl

theorem any_key_eq {ps : List (Property Schema)} : (ps.any fun p => p.key == key) = (named? ps key).isSome :=
  Bool.eq_iff_iff.mpr (by simp [named?])

theorem named?_map_replacement :
    named? (base.map (replacement upper)) key = (named? base key).map (replacement upper) := by
  induction base with
  | nil => rfl
  | cons p ps ih =>
    rw [List.map_cons]
    unfold named? at ih ⊢
    rw [List.find?_cons, List.find?_cons, key_replacement]
    cases p.key == key with
    | true => rfl
    | false => exact ih

theorem named?_beyond (h : named? base key = none) : named? (beyond base upper) key = named? upper key := by
  have hnew : (base.any fun p => p.key == key) = false := by
    rw [any_key_eq, h]
    rfl
  unfold beyond named?
  rw [List.find?_filter]
  congr 1
  funext q
  by_cases hq : q.key = key
  · simp only [hnew, hq, Bool.not_false, beq_self_eq_true, and_self, decide_true]
  · have hother : (q.key == key) = false := by simpa using hq
    simp only [hother, Bool.false_eq_true, and_false, decide_false]

/-- A key names what the upper properties say of it, else what the ones below say. -/
theorem named?_replaceAll : named? (replaceAll base upper) key = (named? upper key).or (named? base key) := by
  have happend : named? (replaceAll base upper) key =
      (named? (base.map (replacement upper)) key).or (named? (beyond base upper) key) := List.find?_append ..
  rw [happend, named?_map_replacement]
  cases h : named? base key with
  | none =>
    rw [named?_beyond h, Option.or_none]
    rfl
  | some p =>
    have hkey : p.key = key := key_of_named? h
    rw [Option.map_some, Option.some_or, replacement, hkey]
    cases named? upper key <;> rfl

theorem property?_mergeWith (a b : ObjectShape Schema) (key : Key) :
    (a.mergeWith b).property? key = (b.property? key).or (a.property? key) := named?_replaceAll

theorem replaceAll_assoc (xs ys zs : List (Property Schema)) :
    replaceAll (replaceAll xs ys) zs = replaceAll xs (replaceAll ys zs) := by
  have hreplace : ∀ p, replacement zs (replacement ys p) = replacement (replaceAll ys zs) p := by
    intro p
    unfold replacement
    rw [named?_replaceAll]
    cases h : named? ys p.key with
    | none => simp
    | some q => cases hz : named? zs p.key <;> simp [key_of_named? h, hz]
  have hbeyond : (beyond xs ys).map (replacement zs) ++ beyond (replaceAll xs ys) zs =
      beyond xs (replaceAll ys zs) := by
    simp only [replaceAll_eq ys zs, beyond, List.filter_append, List.filter_map, List.filter_filter, Function.comp_def,
      key_replacement]
    congr 1
    refine List.filter_congr fun q _ => ?_
    rw [any_key_eq, any_key_eq, any_key_eq, named?_replaceAll]
    cases named? xs q.key <;> cases named? ys q.key <;> rfl
  rw [replaceAll_eq (replaceAll xs ys), replaceAll_eq xs (replaceAll ys zs), replaceAll_eq xs ys, List.map_append,
    List.map_map, List.append_assoc, ← replaceAll_eq xs ys, hbeyond]
  congr 1
  exact List.map_congr_left fun p _ => hreplace p

theorem mergeWith_assoc (a b c : ObjectShape Schema) :
    (a.mergeWith b).mergeWith c = a.mergeWith (b.mergeWith c) := by
  unfold mergeWith
  congr 1
  · exact replaceAll_assoc ..
  · exact (Option.or_assoc ..).symm
  · by_cases hc : c.undeclared = .ignore <;> simp [hc]

@[simp] theorem mergeWith_blank (a : ObjectShape Schema) : a.mergeWith blank = a := by
  obtain ⟨ps, i, u⟩ := a
  have hps : ps.map (replacement []) = ps := List.map_id ps
  simp [mergeWith, blank, replaceAll_eq, hps, beyond]

@[simp] theorem blank_mergeWith (a : ObjectShape Schema) : blank.mergeWith a = a := by
  obtain ⟨ps, i, u⟩ := a
  simp [mergeWith, blank, replaceAll_eq, beyond, eq_comm]

/-- The keys from below keep their places, and the others follow. -/
theorem keys_mergeWith (a b : ObjectShape Schema) :
    (a.mergeWith b).keys = a.keys ++ b.keys.filter fun k => !a.keys.contains k := by
  have hcontains : ∀ k, a.keys.contains k = a.properties.any fun p => p.key == k := by
    intro k
    rw [Bool.eq_iff_iff]
    simp [keys]
  simp only [keys, mergeWith, replaceAll_eq, List.map_append, List.map_map, Function.comp_def, key_replacement]
  congr 1
  rw [List.filter_map]
  exact congrArg _ (List.filter_congr fun q _ => congrArg not (hcontains q.key).symm)

theorem nodup_mergeWith (ha : a.keys.Nodup) (hb : b.keys.Nodup) : (a.mergeWith b).keys.Nodup := by
  rw [keys_mergeWith, List.nodup_append]
  refine ⟨ha, hb.filter _, fun k hk l hl hkl => ?_⟩
  have := (List.mem_filter.mp hl).2
  simp [← hkl, hk] at this

section Alike

open Schema

variable {l : Likeness} {a' b' : ObjectShape Schema} {R : Property Schema → Property Schema → Prop}

/-- Properties of one key that are alike. -/
def LikeProperty (l : Likeness) (p q : Property Schema) : Prop :=
  (p.key = q.key ∧ l.presence p.presence q.presence) ∧ Alike l p.value q.value

theorem alike_object_iff : Alike l (.object a) (.object b) ↔
    List.Forall₂ (LikeProperty l) a.properties b.properties ∧
      Option.Rel (fun i j => Alike l i.key j.key ∧ Alike l i.value j.value) a.index b.index ∧
      a.undeclared = b.undeclared := by
  constructor
  · intro h
    obtain ⟨hprops, hindex, hpolicy⟩ := h.form
    obtain ⟨hvalues, hsignature⟩ := (forall₂_object_parts hprops.length_eq hindex).mp h.parts
    exact ⟨forall₂_and hprops hvalues, hsignature, hpolicy⟩
  · rintro ⟨hprops, hsignature, hpolicy⟩
    have hindex : a.index.isSome = b.index.isSome := by
      generalize a.index = i at hsignature ⊢
      generalize b.index = j at hsignature ⊢
      cases hsignature <;> rfl
    exact .of_parts ⟨hprops.imp fun _ _ h => h.1, hindex, hpolicy⟩
      ((forall₂_object_parts hprops.length_eq hindex).mpr ⟨hprops.imp fun _ _ h => h.2, hsignature⟩)

theorem named?_rel (hR : ∀ p q, R p q → p.key = q.key) {ps qs : List (Property Schema)} (h : List.Forall₂ R ps qs)
    (key : Key) : Option.Rel R (named? ps key) (named? qs key) := by
  induction h with
  | nil => exact .none
  | @cons p q _ _ hpq _ ih =>
    unfold named? at ih ⊢
    rw [List.find?_cons, List.find?_cons, hR p q hpq]
    cases q.key == key with
    | true => exact .some hpq
    | false => exact ih

theorem replaceAll_rel (hR : ∀ p q, R p q → p.key = q.key) {ps qs ps' qs' : List (Property Schema)}
    (h : List.Forall₂ R ps qs) (h' : List.Forall₂ R ps' qs') :
    List.Forall₂ R (replaceAll ps ps') (replaceAll qs qs') := by
  rw [replaceAll_eq, replaceAll_eq]
  refine List.rel_append ?_ (List.rel_filter ?_ h')
  · rw [List.forall₂_map_left_iff, List.forall₂_map_right_iff]
    refine h.imp fun p q hpq => ?_
    have hnamed := named?_rel hR h' p.key
    unfold replacement
    rw [← hR p q hpq]
    cases hp : named? ps' p.key <;> cases hq : named? qs' p.key <;> rw [hp, hq] at hnamed
    · exact hpq
    · cases hnamed
    · cases hnamed
    · cases hnamed with
      | some h => exact h
  · intro p q hpq
    have hnamed := named?_rel hR h p.key
    dsimp only
    rw [any_key_eq, any_key_eq, ← hR p q hpq]
    generalize named? ps p.key = x at hnamed ⊢
    generalize named? qs p.key = y at hnamed ⊢
    cases hnamed <;> simp

/-- What overrides alike comes to objects that are alike. -/
theorem alike_mergeWith (ha : Alike l (.object a) (.object a')) (hb : Alike l (.object b) (.object b')) :
    Alike l (.object (a.mergeWith b)) (.object (a'.mergeWith b')) := by
  obtain ⟨haprops, haindex, hapolicy⟩ := alike_object_iff.mp ha
  obtain ⟨hbprops, hbindex, hbpolicy⟩ := alike_object_iff.mp hb
  refine alike_object_iff.mpr ⟨replaceAll_rel (fun _ _ h => h.1.1) haprops hbprops, ?_, ?_⟩
  · simp only [mergeWith]
    generalize b.index = i at hbindex ⊢
    generalize b'.index = j at hbindex ⊢
    cases hbindex with
    | none => simpa using haindex
    | some h => exact .some h
  · simp only [mergeWith, hapolicy, hbpolicy]

/-- What holds at every node of two objects holds at every node of what they come to. -/
theorem every_mergeWith {p : Schema → Prop} (hp : ∀ o, p (.object o)) (ha : (Schema.object a).Every p)
    (hb : (Schema.object b).Every p) : (Schema.object (a.mergeWith b)).Every p := by
  have hproperty : ∀ {o : ObjectShape Schema}, (Schema.object o).Every p → ∀ q ∈ o.properties, q.value.Every p :=
    fun h q hq => h.part (List.mem_append_left _ (List.mem_map_of_mem hq))
  have hsignature : ∀ {o : ObjectShape Schema}, (Schema.object o).Every p → ∀ t ∈ IndexSignature.parts o.index,
      t.Every p := fun h t ht => h.part (List.mem_append_right _ ht)
  refine .intro (hp _) fun t ht => ?_
  rcases List.mem_append.mp ht with ht | ht
  · obtain ⟨q, hq, rfl⟩ := List.mem_map.mp ht
    rw [mergeWith, replaceAll_eq, List.mem_append] at hq
    rcases hq with hq | hq
    · obtain ⟨r, hr, rfl⟩ := List.mem_map.mp hq
      unfold replacement
      cases hnamed : named? b.properties r.key with
      | none => exact hproperty ha r hr
      | some q => exact hproperty hb q (List.mem_of_find?_eq_some hnamed)
    · exact hproperty hb q (List.mem_of_mem_filter hq)
  · simp only [mergeWith] at ht
    cases hi : b.index with
    | none => exact hsignature ha t (by simpa [hi] using ht)
    | some i => exact hsignature hb t (by simpa [hi] using ht)

end Alike

end Schemata.ObjectShape

namespace Schemata.Env

open Schema

variable {env env' : Env} {a b : ObjectShape Schema}

/-- The object can be built as it is. -/
def Stands (env : Env) (o : ObjectShape Schema) : Prop := env.makeObject o = .ok (.object o)

theorem repeatedKey?_eq_none {seen keys : List Key} (h : ObjectShape.repeatedKey? seen keys = none) :
    keys.Nodup ∧ ∀ k ∈ keys, k ∉ seen := by
  induction keys generalizing seen with
  | nil => exact ⟨.nil, nofun⟩
  | cons k keys ih =>
    unfold ObjectShape.repeatedKey? at h
    split_ifs at h with hseen
    obtain ⟨hnodup, hnew⟩ := ih h
    refine ⟨List.nodup_cons.mpr ⟨fun hk => hnew k hk (by simp), hnodup⟩, ?_⟩
    rw [List.forall_mem_cons]
    exact ⟨by simpa using hseen, fun l hl hmem => hnew l hl (by simp [hmem])⟩

/-- The domains of the key of an index signature allow it, or cannot be told. -/
def AllowsKey (env : Env) (i : IndexSignature Schema) : Prop :=
  ∃ d, env.domains? i.key = .ok d ∧ ∀ D, d = some D → D.subset ObjectShape.keyDomains = true

theorem stands_iff {o : ObjectShape Schema} :
    env.Stands o ↔ o.keys.Nodup ∧ ∀ i, o.index = some i → env.AllowsKey i := by
  unfold Stands makeObject
  cases hk : ObjectShape.repeatedKey? [] o.keys with
  | some k =>
    refine iff_of_false (by simp) fun h => ?_
    simp [Schema.repeatedKey?_of_nodup h.1 fun k _ => List.not_mem_nil] at hk
  | none =>
    have hnodup := (repeatedKey?_eq_none hk).1
    cases hi : o.index with
    | none => simp [hnodup]
    | some i =>
      simp only [hnodup, true_and, Option.some.injEq, forall_eq', AllowsKey]
      cases hd : env.domains? i.key with
      | error e => simp [bind, Except.bind]
      | ok d =>
        cases d with
        | none => simp [bind, Except.bind, pure, Except.pure]
        | some D =>
          by_cases hsub : D.subset ObjectShape.keyDomains = true <;>
            simp [bind, Except.bind, pure, Except.pure, hsub, throw, throwThe, MonadExceptOf.throw]

/-- Where two objects stand, what they come to stands. -/
theorem Stands.mergeWith (ha : env.Stands a) (hb : env.Stands b) : env.Stands (a.mergeWith b) := by
  rw [stands_iff] at ha hb ⊢
  refine ⟨ObjectShape.nodup_mergeWith ha.1 hb.1, fun i hi => ?_⟩
  rcases Option.or_eq_some_iff.mp hi with hi | ⟨-, hi⟩
  · exact hb.2 i hi
  · exact ha.2 i hi

theorem domainsWithin_of_arenas (h : env'.arenas = env.arenas) (fuel : Nat) (seen : List Ref) (s : Schema) :
    env'.domainsWithin fuel seen s = env.domainsWithin fuel seen s := by
  induction fuel generalizing seen s with
  | zero => rfl
  | succ fuel ih =>
    have hresolve : ∀ r, env'.resolve? r = env.resolve? r := fun r => by simp only [resolve?, target, h]
    simp only [domainsWithin, hresolve, ih]

/-- Only the arenas decide on domains. -/
theorem domains?_of_arenas (h : env'.arenas = env.arenas) (s : Schema) : env'.domains? s = env.domains? s := by
  unfold domains? slotCount
  rw [h]
  exact domainsWithin_of_arenas h _ _ s

/-- What is alike an object that stands does so too. -/
theorem Stands.alike {l : Likeness} (hl : ∀ v w, l.literal v w → v.domain = w.domain)
    (harenas : env'.arenas = env.arenas) (ha : env.Stands a) (h : Alike l (.object a) (.object b)) : env'.Stands b := by
  obtain ⟨hprops, hindex, -⟩ := ObjectShape.alike_object_iff.mp h
  rw [stands_iff] at ha ⊢
  have hkeys : a.keys = b.keys := keys_of_forall₂ (fun _ _ h => h.1.1) hprops
  refine ⟨hkeys ▸ ha.1, fun j hj => ?_⟩
  rw [hj] at hindex
  cases hi : a.index with
  | none =>
    rw [hi] at hindex
    cases hindex
  | some i =>
    rw [hi] at hindex
    cases hindex with
    | some hij =>
      obtain ⟨d, hd, hsub⟩ := ha.2 i hi
      exact ⟨d, by rw [domains?_of_arenas harenas, ← domains?_alike hl hij.1, hd], hsub⟩

end Schemata.Env
