import Schemata.Proofs.Algebra.Shapes
import Schemata.Proofs.Schema.Hashable

/-! The order that the subset test decides, on schemas without references whose constraints stand over more
than literals. -/
namespace Schemata

theorem Role.rank_of_same {r s : Role} (h : r.same s = true) : r.rank = s.rank := by
  cases r <;> cases s <;> first | rfl | simp [same] at h

namespace ObjectShape

/-- A property is required where the other object requires it, and absent where the other object bounds a key
that this one does not declare. -/
def Answers (a : ObjectShape Schema) (q : Property Schema) : Prop :=
  match a.property? q.key with
  | none => q.presence.isRequired = false ∧ a.undeclared = .reject
  | some p => q.presence.isRequired = true → p.presence.isRequired = true

end ObjectShape

namespace Schema

def isUnion : Schema → Bool
  | .union _ => true
  | _ => false

def isIntersection : Schema → Bool
  | .intersection _ => true
  | _ => false

def isConstrained : Schema → Bool
  | .constrained _ _ => true
  | _ => false

/-- Some branch is more than a literal, below all unions and constraints. -/
inductive Broad : Schema → Prop
  | keyword (k : Keyword) : Broad (.keyword k)
  | structured {s : Schema} : s.isStructure = true → Broad s
  | constrained {s : Schema} {cs : List Constraint} : Broad s → Broad (.constrained s cs)
  | branch {s : Schema} {bs : List Schema} : s ∈ bs → Broad s → Broad (.union bs)

/-- A single node that the order is made for, and tuples only without variadic elements. -/
def Regular : Schema → Prop
  | .constrained s _ => s.Broad
  | .intersection ms => ms ≠ [] ∧ ∀ s ∈ ms, ∃ es, s = .tuple es
  | .ref _ => False
  | .tuple es => ∀ e ∈ es, e.role = .leading ∨ e.role = .optional
  | _ => True

/-- A single node that the order is made for, tuples of all shapes among them. -/
def Ordered : Schema → Prop
  | .tuple _ => True
  | s => s.Regular

theorem Regular.ordered {s : Schema} (h : s.Regular) : s.Ordered := by
  cases s with
  | tuple es => trivial
  | _ => exact h

/-- Domains of objects and tuples. -/
def structureDomain : Schema → Domain
  | .object _ => .object
  | _ => .array

/-- The first schema is provably inside the second. The rules follow the forms of both: unions on the left,
conjunctions on the right, unions on the right, conjunctions on the left, and all others by their parts. Of
tuples with a variadic element only an array takes in others than those equal to it. -/
inductive Below : Schema → Schema → Prop
  | branches {bs : List Schema} {b : Schema} : (∀ s ∈ bs, Below s b) → Below (.union bs) b
  | members {a : Schema} {ms : List Schema} : a.isUnion = false → (∀ t ∈ ms, Below a t) →
      Below a (.intersection ms)
  | branch {a t : Schema} {bs : List Schema} : a.isUnion = false → t ∈ bs → Below a t → Below a (.union bs)
  | member {s b : Schema} {ms : List Schema} : b.isUnion = false → b.isIntersection = false → s ∈ ms →
      Below s b → Below (.intersection ms) b
  | keyword {k l : Keyword} : k = l ∨ l ≠ .integer ∧ k.domains.subset l.domains = true →
      Below (.keyword k) (.keyword l)
  | literalKeyword {v : Value} {l : Keyword} : l.holds v = true → Below (.literal v) (.keyword l)
  | structureKeyword {s : Schema} {l : Keyword} : s.isStructure = true → l.domains s.structureDomain = true →
      Below s (.keyword l)
  | literal {v w : Value} : v.Twin w ∨ v = w → Below (.literal v) (.literal w)
  | literalConstrained {v : Value} {t : Schema} {ds : List Constraint} : Below (.literal v) t →
      (∀ c ∈ ds, c.Accepts v) → Below (.literal v) (.constrained t ds)
  | constrained {s t : Schema} {cs ds : List Constraint} : Below s t → (∀ c ∈ ds, ∃ e ∈ cs, e.Within c) →
      Below (.constrained s cs) (.constrained t ds)
  | base {s b : Schema} {cs : List Constraint} : b.isUnion = false → b.isIntersection = false →
      b.isConstrained = false → Below s b → Below (.constrained s cs) b
  | object {a b : ObjectShape Schema} : (a.undeclared ≠ .reject → b.undeclared ≠ .reject) →
      (∀ q ∈ b.properties, a.Answers q) →
      (∀ q ∈ b.properties, ∀ p, a.property? q.key = some p → Below p.value q.value) →
      (∀ p ∈ a.properties, b.declares p.key = false → b.undeclared ≠ .reject) →
      Below (.object a) (.object b)
  | array {es : List (Element Schema)} {f : Element Schema} : f.role.isVariadic = true →
      (∀ e ∈ es, Below e.value f.value) → Below (.tuple es) (.tuple [f])
  | equal {es fs : List (Element Schema)} : Element.variadic? es ≠ none →
      (Schema.tuple es).same (.tuple fs) = true → Below (.tuple es) (.tuple fs)
  | tuple {es fs : List (Element Schema)} : Element.variadic? es = none → Element.variadic? fs = none →
      es.length = fs.length → (∀ p ∈ es.zip fs, p.2.role.isLeading = true → p.1.role.isLeading = true) →
      (∀ p ∈ es.zip fs, Below p.1.value p.2.value) → Below (.tuple es) (.tuple fs)

/-- A schema of one form, no union, conjunction or reference. -/
inductive Single : Schema → Prop
  | keyword (k : Keyword) : Single (.keyword k)
  | literal (v : Value) : Single (.literal v)
  | constrained (s : Schema) (cs : List Constraint) : Single (.constrained s cs)
  | object (o : ObjectShape Schema) : Single (.object o)
  | tuple (es : List (Element Schema)) : Single (.tuple es)

theorem Ordered.single {s : Schema} (hs : s.Ordered) (hu : s.isUnion = false) (hi : s.isIntersection = false) :
    s.Single := by
  cases s with
  | keyword k => exact .keyword k
  | literal v => exact .literal v
  | constrained s cs => exact .constrained s cs
  | union bs => simp [isUnion] at hu
  | intersection ms => simp [isIntersection] at hi
  | ref r => exact hs.elim
  | object o => exact .object o
  | tuple es => exact .tuple es

section Rules

variable {a b : Schema} {bs ms : List Schema}

theorem below_of_union (h : Below (.union bs) b) : ∀ s ∈ bs, Below s b := by
  cases h with
  | branches h => exact h
  | members h _ => simp [isUnion] at h
  | branch h _ _ => simp [isUnion] at h
  | structureKeyword h _ => simp [isStructure] at h

theorem below_never : Below never b := .branches (by simp)

theorem exists_of_below_union (ha : a.isUnion = false) (h : Below a (.union bs)) : ∃ t ∈ bs, Below a t := by
  cases h with
  | branches _ => simp [isUnion] at ha
  | branch _ ht h => exact ⟨_, ht, h⟩
  | member h _ _ _ => simp [isUnion] at h
  | base h _ _ _ => simp [isUnion] at h

/-- A schema inside a branch is inside the union. -/
theorem Below.union_right {t : Schema} (ht : t ∈ bs) (h : Below a t) : Below a (.union bs) := by
  induction a using induction_on_parts with
  | _ a ih =>
    cases a with
    | union ss => exact .branches fun s hs => ih s hs (below_of_union h s hs)
    | _ => exact .branch rfl ht h

theorem forall_of_below_intersection (h : Below a (.intersection ms)) : ∀ t ∈ ms, Below a t := by
  induction a using induction_on_parts with
  | _ a ih =>
    cases h with
    | branches h => exact fun t ht => .branches fun s hs => ih s hs (h s hs) t ht
    | members _ h => exact h
    | member _ h _ _ => simp [isIntersection] at h
    | base _ h _ _ => simp [isIntersection] at h

theorem Below.intersection_right (h : ∀ t ∈ ms, Below a t) : Below a (.intersection ms) := by
  induction a using induction_on_parts with
  | _ a ih =>
    cases a with
    | union ss => exact .branches fun s hs => ih s hs fun t ht => below_of_union (h t ht) s hs
    | _ => exact .members rfl h

/-- A conjunction is inside whatever one of its members, a tuple, is inside of. -/
theorem Below.intersection_left {es : List (Element Schema)} (hs : .tuple es ∈ ms) (h : Below (.tuple es) b) :
    Below (.intersection ms) b := by
  induction b using induction_on_parts with
  | _ b ih =>
    cases b with
    | union bs =>
      obtain ⟨t, ht, h⟩ := exists_of_below_union rfl h
      exact .branch rfl ht (ih t ht h)
    | intersection ns => exact .members rfl fun t ht => ih t ht (forall_of_below_intersection h t ht)
    | _ => exact .member rfl rfl hs h

theorem keyword_below_keyword_iff {k l : Keyword} :
    Below (.keyword k) (.keyword l) ↔ k = l ∨ l ≠ .integer ∧ k.domains.subset l.domains = true := by
  constructor
  · intro h
    cases h with
    | keyword h => exact h
    | structureKeyword h => simp [isStructure] at h
  · exact .keyword

theorem literal_below_keyword_iff {v : Value} {l : Keyword} : Below (.literal v) (.keyword l) ↔ l.holds v = true := by
  constructor
  · intro h
    cases h with
    | literalKeyword h => exact h
    | structureKeyword h => simp [isStructure] at h
  · exact .literalKeyword

theorem structure_below_keyword_iff {l : Keyword} (ha : a.isStructure = true) :
    Below a (.keyword l) ↔ l.domains a.structureDomain = true := by
  constructor
  · intro h
    cases h with
    | structureKeyword _ h => exact h
    | _ => simp [isStructure] at ha
  · exact .structureKeyword ha

theorem literal_below_literal_iff {v w : Value} : Below (.literal v) (.literal w) ↔ v.Twin w ∨ v = w := by
  constructor
  · intro h
    cases h with
    | literal h => exact h
  · exact .literal

theorem literal_below_constrained_iff {v : Value} {ds : List Constraint} :
    Below (.literal v) (.constrained b ds) ↔ Below (.literal v) b ∧ ∀ c ∈ ds, c.Accepts v := by
  constructor
  · intro h
    cases h with
    | literalConstrained h hds => exact ⟨h, hds⟩
  · rintro ⟨h, hds⟩
    exact .literalConstrained h hds

theorem constrained_below_constrained_iff {cs ds : List Constraint} :
    Below (.constrained a cs) (.constrained b ds) ↔ Below a b ∧ ∀ c ∈ ds, ∃ e ∈ cs, e.Within c := by
  constructor
  · intro h
    cases h with
    | constrained h hds => exact ⟨h, hds⟩
    | base _ _ h _ => simp [isConstrained] at h
  · rintro ⟨h, hds⟩
    exact .constrained h hds

theorem constrained_below_iff {cs : List Constraint} (hu : b.isUnion = false) (hi : b.isIntersection = false)
    (hc : b.isConstrained = false) : Below (.constrained a cs) b ↔ Below a b := by
  constructor
  · intro h
    cases h with
    | members => simp [isIntersection] at hi
    | branch => simp [isUnion] at hu
    | structureKeyword h => simp [isStructure] at h
    | constrained => simp [isConstrained] at hc
    | base _ _ _ h => exact h
  · exact .base hu hi hc

theorem intersection_below_iff (hu : b.isUnion = false) (hi : b.isIntersection = false) :
    Below (.intersection ms) b ↔ ∃ s ∈ ms, Below s b := by
  constructor
  · intro h
    cases h with
    | members => simp [isIntersection] at hi
    | branch => simp [isUnion] at hu
    | structureKeyword h => simp [isStructure] at h
    | member _ _ hs h => exact ⟨_, hs, h⟩
  · rintro ⟨s, hs, h⟩
    exact .member hu hi hs h

/-- No literal takes in a broad schema. -/
theorem Broad.not_below_literal {s : Schema} (hs : s.Broad) {v : Value} : ¬ Below s (.literal v) := by
  induction hs with
  | keyword k => exact nofun
  | structured h =>
    intro hbelow
    cases hbelow <;> simp [isStructure] at h
  | constrained _ ih => exact fun h => ih (by cases h; assumption)
  | branch hs _ ih => exact fun h => ih (below_of_union h _ hs)

theorem below_unknown (hr : a.Every Ordered) : Below a unknown := by
  induction a using induction_on_parts with
  | _ a ih =>
    have ih : ∀ t ∈ a.parts, Below t unknown := fun t ht => ih t ht (hr.part ht)
    cases a with
    | keyword k => exact .keyword (Or.inr ⟨by simp, by cases k <;> decide⟩)
    | literal v => exact .literalKeyword (by simp [Keyword.holds, Keyword.domains])
    | constrained s cs => exact .base rfl rfl rfl (ih s (by simp [parts]))
    | union bs => exact .branches ih
    | intersection ms =>
      obtain ⟨s, hs⟩ := List.exists_mem_of_ne_nil ms hr.root.1
      exact .member rfl rfl hs (ih s hs)
    | ref r => exact hr.root.elim
    | object o => exact .structureKeyword rfl rfl
    | tuple es => exact .structureKeyword rfl rfl

theorem property?_eq_some {o : ObjectShape Schema} (hk : o.keys.Nodup) {p : Property Schema} {key : Key} :
    o.property? key = some p ↔ p ∈ o.properties ∧ p.key = key := by
  constructor
  · exact ObjectShape.property?_mem
  · rintro ⟨hp, rfl⟩
    cases h : o.property? p.key with
    | none => exact absurd (List.find?_eq_none.mp h p hp) (by simp)
    | some q =>
      obtain ⟨hq, hqk⟩ := ObjectShape.property?_mem h
      rw [List.inj_on_of_nodup_map hk hq hp hqk]

theorem below_of_same_objects {o q : ObjectShape Schema} (hq : q.keys.Nodup)
    (hdo : ∀ p ∈ o.properties, p.presence.default? = none)
    (h : (Schema.object o).same (.object q) = true)
    (ih : ∀ p ∈ o.properties, ∀ p' ∈ q.properties, p.value.same p'.value = true → Below p.value p'.value) :
    Below (.object o) (.object q) := by
  obtain ⟨hprops, hpolicy⟩ := same_object h
  have hkeys : o.keys = q.keys := keys_of_forall₂ (fun p q h => h.1) hprops
  have hnodup : o.keys.Nodup := hkeys ▸ hq
  have partner : ∀ p' ∈ q.properties, ∃ p, o.property? p'.key = some p ∧ p ∈ o.properties ∧
      p.value.same p'.value = true ∧ p.presence = p'.presence := by
    intro p' hp'
    obtain ⟨p, hp, hk, hv, hpres⟩ := forall₂_exists_right hprops hp'
    exact ⟨p, (property?_eq_some hnodup).mpr ⟨hp, hk⟩, hp, hv, Presence.eq_of_same hpres (hdo p hp)⟩
  refine .object (fun h => hpolicy ▸ h) (fun p' hp' => ?_) (fun p' hp' p hp => ?_) fun p hp hdecl => ?_
  · obtain ⟨p, hp, -, -, hpres⟩ := partner p' hp'
    simp [ObjectShape.Answers, hp, hpres]
  · obtain ⟨p₁, hp₁, hmem, hv, -⟩ := partner p' hp'
    obtain rfl := Option.some.inj (hp.symm.trans hp₁)
    exact ih p hmem p' hp' hv
  · rw [← declares_of_keys hkeys] at hdecl
    have : o.declares p.key = true := List.any_eq_true.mpr ⟨p, hp, by simp⟩
    simp [hdecl] at this

/-- Of two equal tuples both have a variadic element, or none. -/
theorem variadic?_of_same {es fs : List (Element Schema)} (h : (Schema.tuple es).same (.tuple fs) = true) :
    Element.variadic? es = none ↔ Element.variadic? fs = none := by
  have hlike : List.Forall₂ (Element.Like fun s t : Schema => s.same t = true) es fs :=
    (sameElements_iff.mp h).imp fun e f h => ⟨Role.rank_of_same h.1, h.2⟩
  have hrel := Element.variadic?_like hlike
  generalize Element.variadic? es = a at hrel ⊢
  generalize Element.variadic? fs = b at hrel ⊢
  cases hrel <;> simp

/-- Equal schemas are inside each other. -/
theorem below_of_same {d : Dialect} (ha : a.Every (Fits d)) (hb : b.Every (Fits d)) (hr : a.Every Ordered)
    (h : a.same b = true) : Below a b := by
  induction a using induction_on_parts generalizing b with
  | _ a ih =>
    have ih : ∀ s ∈ a.parts, ∀ t ∈ b.parts, s.same t = true → Below s t :=
      fun s hs t ht hst => ih s hs (ha.part hs) (hb.part ht) (hr.part hs) hst
    cases a with
    | keyword k =>
      cases b <;> simp [same] at h
      exact .keyword (Or.inl h)
    | literal v =>
      cases b <;> simp [same] at h
      exact .literal ((Value.same_scalar_iff ha.root h.2).mp h.1)
    | constrained s cs =>
      cases b <;> simp [same] at h
      rename_i t ds
      refine .constrained (ih s (by simp [parts]) t (by simp [parts]) h.1) fun c hc => ?_
      obtain ⟨e, he, hsame⟩ := forall₂_exists_right (Constraint.sameAll_iff.mp h.2) hc
      exact ⟨e, he, Or.inl hsame⟩
    | union bs =>
      cases b <;> simp [same] at h
      refine .branches fun s hs => ?_
      obtain ⟨t, ht, hst⟩ := forall₂_exists_left (sameAll_iff.mp h) hs
      exact Below.union_right ht (ih s hs t ht hst)
    | intersection ms =>
      cases b <;> simp [same] at h
      refine .members rfl fun t ht => ?_
      obtain ⟨s, hs, hst⟩ := forall₂_exists_right (sameAll_iff.mp h) ht
      obtain ⟨es, rfl⟩ := hr.root.2 s hs
      exact Below.intersection_left hs (ih _ hs t ht hst)
    | ref r => exact hr.root.elim
    | object o =>
      cases b with
      | object q =>
        exact below_of_same_objects hb.root.2.1 ha.root.2.2.1 h fun p hp p' hp' hpp =>
          ih _ (List.mem_append_left _ (List.mem_map_of_mem hp)) _
            (List.mem_append_left _ (List.mem_map_of_mem hp')) hpp
      | _ => simp [same] at h
    | tuple es =>
      by_cases hv : Element.variadic? es = none
      · cases b <;> simp only [same, Bool.false_eq_true] at h
        rename_i fs
        have hvariadic := (variadic?_of_same h).mp hv
        rw [sameElements_iff, List.forall₂_iff_zip] at h
        refine .tuple hv hvariadic h.1 (fun p hp hlead => ?_) fun p hp => ?_
        · rw [Role.eq_of_same (h.2 hp).1 (ha.root.2 _ (List.of_mem_zip hp).1)]
          exact hlead
        · exact ih _ (List.mem_map_of_mem (List.of_mem_zip hp).1) _
            (List.mem_map_of_mem (List.of_mem_zip hp).2) (h.2 hp).2
      · cases b <;> first | exact .equal hv h | simp [same] at h

end Rules

end Schema
end Schemata
