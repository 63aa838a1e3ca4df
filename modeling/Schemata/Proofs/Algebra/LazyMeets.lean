import Schemata.Proofs.Algebra.SignatureMeets
import Schemata.Proofs.Validation.Idempotence

/-! The intersection of two objects beside their conjunction, which hands what the first puts out to the second. Both
take the same mappings, but for those with an entry that strays: one that the first object deletes or cannot name, or
an undefined item that counts as absent for one of the two only. -/
namespace Schemata

/-- The object demands an entry under the key. -/
def ObjectShape.requires (o : ObjectShape Schema) (key : Key) : Bool :=
  (o.property? key).any fun p => p.presence.isRequired

namespace Env

variable {env : Env} {config : Config} {a b o : ObjectShape Schema} {es : List Entry} {e : Entry} {key : Key}
  {v x : Value} {meet : Schema → Schema → Compose Schema} {s t c : Schema}

/-- Properties under different names, without defaults and without an index signature. -/
structure Plain (o : ObjectShape Schema) : Prop where
  keys : o.keys.Nodup
  named : .index ∉ o.keys
  defaults : ∀ p ∈ o.properties, p.presence.default? = none
  unindexed : o.index = none

/-- Plain properties of keywords. -/
structure PlainKeywords (o : ObjectShape Schema) : Prop extends Plain o where
  values : ∀ p ∈ o.properties, ∃ k, p.value = .keyword k

/-- The object lets an item stand under a key. -/
def Lets (env : Env) (config : Config) (o : ObjectShape Schema) (key : Key) (x : Value) : Prop :=
  match o.property? key with
  | some p => env.accepts config p.value x = .ok true
  | none => o.undeclared ≠ .reject

/-- The entry counts as absent: its item is undefined, and its property is optional. -/
def Blank (config : Config) (o : ObjectShape Schema) (e : Entry) : Prop :=
  config.exactOptional = false ∧ e.item = .undefined ∧ o.declares e.key = true ∧ o.requires e.key = false

theorem lets_of_property {p : Property Schema} (h : o.property? key = some p) :
    env.Lets config o key x ↔ env.accepts config p.value x = .ok true := by simp [Lets, h]

theorem lets_of_none (h : o.property? key = none) : env.Lets config o key x ↔ o.undeclared ≠ .reject := by
  simp [Lets, h]

theorem requires_of_property {p : Property Schema} (h : o.property? key = some p) :
    o.requires key = p.presence.isRequired := by simp [ObjectShape.requires, h]

theorem requires_of_none (h : o.property? key = none) : o.requires key = false := by simp [ObjectShape.requires, h]

theorem not_blank_of_none (h : o.property? e.key = none) : ¬ Blank config o e := by
  rintro ⟨-, -, hdeclared, -⟩
  simp [ObjectShape.declares_eq, h] at hdeclared

section Plain

variable {p : Property Schema} (ho : Plain o)
include ho

/-- A property looks at its entry unless that counts as absent. -/
theorem given_iff {check : Check} (hp : o.property? key = some p) :
    Check.given? config es ⟨key, check, p.presence⟩ = some e ↔ Entry.find? es key = some e ∧ ¬ Blank config o e := by
  rw [Check.given?, Option.filter_eq_some_iff]
  refine and_congr_right fun he => not_iff_not.mp ?_
  obtain rfl : e.key = key := (Entry.mem_of_find? he).2
  rw [not_not, Blank, ObjectShape.declares_eq, hp, requires_of_property hp, ← Check.isUndefined_iff]
  rcases Presence.required_or_optional (ho.defaults p (ObjectShape.property?_mem hp).1) with h | h <;>
    simp [h, Presence.isRequired, Presence.isOptional, and_comm]

/-- What an object says of the entries under a key. -/
theorem says_iff : env.Says config o es key ↔
    (∀ e, Entry.find? es key = some e → Blank config o e ∨ env.Lets config o key e.item) ∧
      (o.requires key = true → (Entry.find? es key).isSome = true) := by
  cases hp : o.property? key with
  | none =>
    rw [says_of_none hp, requires_of_none hp]
    have hspares : ∀ e, env.Spares config o e ↔ o.undeclared ≠ .reject := by
      intro e
      rw [Spares, ho.unindexed]
    simp only [hspares, lets_of_none hp, Bool.false_eq_true, false_implies, and_true]
    refine forall_congr' fun e => imp_congr_right fun he => ?_
    obtain rfl : e.key = key := (Entry.mem_of_find? he).2
    rw [or_iff_right (not_blank_of_none hp)]
  | some p =>
    obtain ⟨hmem, rfl⟩ := ObjectShape.property?_mem hp
    rw [says_of_property hp, requires_of_property hp, Fulfils, Check.Given]
    simp only [lets_of_property hp]
    cases hgiven : Check.given? config es ⟨p.key, env.check config p.value, p.presence⟩ with
    | some e =>
      obtain ⟨hfind, hblank⟩ := (given_iff ho hp).mp hgiven
      simp [hfind, hblank, accepts_iff]
    | none =>
      have hblank : ∀ e, Entry.find? es p.key = some e → Blank config o e := by
        intro e he
        by_contra hno
        have hsome : Check.given? config es ⟨p.key, env.check config p.value, p.presence⟩ = some e :=
          (given_iff ho hp).mpr ⟨he, hno⟩
        simp [hgiven] at hsome
      have hrequired : ∀ e, Entry.find? es p.key = some e → p.presence.isRequired = false := by
        intro e he
        have hkey : e.key = p.key := (Entry.mem_of_find? he).2
        rw [← requires_of_property hp, ← hkey]
        exact (hblank e he).2.2.2
      rcases Presence.required_or_optional (ho.defaults p hmem) with h | h
      · cases hfind : Entry.find? es p.key with
        | none => simp [h, Presence.isRequired]
        | some e => simpa [h, Presence.isRequired] using hrequired e hfind
      · simpa [h, Presence.isRequired] using fun e he => Or.inl (hblank e he)

end Plain

/-- The entry is put out again. -/
def Passes (config : Config) (o : ObjectShape Schema) (e : Entry) : Prop :=
  ¬ Blank config o e ∧ (o.declares e.key = true ∨ o.undeclared = .ignore)

section Output

/-- What a property puts out is the item of its entry if that passes. -/
theorem contributes_passing {p : Property Schema} {item : Option Value} (ha : PlainKeywords a) (hp : p ∈ a.properties)
    (hx : Check.Contributes config env.hooks es ⟨p.key, env.check config p.value, p.presence⟩ item) :
    item = some x ↔ ∃ e, Entry.find? es p.key = some e ∧ Passes config a e ∧ e.item = x := by
  obtain ⟨k, hvalue⟩ := ha.values p hp
  have hprop : a.property? p.key = some p := (Schema.property?_eq_some ha.keys).mpr ⟨hp, rfl⟩
  have hgiven : ∀ e, Check.given? config es ⟨p.key, env.check config p.value, p.presence⟩ = some e ↔
      Entry.find? es p.key = some e ∧ Passes config a e := by
    intro e
    rw [given_iff ha.toPlain hprop]
    refine and_congr_right fun he => ?_
    simp [Passes, ObjectShape.declares_eq, (Entry.mem_of_find? he).2, hprop]
  simp only [← and_assoc, ← hgiven]
  unfold Check.Contributes at hx
  cases item with
  | none => simp [hx.1]
  | some y =>
    cases hfind : Check.given? config es ⟨p.key, env.check config p.value, p.presence⟩ with
    | none =>
      simp only [hfind] at hx
      obtain ⟨d, hd, -⟩ := hx
      have hdefault := ha.defaults p hp
      simp [show p.presence = _ from hd, Presence.default?] at hdefault
    | some e =>
      simp only [hfind] at hx
      have hput : (Check.keyword k).Puts e.item y := by rwa [← check_keyword k, ← hvalue]
      obtain ⟨-, rfl⟩ := Check.keyword_puts.mp hput
      simp

/-- What an undeclared entry puts out is its item if it passes. -/
theorem leaves_passing {item : Option Value} (ha : Plain a) (hno : a.property? e.key = none)
    (hx : Check.Leaves (env.shapeChecks config a) e item) : item = some x ↔ Passes config a e ∧ e.item = x := by
  have hpasses : Passes config a e ↔ a.undeclared = .ignore := by
    simp [Passes, not_blank_of_none hno, ObjectShape.declares_eq, hno]
  have hspared : Check.Spared a.undeclared e.item item := by
    have hindex : (env.shapeChecks config a).index = none := by simp [shapeChecks, ha.unindexed]
    unfold Check.Leaves at hx
    rw [hindex] at hx
    exact hx
  rw [hpasses]
  rcases hspared with ⟨hpolicy, rfl⟩ | ⟨hpolicy, rfl⟩ <;> simp [hpolicy]

variable {rows rest : List Row} (ha : PlainKeywords a) (hes : (Entry.keys es).Nodup)
  (hrows : Row.Of (·.key) (Check.Contributes config env.hooks es) (env.shapeChecks config a).properties rows)
  (hrest : Row.Of (·.key) (Check.Leaves (env.shapeChecks config a)) (es.filter fun e => !a.declares e.key) rest)
include ha hes hrows hrest

/-- A row holds the item of its entry if that passes. -/
theorem row_holds {r : Row} (hr : r ∈ rows ++ rest) :
    r.2 = some x ↔ ∃ e, Entry.find? es r.1 = some e ∧ Passes config a e ∧ e.item = x := by
  rcases List.mem_append.mp hr with hr | hr
  · obtain ⟨q, hq, hk, hx⟩ := hrows.exists hr
    obtain ⟨p, hp, rfl⟩ := List.mem_map.mp hq
    rw [show r.1 = p.key from hk]
    exact contributes_passing ha hp hx
  · obtain ⟨e, he, hk, hx⟩ := hrest.exists hr
    obtain ⟨he, hno⟩ := List.mem_filter.mp he
    have hfind : Entry.find? es r.1 = some e := (Entry.find?_eq_some hes).mpr ⟨he, hk.symm⟩
    rw [leaves_passing ha.toPlain (ObjectShape.declares_eq_false.mp (by simpa using hno)) hx]
    simp [hfind]

/-- What passes has its row. -/
theorem row_of_passes {e : Entry} (he : e ∈ es) (h : Passes config a e) : (e.key, some e.item) ∈ rows ++ rest := by
  have hfind : Entry.find? es e.key = some e := (Entry.find?_eq_some hes).mpr ⟨he, rfl⟩
  obtain ⟨r, hr, hk⟩ : ∃ r ∈ rows ++ rest, r.1 = e.key := by
    cases hprop : a.property? e.key with
    | some p =>
      obtain ⟨hp, hkey⟩ := ObjectShape.property?_mem hprop
      obtain ⟨r, hr, hk, -⟩ := forall₂_exists_left hrows (List.mem_map_of_mem hp)
      exact ⟨r, List.mem_append_left _ hr, hk.trans hkey⟩
    | none =>
      have hmem : e ∈ es.filter fun e => !a.declares e.key :=
        List.mem_filter.mpr ⟨he, by simp [ObjectShape.declares_eq, hprop]⟩
      obtain ⟨r, hr, hk, -⟩ := forall₂_exists_left hrest hmem
      exact ⟨r, List.mem_append_right _ hr, hk⟩
  have hitem := (row_holds ha hes hrows hrest hr (x := e.item)).mpr ⟨e, hk ▸ hfind, h, rfl⟩
  rw [← hk, ← hitem]
  exact hr

end Output

/-- A plain object puts out an entry for every one that passes, if none of these stands under the index marker. -/
theorem fields_of_output (ha : PlainKeywords a) (hf : v.fields? = some es)
    (hput : env.validate config (.object a) v = .ok (.ok x)) :
    ∃ fs, (∀ gs, x.fields? = some gs ↔ (∀ e ∈ es, Passes config a e → e.key ≠ .index) ∧ gs = fs) ∧
      ∀ key f, Entry.find? fs key = some f ↔
        ∃ e, Entry.find? es key = some e ∧ Passes config a e ∧ f = ⟨key, key.toValue, e.item⟩ := by
  rw [validate_iff, check_object, Check.object_puts] at hput
  obtain ⟨es', rows, rest, hf', hrows, hrest, rfl⟩ := hput
  obtain rfl := Option.some.inj (hf.symm.trans hf')
  have hes := Value.nodup_of_fields hf
  have hnd := Check.nodup_rows ((shapeChecks_keys a).symm ▸ ha.keys) hes hrows hrest
  simp only [shapeChecks_declares] at hrest
  have hpairs := hnd.sublist (Row.keys_sublist (rows ++ rest))
  refine ⟨(Row.pairs (rows ++ rest)).map Value.Pair.entry, fun gs => ?_, fun key f => ?_⟩
  · rw [Value.fields?_ofPairs hpairs]
    refine and_congr_left fun _ => ⟨fun h e he hpasses => ?_, fun h t ht => ?_⟩
    · exact h _ (Row.mem_pairs.mpr (row_of_passes ha hes hrows hrest he hpasses))
    · obtain ⟨e, he, hpasses, -⟩ := (row_holds ha hes hrows hrest (Row.mem_pairs.mp ht)).mp rfl
      obtain ⟨he, hk⟩ := (Entry.find?_eq_some hes).mp he
      exact hk ▸ h e he hpasses
  · have hkeys : (Entry.keys ((Row.pairs (rows ++ rest)).map Value.Pair.entry)).Nodup := by
      simpa [Entry.keys, Function.comp_def, Value.Pair.entry] using hpairs
    rw [Entry.find?_eq_some hkeys]
    constructor
    · rintro ⟨hmem, rfl⟩
      obtain ⟨t, ht, rfl⟩ := List.mem_map.mp hmem
      obtain ⟨e, he, hpasses, hitem⟩ := (row_holds ha hes hrows hrest (Row.mem_pairs.mp ht)).mp rfl
      exact ⟨e, he, hpasses, by simp [Value.Pair.entry, hitem]⟩
    · rintro ⟨e, he, hpasses, rfl⟩
      obtain ⟨hmem, rfl⟩ := (Entry.find?_eq_some hes).mp he
      refine ⟨?_, rfl⟩
      exact List.mem_map_of_mem (Row.mem_pairs.mpr (row_of_passes ha hes hrows hrest hmem hpasses))

/-- A conjunction of two schemas takes what the second one takes of what the first one puts out. -/
theorem accepts_both : env.accepts config (.intersection [s, t]) v = .ok true ↔
    ∃ x, env.validate config s v = .ok (.ok x) ∧ env.accepts config t x = .ok true := by
  have hcheck : env.check config (.intersection [s, t]) =
      .conjunction [env.check config s, env.check config t] := by
    simp only [check_eq, Schema.checkWith, Schema.memberChecks_eq, List.map_cons, List.map_nil]
  have hvisit : ∀ r : Outcome, (if r.rebuilt then Visit.root.renewed else .root) = .root := fun r => by
    cases r.rebuilt <;> rfl
  simp only [accepts_iff, validate_iff, hcheck, Check.Takes, Check.Puts, Check.conjunction, Succeeds.bind,
    Succeeds.pure, hvisit, Succeeds.ok, Outcome.isOk_iff, Outcome.pass, List.append_eq_nil_iff,
    and_true]
  constructor
  · rintro ⟨r, hr, q, hq, hrok, hqok⟩
    exact ⟨r.output, ⟨r, hr, hrok, rfl⟩, q, hq, hqok⟩
  · rintro ⟨_, ⟨r, hr, hrok, rfl⟩, q, hq, hqok⟩
    exact ⟨r, hr, q, hq, hrok, hqok⟩

/-- The second object takes what the first one puts out, entry by entry. -/
theorem accepts_output (ha : PlainKeywords a) (hb : Plain b) (hf : v.fields? = some es)
    (hput : env.validate config (.object a) v = .ok (.ok x)) : env.accepts config (.object b) x = .ok true ↔
      ∀ key, (∀ e, Entry.find? es key = some e → Passes config a e →
          key ≠ .index ∧ (Blank config b e ∨ env.Lets config b key e.item)) ∧
        (b.requires key = true → ∃ e, Entry.find? es key = some e ∧ Passes config a e) := by
  obtain ⟨fs, hfields, hfind⟩ := fields_of_output ha hf hput
  have hes := Value.nodup_of_fields hf
  have hsome : ∀ key, (Entry.find? fs key).isSome = true ↔ ∃ e, Entry.find? es key = some e ∧ Passes config a e := by
    intro key
    simp [Option.isSome_iff_exists, hfind]
  have hsecond : (∀ key, env.Says config b fs key) ↔ ∀ key, (∀ e, Entry.find? es key = some e → Passes config a e →
        Blank config b e ∨ env.Lets config b key e.item) ∧
      (b.requires key = true → ∃ e, Entry.find? es key = some e ∧ Passes config a e) := by
    refine forall_congr' fun key => ?_
    rw [says_iff hb, hsome]
    refine and_congr_left fun _ => ⟨fun h e he hpasses => ?_, fun h f hfs => ?_⟩
    · have hkey : e.key = key := (Entry.mem_of_find? he).2
      exact hkey ▸ h _ ((hfind key _).mpr ⟨e, he, hpasses, rfl⟩)
    · obtain ⟨e, he, hpasses, rfl⟩ := (hfind key f).mp hfs
      have hkey : e.key = key := (Entry.mem_of_find? he).2
      exact hkey ▸ h e he hpasses
  constructor
  · intro hacc key
    obtain ⟨gs, hgs, -⟩ := accepts_object.mp hacc
    obtain ⟨hnamed, rfl⟩ := (hfields gs).mp hgs
    obtain ⟨hitems, hrequired⟩ := hsecond.mp ((accepts_object_iff hb.keys hgs).mp hacc) key
    refine ⟨fun e he hpasses => ⟨?_, hitems e he hpasses⟩, hrequired⟩
    obtain ⟨hmem, rfl⟩ := (Entry.find?_eq_some hes).mp he
    exact hnamed e hmem hpasses
  · intro h
    have hnamed : ∀ e ∈ es, Passes config a e → e.key ≠ .index := fun e he hpasses =>
      ((h e.key).1 e ((Entry.find?_eq_some hes).mpr ⟨he, rfl⟩) hpasses).1
    refine (accepts_object_iff hb.keys ((hfields fs).mpr ⟨hnamed, rfl⟩)).mpr (hsecond.mpr fun key => ?_)
    exact ⟨fun e he hpasses => ((h key).1 e he hpasses).2, (h key).2⟩

section Composed

/-- The schema accepts what the other two accept both. -/
def Joins (env : Env) (config : Config) (s t c : Schema) : Prop :=
  ∀ v, env.accepts config c v = .ok true ↔ env.accepts config s v = .ok true ∧ env.accepts config t v = .ok true

/-- The meet of two keywords accepts what both accept, and conflicts only where they accept nothing in common. -/
def JoinsKeywords (env : Env) (config : Config) (meet : Schema → Schema → Compose Schema) : Prop :=
  ∀ k l : Keyword, (meet (.keyword k) (.keyword l)).Yields (env.Joins config (.keyword k) (.keyword l)) fun e =>
    e.isUnsatisfiable = true → env.Joins config (.keyword k) (.keyword l) .never

theorem meetWithin_joinsKeywords (env : Env) (config : Config) (fuel : Nat) :
    env.JoinsKeywords config (env.meetWithin (fuel + 1) []) := by
  intro k l
  refine (Schema.meetWithin_keywords fuel [] k l).mono ?_ ?_
  · rintro c (⟨rfl, h⟩ | ⟨rfl, h⟩) v
    · exact (and_iff_left_of_imp fun hv => member_keyword_iff.mp (h v (member_keyword_iff.mpr hv))).symm
    · exact (and_iff_right_of_imp fun hv => member_keyword_iff.mp (h v (member_keyword_iff.mpr hv))).symm
  · rintro e ⟨-, -, h⟩ - v
    exact iff_of_false not_accepts_never fun hv => h v (member_keyword_iff.mpr hv.1) (member_keyword_iff.mpr hv.2)

theorem JoinsKeywords.yields (hmeet : env.JoinsKeywords config meet) (hs : ∃ k, s = .keyword k)
    (ht : ∃ k, t = .keyword k) : (meet s t).Yields (env.Joins config s t) fun e =>
      e.isUnsatisfiable = true → env.Joins config s t .never := by
  obtain ⟨k, rfl⟩ := hs
  obtain ⟨l, rfl⟩ := ht
  exact hmeet k l

/-- An optional place stands empty where its schemas conflict. -/
theorem place_joins {optional : Bool} (h : (meet s t).Yields (env.Joins config s t) fun e =>
    e.isUnsatisfiable = true → env.Joins config s t .never) :
    (Compose.place meet s t optional).Yields (env.Joins config s t) fun _ => True := by
  exact h.place (fun _ h => h) (fun _ _ hempty hnever => hnever hempty) fun _ _ _ => trivial

/-- The property of an intersection under a key: either object may demand an entry, and both let its item stand. -/
structure Joint (env : Env) (config : Config) (a b : ObjectShape Schema) (p r : Property Schema) : Prop where
  key : r.key = p.key
  default : r.presence.default? = none
  required : r.presence.isRequired = (a.requires p.key || b.requires p.key)
  items : ∀ x, env.accepts config r.value x = .ok true ↔ env.Lets config a p.key x ∧ env.Lets config b p.key x

theorem Joint.symm {p r : Property Schema} (h : env.Joint config b a p r) : env.Joint config a b p r :=
  ⟨h.key, h.default, h.required.trans (Bool.or_comm _ _), fun x => (h.items x).trans and_comm⟩

variable {p q : Property Schema}

/-- A property that only the first object declares. -/
theorem meetUndeclared_joint (hb : b.index = none) (hd : p.presence.default? = none)
    (hp : a.property? p.key = some p) (hq : b.property? p.key = none) :
    (ObjectShape.meetUndeclared env.admits meet a b p).Yields (env.Joint config a b p) fun _ => True := by
  have hrequired : p.presence.isRequired = (a.requires p.key || b.requires p.key) := by
    rw [requires_of_property hp, requires_of_none hq, Bool.or_false]
  refine ObjectShape.meetUndeclared_yields hb (fun hreject _ => ⟨rfl, hd, hrequired, fun x => ?_⟩)
    (fun hno => ⟨rfl, hd, hrequired, fun x => ?_⟩) fun _ _ => trivial
  · rw [lets_of_none hq]
    exact iff_of_false not_accepts_never fun h => h.2 hreject
  · rw [lets_of_property hp, lets_of_none hq]
    exact (and_iff_left hno).symm

/-- A property that both objects declare. -/
theorem meetDeclared_joint (hmeet : env.JoinsKeywords config meet) (ha : PlainKeywords a) (hb : PlainKeywords b)
    (hp : a.property? p.key = some p) (hq : b.property? p.key = some q) :
    (ObjectShape.meetDeclared meet p q).Yields (env.Joint config a b p) fun _ => True := by
  obtain ⟨hqmem, hkey⟩ := ObjectShape.property?_mem hq
  have hpmem := (ObjectShape.property?_mem hp).1
  have hdp := ha.defaults p hpmem
  have hdq := hb.defaults q hqmem
  unfold ObjectShape.meetDeclared
  split_ifs with hsame
  · simp only [Property.same, Bool.and_eq_true, beq_iff_eq] at hsame
    have hvalue : p.value = q.value := Schema.eq_keyword_of_same (hb.values q hqmem) (Or.inr hsame.1.2)
    have hpresence := Presence.eq_of_same hsame.2 hdp
    refine .pure ⟨rfl, hdp, ?_, fun x => ?_⟩
    · rw [requires_of_property hp, requires_of_property hq, hpresence, Bool.or_self]
    · rw [lets_of_property hp, lets_of_property hq, ← hvalue, and_self_iff]
  · obtain ⟨presence, hpresence, hdefault, hrequired, -⟩ := Schema.meet?_presence hdp hdq
    rw [hpresence]
    dsimp only
    refine Compose.Yields.bind (place_joins (hmeet.yields (ha.values p hpmem) (hb.values q hqmem)))
      fun met hmet => .pure ⟨rfl, hdefault, ?_, fun x => ?_⟩
    · rw [requires_of_property hp, requires_of_property hq]
      exact hrequired
    · rw [lets_of_property hp, lets_of_property hq]
      exact hmet x

/-- The object says of every key what the two others say together. -/
structure Composes (env : Env) (config : Config) (a b o : ObjectShape Schema) : Prop extends Plain o where
  demands : ∀ key, o.requires key = (a.requires key || b.requires key)
  declared : ∀ key, o.declares key = (a.declares key || b.declares key)
  lets : ∀ key x, env.Lets config o key x ↔ env.Lets config a key x ∧ env.Lets config b key x

theorem composes_of_joints (ha : Plain a) (hb : Plain b) (ho : o.index = none)
    (hu : o.undeclared = a.undeclared.stricter b.undeclared)
    (hjoints : List.Forall₂ (env.Joint config a b) (a.properties ++ b.properties.filter fun q => !a.declares q.key)
      o.properties) : env.Composes config a b o := by
  have hkey : ∀ p r, env.Joint config a b p r → r.key = p.key := fun _ _ h => h.key
  have source : ∀ r ∈ o.properties, ∃ p, env.Joint config a b p r ∧ (p ∈ a.properties ∨ p ∈ b.properties) := by
    intro r hr
    obtain ⟨p, hp, hjoint⟩ := forall₂_exists_right hjoints hr
    refine ⟨p, hjoint, (List.mem_append.mp hp).imp_right fun h => (List.mem_filter.mp h).1⟩
  have declared : ∀ {key r}, o.property? key = some r → (a.declares key || b.declares key) = true := by
    intro key r hr
    obtain ⟨hmem, rfl⟩ := ObjectShape.property?_mem hr
    obtain ⟨p, hjoint, hp⟩ := source r hmem
    rw [Bool.or_eq_true, hjoint.key]
    exact hp.imp (fun h => List.any_eq_true.mpr ⟨p, h, by simp⟩) fun h => List.any_eq_true.mpr ⟨p, h, by simp⟩
  refine ⟨⟨Schema.keys_of_slots hkey hjoints ha.keys hb.keys, ?_, fun r hr => ?_, ho⟩, fun key => ?_, fun key => ?_,
    fun key x => ?_⟩
  · intro h
    obtain ⟨r, hr, hk⟩ := List.mem_map.mp h
    obtain ⟨p, hjoint, hp⟩ := source r hr
    have hpk : p.key = .index := hjoint.key.symm.trans hk
    exact hp.elim (fun h => ha.named (List.mem_map.mpr ⟨p, h, hpk⟩)) fun h => hb.named (List.mem_map.mpr ⟨p, h, hpk⟩)
  · obtain ⟨p, hjoint, -⟩ := source r hr
    exact hjoint.default
  · cases hprop : o.property? key with
    | some r =>
      obtain ⟨p, rfl, hjoint⟩ := Schema.slot_of_property hkey hjoints hprop
      rw [requires_of_property hprop, hjoint.required]
    | none =>
      obtain ⟨hna, hnb⟩ := Schema.undeclared_of_slots hkey hjoints hprop
      rw [requires_of_none hprop, requires_of_none hna, requires_of_none hnb, Bool.or_self]
  · cases hprop : o.property? key with
    | some r => rw [declared hprop, ObjectShape.declares_eq, hprop, Option.isSome_some]
    | none =>
      obtain ⟨hna, hnb⟩ := Schema.undeclared_of_slots hkey hjoints hprop
      simp [ObjectShape.declares_eq, hprop, hna, hnb]
  · cases hprop : o.property? key with
    | some r =>
      obtain ⟨p, rfl, hjoint⟩ := Schema.slot_of_property hkey hjoints hprop
      rw [lets_of_property hprop, hjoint.items]
    | none =>
      obtain ⟨hna, hnb⟩ := Schema.undeclared_of_slots hkey hjoints hprop
      rw [lets_of_none hprop, lets_of_none hna, lets_of_none hnb, hu, ne_eq, Schema.stricter_reject, not_or]

theorem meetShapes_joins (hmeet : env.JoinsKeywords config meet) (ha : PlainKeywords a) (hb : PlainKeywords b) :
    (ObjectShape.meetShapes env.admits meet a b).Yields (env.Composes config a b) fun _ => True := by
  refine (ObjectShape.meetShapes_yields (I := fun i => i = none) (R := env.Joint config a b) ?_
    (fun p hp hq => ?_) (fun p hp q _ hq => ?_) fun q hq hqa => ?_).mono
      (fun o ho => composes_of_joints ha.toPlain hb.toPlain ho.1 ho.2.1 ho.2.2) fun _ h => h
  · rw [ha.unindexed, hb.unindexed]
    exact .pure rfl
  · have hpa := (Schema.property?_eq_some ha.keys).mpr ⟨hp, rfl⟩
    exact meetUndeclared_joint hb.unindexed (ha.defaults p hp) hpa hq
  · exact meetDeclared_joint hmeet ha hb ((Schema.property?_eq_some ha.keys).mpr ⟨hp, rfl⟩) hq
  · have hqb := (Schema.property?_eq_some hb.keys).mpr ⟨hq, rfl⟩
    exact (meetUndeclared_joint ha.unindexed (hb.defaults q hq) hqb hqa).mono (fun _ h => h.symm)
      fun _ h => h

/-- Only the object itself equals a plain object of keywords. -/
theorem eq_object_of_same (ha : PlainKeywords a) (h : (Schema.object a).same t = true ∨ t.same (.object a) = true) :
    t = .object a := by
  cases t with
  | object b =>
    obtain ⟨ps, i, u⟩ := a
    obtain ⟨qs, j, w⟩ := b
    obtain rfl : i = none := ha.unindexed
    simp only [Schema.same, Bool.and_eq_true, beq_iff_eq] at h
    obtain rfl := Schema.eq_properties_of_same ha.values ha.defaults (h.imp (·.1.1) (·.1.1))
    obtain rfl : u = w := h.elim (·.2) (·.2.symm)
    cases j with
    | none => rfl
    | some j => simp [Schema.sameIndex] at h
  | _ => simp [Schema.same] at h

theorem composes_self (ha : PlainKeywords a) : env.Composes config a a a :=
  ⟨ha.toPlain, fun _ => (Bool.or_self _).symm, fun _ => (Bool.or_self _).symm, fun _ _ => and_self_iff.symm⟩

/-- The intersection of two plain objects of keywords. -/
theorem intersect_composes (ha : PlainKeywords a) (hb : PlainKeywords b) :
    Ends (env.intersect (.object a) (.object b)).1 (fun c => ∃ o, c = .object o ∧ env.Composes config a b o)
      fun _ => True := by
  refine intersect_objects (fun hsame => ?_) fun fuel => ?_
  · obtain rfl := Schema.object.inj (eq_object_of_same ha (Or.inl hsame))
    exact ⟨b, rfl, composes_self ha⟩
  · exact (meetShapes_joins (meetWithin_joinsKeywords env config fuel) ha hb).mono (fun o ho => ⟨o, rfl, ho⟩) fun _ h => h

/-- What the intersection accepts, entry by entry. -/
theorem accepts_composed (ho : env.Composes config a b o) (hf : v.fields? = some es) :
    env.accepts config (.object o) v = .ok true ↔ ∀ key, (∀ e, Entry.find? es key = some e →
        ((Blank config a e ∨ Blank config b e) ∧ a.requires key = false ∧ b.requires key = false) ∨
          env.Lets config a key e.item ∧ env.Lets config b key e.item) ∧
      ((a.requires key || b.requires key) = true → (Entry.find? es key).isSome = true) := by
  rw [accepts_object_iff ho.keys hf]
  refine forall_congr' fun key => ?_
  rw [says_iff ho.toPlain, ho.demands]
  refine and_congr_left fun _ => forall_congr' fun e => imp_congr_right fun he => ?_
  obtain rfl : e.key = key := (Entry.mem_of_find? he).2
  refine or_congr ?_ (ho.lets e.key e.item)
  simp only [Blank, ho.declared, ho.demands, Bool.or_eq_true, Bool.or_eq_false_iff]
  tauto

end Composed

/-- The entry is one on which an intersection of plain objects and their conjunction part. -/
inductive Strays (env : Env) (config : Config) (a b : ObjectShape Schema) (e : Entry) : Prop
  /-- The second object demands what the first one deletes. -/
  | missed : a.declares e.key = false → a.undeclared = .delete → b.requires e.key = true →
    env.Lets config b e.key e.item → Strays env config a b e
  /-- The second object would refuse what the first one deletes. -/
  | spared : a.declares e.key = false → a.undeclared = .delete → b.requires e.key = false → ¬ Blank config b e →
    ¬ env.Lets config b e.key e.item → Strays env config a b e
  /-- The first object puts the index marker out as a key that is none. -/
  | unnamed : e.key = .index → a.undeclared = .ignore → b.undeclared ≠ .reject → Strays env config a b e
  /-- The first object takes the item for absent, and the second one demands it. -/
  | blankFirst : Blank config a e → b.requires e.key = true → env.Lets config a e.key e.item →
    env.Lets config b e.key e.item → Strays env config a b e
  /-- The second object takes the item for absent, and the first one demands it. -/
  | blankSecond : Blank config b e → a.requires e.key = true → env.Lets config a e.key e.item →
    ¬ env.Lets config b e.key e.item → Strays env config a b e
  /-- The second object takes the item for absent, and the first one rejects it as undeclared. -/
  | blankRejected : Blank config b e → a.declares e.key = false → a.undeclared = .reject → Strays env config a b e

/-- What the conjunction asks of an entry is what the intersection asks of it, unless it strays. -/
theorem entry_agrees (ha : Plain a) (hb : Plain b) (hstray : ¬ env.Strays config a b e) :
    (((Blank config a e ∨ Blank config b e) ∧ a.requires e.key = false ∧ b.requires e.key = false) ∨
        env.Lets config a e.key e.item ∧ env.Lets config b e.key e.item) ↔
      (Blank config a e ∨ env.Lets config a e.key e.item) ∧
        (Passes config a e → e.key ≠ .index ∧ (Blank config b e ∨ env.Lets config b e.key e.item)) ∧
        (b.requires e.key = true → Passes config a e) := by
  have demanded : ∀ {o : ObjectShape Schema}, Blank config o e → o.requires e.key = false := fun h => h.2.2.2
  cases hprop : a.property? e.key with
  | some p =>
    have hdeclared : a.declares e.key = true := by simp [ObjectShape.declares_eq, hprop]
    have hnamed : e.key ≠ .index := by
      intro h
      obtain ⟨hp, hk⟩ := ObjectShape.property?_mem hprop
      exact ha.named (List.mem_map.mpr ⟨p, hp, hk.trans h⟩)
    -- An optional property of the first object is blank wherever one of the second is.
    have hblank : Blank config b e → a.requires e.key = false → Blank config a e := fun h hno =>
      ⟨h.1, h.2.1, hdeclared, hno⟩
    have hpasses : Passes config a e ↔ ¬ Blank config a e := by simp [Passes, hdeclared]
    have hfirst := fun h₁ h₂ h₃ h₄ => hstray (.blankFirst h₁ h₂ h₃ h₄)
    have hsecond := fun h₁ h₂ h₃ h₄ => hstray (.blankSecond h₁ h₂ h₃ h₄)
    have hblanka := demanded (o := a)
    have hblankb := demanded (o := b)
    grind
  | none =>
    have hdeclared : a.declares e.key = false := ObjectShape.declares_eq_false.mpr hprop
    have hblank : ¬ Blank config a e := not_blank_of_none hprop
    have hpasses : Passes config a e ↔ a.undeclared = .ignore := by simp [Passes, hblank, hdeclared]
    have hblankb := demanded (o := b)
    rw [hpasses, lets_of_none hprop, requires_of_none hprop]
    cases hpolicy : a.undeclared with
    | ignore =>
      have hmarker : e.key = .index → ¬ Blank config b e ∧ ¬ env.Lets config b e.key e.item := by
        intro h
        have hnone : b.property? e.key = none := by
          refine List.find?_eq_none.mpr fun p hp hk => hb.named (List.mem_map.mpr ⟨p, hp, ?_⟩)
          exact (by simpa using hk : p.key = e.key).trans h
        rw [lets_of_none hnone]
        exact ⟨not_blank_of_none hnone, fun hpolicy' => hstray (.unnamed h hpolicy hpolicy')⟩
      grind
    | delete =>
      have hmissed := fun h₁ h₂ => hstray (.missed hdeclared hpolicy h₁ h₂)
      have hspared := fun h₁ h₂ h₃ => hstray (.spared hdeclared hpolicy h₁ h₂ h₃)
      grind
    | reject =>
      have hrejected := fun h => hstray (.blankRejected h hdeclared hpolicy)
      grind

/-- Plain objects of keywords and their conjunction accept the same values, but for those with an entry that strays. -/
theorem accepts_composed_iff (ha : PlainKeywords a) (hb : PlainKeywords b) (ho : env.Composes config a b o)
    (hstray : ∀ es, v.fields? = some es → ∀ e ∈ es, ¬ env.Strays config a b e) :
    env.accepts config (.object o) v = .ok true ↔
      env.accepts config (.intersection [.object a, .object b]) v = .ok true := by
  cases hf : v.fields? with
  | none =>
    have refused : ∀ o, env.accepts config (.object o) v ≠ .ok true := by
      intro o h
      obtain ⟨es, hes, -⟩ := accepts_object.mp h
      simp [hf] at hes
    refine iff_of_false (refused o) fun h => ?_
    obtain ⟨x, hput, -⟩ := accepts_both.mp h
    obtain ⟨r, hr, hok, -⟩ := validate_iff.mp hput
    exact refused a (accepts_iff.mpr ⟨r, hr, hok⟩)
  | some es =>
    have hlazy : env.accepts config (.intersection [.object a, .object b]) v = .ok true ↔
        (∀ key, env.Says config a es key) ∧ ∀ key, (∀ e, Entry.find? es key = some e → Passes config a e →
            key ≠ .index ∧ (Blank config b e ∨ env.Lets config b key e.item)) ∧
          (b.requires key = true → ∃ e, Entry.find? es key = some e ∧ Passes config a e) := by
      rw [accepts_both, ← accepts_object_iff ha.keys hf]
      constructor
      · rintro ⟨x, hput, hacc⟩
        obtain ⟨r, hr, hok, -⟩ := validate_iff.mp hput
        exact ⟨accepts_iff.mpr ⟨r, hr, hok⟩, (accepts_output ha hb.toPlain hf hput).mp hacc⟩
      · rintro ⟨hacc, hentries⟩
        obtain ⟨r, hr, hok⟩ := accepts_iff.mp hacc
        have hput : env.validate config (.object a) v = .ok (.ok r.output) := validate_iff.mpr ⟨r, hr, hok, rfl⟩
        exact ⟨r.output, hput, (accepts_output ha hb.toPlain hf hput).mpr hentries⟩
    rw [accepts_composed ho hf, hlazy, ← forall_and]
    refine forall_congr' fun key => ?_
    rw [says_iff ha.toPlain]
    cases hfind : Entry.find? es key with
    | none => simp
    | some e =>
      obtain ⟨hmem, rfl⟩ := (Entry.find?_eq_some (Value.nodup_of_fields hf)).mp hfind
      simpa [and_assoc] using entry_agrees ha.toPlain hb.toPlain (hstray es hf e hmem)

end Env

namespace Engine

variable {s : Session} {calls : List Call} {scope : Option Nat} {config : Config} {a b : ObjectShape Schema}
  {c : Schema} {v : Value}

/-- Whatever was worked out before in the session, the intersection of two plain objects of keywords accepts what
their conjunction accepts, but for values with an entry that strays. -/
theorem intersection_agrees (hmemo : s.memo.entries = [])
    (hcalls : ∀ c ∈ calls, c.Fits s (s.env scope) fun t => t.Every (Schema.KeyNode True))
    (ha : Env.PlainKeywords a) (hb : Env.PlainKeywords b)
    (hrun : ((intersection scope (.object a) (.object b)).run (s.after calls)).1 = .ok c)
    (hstray : ∀ es, v.fields? = some es → ∀ e ∈ es, ¬ (s.env scope).Strays config a b e) :
    (s.env scope).accepts config c v = .ok true ↔
      (s.env scope).accepts config (.intersection [.object a, .object b]) v = .ok true := by
  obtain ⟨hagrees, hrecalls⟩ := (Session.recalls_of_empty hmemo).after hcalls
  have hc : ((s.env scope).intersect (.object a) (.object b)).1 = .ok c := by
    rcases hrecalls.outcome (hagrees scope) with
      hfresh | ⟨p, q, p', q', -, -, ⟨hpa, hqb⟩, ⟨hpp, hqq⟩, hkept⟩
    · exact hfresh.symm.trans hrun
    · -- The memo compares by equality, under which a plain object of keywords has no other form.
      obtain rfl := Env.eq_object_of_same ha (Or.inr hpa)
      obtain rfl := Env.eq_object_of_same hb (Or.inr hqb)
      obtain rfl := Env.eq_object_of_same ha (Or.inl hpp)
      obtain rfl := Env.eq_object_of_same hb (Or.inl hqq)
      exact hkept.symm.trans hrun
  have hends : Ends ((s.env scope).intersect (.object a) (.object b)).1
      (fun c => ∃ o, c = .object o ∧ (s.env scope).Composes config a b o) fun _ => True := Env.intersect_composes ha hb
  rw [hc] at hends
  obtain ⟨o, rfl, ho⟩ := hends
  exact Env.accepts_composed_iff ha hb ho hstray

/-- A number `x`, beside anything. -/
def numbered : ObjectShape Schema := ⟨[⟨.name "x", .keyword .number, .required⟩], none, .ignore⟩

/-- A string `y`, and nothing beside it is kept. -/
def noted : ObjectShape Schema := ⟨[⟨.name "y", .keyword .string, .required⟩], none, .delete⟩

theorem plain_of_required {key : Key} {k : Keyword} {u : Policy} (hkey : key ≠ .index) :
    Env.PlainKeywords ⟨[⟨key, .keyword k, .required⟩], none, u⟩ where
  keys := List.nodup_singleton key
  named := by simpa [ObjectShape.keys] using hkey.symm
  defaults := by simp [Presence.default?]
  unindexed := rfl
  values := by simp

/-- A number and a string under their keys. -/
def both : Value := .mapping [(.string "x", .int 1), (.string "y", .string "one")]

/-- The number is looked for before all but the string is deleted. -/
theorem intersection_agrees_both :
    ∃ c, ((intersection none (.object numbered) (.object noted)).run freshSession).1 = .ok c ∧
      (freshSession.env none).accepts Config.default c both = .ok true ∧
      (freshSession.env none).accepts Config.default (.intersection [.object numbered, .object noted]) both =
        .ok true := by
  have hrun : ((intersection none (.object numbered) (.object noted)).run (freshSession.after [])).1 =
      .ok (.object ⟨numbered.properties ++ noted.properties, none, .delete⟩) := rfl
  have hacc : (freshSession.env none).accepts Config.default
      (.object ⟨numbered.properties ++ noted.properties, none, .delete⟩) both = .ok true := rfl
  refine ⟨_, hrun, hacc, ?_⟩
  refine (intersection_agrees rfl (by simp) (plain_of_required (by simp)) (plain_of_required (by simp)) hrun ?_).mp hacc
  intro es hes
  obtain rfl : [⟨.name "x", .string "x", .int 1⟩, ⟨.name "y", .string "y", .string "one"⟩] = es := Option.some.inj hes
  have settled : ∀ {e : Entry}, e.key ≠ .index →
      ¬ (freshSession.env none).Strays Config.default numbered noted e := by
    intro e hkey hstrays
    have hexact : ∀ {o}, ¬ Env.Blank Config.default o e := fun h => absurd h.1 (by decide)
    cases hstrays with
    | missed _ hdelete => exact Policy.noConfusion hdelete
    | spared _ hdelete => exact Policy.noConfusion hdelete
    | unnamed hindex => exact hkey hindex
    | blankFirst h => exact hexact h
    | blankSecond h => exact hexact h
    | blankRejected h => exact hexact h
  simp only [List.forall_mem_cons, List.not_mem_nil, false_implies, implies_true, and_true]
  exact ⟨settled (by simp), settled (by simp)⟩

/-- In the other order the conjunction has lost the number when it is asked for. -/
theorem conjunction_loses :
    ∃ c, ((intersection none (.object noted) (.object numbered)).run freshSession).1 = .ok c ∧
      (freshSession.env none).accepts Config.default c both = .ok true ∧
      (freshSession.env none).accepts Config.default (.intersection [.object noted, .object numbered]) both =
        .ok false :=
  ⟨.object ⟨noted.properties ++ numbered.properties, none, .delete⟩, rfl, rfl, rfl⟩

end Engine
end Schemata
