import Schemata.Proofs.Algebra.KeyOf
import Schemata.Proofs.Algebra.Sparse
import Schemata.Proofs.Algebra.Stops
import Schemata.Proofs.Validation.Reports

/-! The keys of a union of objects. They are looked for among the key schemas of the first object, each of which has to
lie provably inside the keys of every other object. A key that is written out lies inside whatever has it. A wider key
schema of the first object may miss, and with it all the keys that the objects have in common through nothing else: which
keys are kept depends on which object comes first. -/
namespace Schemata

theorem Constraint.not_allAccept_false {hooks : Hooks} {v : Value} {cs : List Constraint}
    (h : ∀ c ∈ cs, c.Passes hooks v) : allAccept hooks v cs ≠ .ok false := by
  intro hno
  obtain ⟨c, hc, hrefused⟩ := allM_ok_false hno
  obtain ⟨verdict, hcheck, hvalid⟩ := h c hc
  obtain ⟨other, hother, hrefused⟩ := bind_ok hrefused
  rw [hcheck] at hother
  obtain rfl := Except.ok.inj hother
  rw [hvalid] at hrefused
  exact Bool.noConfusion (Except.ok.inj hrefused)

namespace Schema

/-- A single node of key schemas that can be compared: it names nothing, its constraints are sound and its defaults can
be made. -/
structure LegibleNode (hooks : Hooks) (s : Schema) : Prop where
  node : s.KeyNode False
  sound : s.Sound
  supplied : s.Supplied hooks

abbrev Legible (hooks : Hooks) (s : Schema) : Prop := s.Every (LegibleNode hooks)

variable {hooks : Hooks} {s : Schema}

theorem Legible.keys (h : s.Legible hooks) : s.Every (KeyNode False) := h.mono fun _ => LegibleNode.node

theorem Legible.reports (h : s.Legible hooks) : s.Every fun t => t.isRef = false ∧ t.Sound ∧ t.Supplied hooks :=
  h.mono fun _ h => ⟨h.node.not_isRef, h.sound, h.supplied⟩

theorem Legible.literal (k : Key) : (Schema.literal k.toValue).Legible hooks :=
  .intro ⟨Value.IsKey.tied ⟨k, rfl⟩, trivial, nofun⟩ nofun

/-- Repetitions hold no keys of their own. -/
theorem hasKey_distinct {env : Env} {v : Value} {ss : List Schema} (hv : v.IsKey)
    (hss : ∀ s ∈ ss, s.Every (KeyNode False)) :
    (∃ t ∈ distinct ss, t.HasKey env.hooks v) ↔ ∃ s ∈ ss, s.HasKey env.hooks v := by
  constructor
  · rintro ⟨t, ht, hkey⟩
    exact ⟨t, mem_of_mem_distinct ht, hkey⟩
  · rintro ⟨s, hs, hkey⟩
    obtain ⟨t, ht, rfl | hsame⟩ := distinct_covers hs
    · exact ⟨_, ht, hkey⟩
    · exact ⟨t, ht, (hasKey_alike hv (keys_of_same (hss t (mem_of_mem_distinct ht)) (hss s hs) hsame)).mpr hkey⟩

end Schema

namespace Env

open Schema (Legible HasKey Sparse)

variable {env : Env} {config : Config} {a b s t : Schema} {v : Value}

section Literals

variable (hv : v.IsKey)
include hv

/-- A key that belongs to a schema is not found outside of it, when the test on parts does not either. -/
theorem plainWithin_literal {sub : Schema → Schema → Except Fault Bool}
    (hsub : ∀ t ∈ s.parts, t.HasKey env.hooks v → sub (.literal v) t ≠ .ok false)
    (hs : s.Every (Schema.KeyNode False)) (hu : s.isUnion = false) (hi : s.isIntersection = false)
    (hkey : s.HasKey env.hooks v) : env.plainWithin sub (.literal v) s ≠ .ok false := by
  intro h
  cases hkey with
  | @constrained t cs hkey hpass =>
    obtain ⟨below, hbelow, h⟩ := bind_ok h
    cases below with
    | false => exact hsub t (by simp [Schema.parts]) hkey hbelow
    | true => exact Constraint.not_allAccept_false hpass h
  | @keyword k hholds =>
    have hdomain : k.domains v.domain = true := Keyword.domains_of_holds hholds
    cases k with
    | integer =>
      rw [show env.plainWithin sub (.literal v) (.keyword .integer) = .ok (Keyword.integer.holds v) from rfl, hholds] at h
      cases h
    | _ =>
      obtain ⟨d, hd, h⟩ := bind_ok h
      cases d with
      | none => cases hd
      | some d =>
        have hsubset : d.subset _ = false := Except.ok.inj h
        obtain rfl := Option.some.inj (Except.ok.inj hd)
        refine Bool.false_ne_true (hsubset.symm.trans (DomainSet.subset_iff.mpr fun e he => ?_))
        obtain rfl : e = v.domain := by simpa [DomainSet.of] using he
        exact hdomain
  | @literal w hequal =>
    obtain rfl := (hv.literalEqual_iff hs.root).mp hequal.2
    have hno : (w.domain == w.domain && w.literalEqual w) = false := Except.ok.inj h
    simp [hequal.2] at hno
  | union => cases hu
  | intersection => cases hi

/-- A key that is written out lies inside whatever schema it belongs to. -/
theorem subsetWithin_literal {fuel : Nat} {seen : List (Schema × Schema)} (hfuel : s.size < fuel)
    (hs : s.Every (Schema.KeyNode False)) (hkey : s.HasKey env.hooks v) :
    env.subsetWithin fuel seen (.literal v) s ≠ .ok false := by
  induction fuel generalizing s with
  | zero => exact absurd hfuel (Nat.not_lt_zero _)
  | succ fuel ih =>
    have part : ∀ t ∈ s.parts, t.HasKey env.hooks v → env.subsetWithin fuel seen (.literal v) t ≠ .ok false := by
      intro t ht hkey
      exact ih (lt_of_lt_of_le (Schema.size_lt_of_part ht) (Nat.le_of_lt_succ hfuel)) (hs.part ht) hkey
    have href : ((Schema.literal v).isRef || s.isRef) = false := by rw [hs.root.not_isRef]; rfl
    unfold subsetWithin
    dsimp only
    split_ifs with hshort href'
    · simp
    · rw [href] at href'
      cases href'
    · rw [href] at href'
      cases href'
    · cases s with
      | union bs =>
        intro h
        obtain ⟨t, ht, hkey⟩ := Schema.hasKey_union.mp hkey
        exact part t ht hkey (anyM_ok_false h t ht)
      | intersection ms =>
        intro h
        obtain ⟨t, ht, hno⟩ := allM_ok_false h
        exact part t ht (Schema.hasKey_intersection.mp hkey t ht) hno
      | _ => exact plainWithin_literal hv part hs rfl rfl hkey

theorem isSubset_literal (hs : s.Every (Schema.KeyNode False)) (hkey : s.HasKey env.hooks v) :
    env.isSubset (.literal v) s ≠ .ok false :=
  subsetWithin_literal hv (lt_of_lt_of_le (by simp [Schema.size]) (size_le_pairFuel env _ _)) hs hkey

end Literals

theorem accepts_answers (hs : s.Legible env.hooks) (config : Config) (v : Value) :
    ∃ b, env.accepts config s v = .ok b := by
  obtain ⟨report, hreport⟩ : ∃ report, env.validate config s v = .ok report := validate_reports hs.reports
  unfold validate at hreport
  unfold accepts
  cases hrun : env.run config s v with
  | error e =>
    rw [hrun] at hreport
    cases hreport
  | ok o => exact ⟨o.isOk, rfl⟩

theorem hasKey_decides (hs : s.Legible env.hooks) (config : Config) (k : Key) :
    Decides (env.accepts config s k.toValue) (s.HasKey env.hooks k.toValue) := by
  obtain ⟨b, hb⟩ := accepts_answers hs config k.toValue
  exact ⟨b, hb, hasKey_of_accepts hs.keys (Value.IsKey.isScalar ⟨k, rfl⟩) hb⟩

section Comparing

variable (htrial : ∃ config, env.trial = .ok config)
include htrial

theorem stopsOn_legible : env.StopsOn (Legible env.hooks) fun _ => False where
  part _ _ hs ht := hs.part ht
  behind s hs := by
    cases s with
    | ref r => exact hs.root.node.elim
    | _ =>
      rintro _ ⟨⟩
      exact hs
  hashable s t hs ht href := by
    rw [hs.root.node.not_isRef, ht.root.node.not_isRef] at href
    cases href
  domains s hs := by
    have hinto : s.Into fun _ => False := hs.mono fun t ht r hr => by
      subst hr
      exact ht.node.elim
    have hcomplete : env.Complete fun _ => False := nofun
    obtain ⟨d, hd⟩ := domains?_answers hcomplete hinto
    rw [hd]
    trivial
  admits s v hs := by
    obtain ⟨config, hconfig⟩ := htrial
    obtain ⟨b, hb⟩ := accepts_answers hs config v
    rw [show env.admits s v = env.accepts config s v by unfold admits; rw [hconfig]; rfl, hb]
    trivial
  implied s t cs ds hs ht d hd := Constraint.impliedBy_ends (ht.root.sound d hd) hs.root.sound
  accepted t ds v ht := Constraint.allAccept_ends env.hooks v ht.root.sound

theorem isSubset_legible (ha : a.Legible env.hooks) (hb : b.Legible env.hooks) :
    Decides (env.isSubset a b) (env.isSubset a b = .ok true) := by
  obtain ⟨below, hbelow, -⟩ := ((stopsOn_legible htrial).isSubset ha hb).succeeds
  rw [hbelow]
  exact (Decides.ok below).answers

theorem union_legible {ss : List Schema} (hss : ∀ s ∈ ss, s.Legible env.hooks) :
    ∃ u, env.union ss = .ok u ∧ u.Legible env.hooks := by
  have hunion : ∀ bs, (Schema.union bs).LegibleNode env.hooks := fun bs => ⟨trivial, trivial, nofun⟩
  have hboolean : (Schema.keyword .boolean).LegibleNode env.hooks := ⟨trivial, trivial, nofun⟩
  obtain ⟨u, hu, -⟩ := ((stopsOn_legible htrial).union (Schema.every_flat hboolean hss)).succeeds
  exact ⟨u, hu, every_union hboolean hunion hss hu⟩

/-- A union of sparse key schemas loses no key. -/
theorem union_keeps {bs : List Schema} (hlegible : ∀ s ∈ bs, s.Legible env.hooks)
    (hsparse : Sparse (fun a b => env.isSubset a b = .ok true) bs) :
    ∃ u, env.union bs = .ok u ∧ u.Legible env.hooks ∧
      ∀ v : Value, v.IsKey → (u.HasKey env.hooks v ↔ ∃ s ∈ bs, s.HasKey env.hooks v) := by
  obtain ⟨u, hu, hu'⟩ := union_legible htrial hlegible
  refine ⟨u, hu, hu', fun v hv => ?_⟩
  rw [union_of_sparse (fun a ha b hb => isSubset_legible htrial (hlegible a ha) (hlegible b hb)) hsparse] at hu
  obtain rfl := Except.ok.inj hu
  rw [Schema.hasKey_ofBranches, Schema.hasKey_distinct hv fun s hs => (hlegible s hs).keys]

/-- The common keys stand in their order, and each key schema that lies inside all the others is among them. -/
theorem commonKeys_keeps {others ks : List Schema} (hothers : ∀ s ∈ others, s.Legible env.hooks)
    (hks : ∀ s ∈ ks, s.Legible env.hooks) : ∃ common, env.commonKeys others ks = .ok common ∧ common.Sublist ks ∧
      ∀ k ∈ ks, (∀ other ∈ others, env.isSubset k other = .ok true) → k ∈ common := by
  induction ks with
  | nil => exact ⟨[], rfl, .slnil, nofun⟩
  | cons k ks ih =>
    obtain ⟨hk, hks⟩ := List.forall_mem_cons.mp hks
    obtain ⟨kept, hkept, hsub, hmem⟩ := ih hks
    obtain ⟨all, hall, hiff⟩ := Decides.all fun other hother => isSubset_legible htrial hk (hothers other hother)
    refine ⟨if all then k :: kept else kept, by simp only [commonKeys, hall, hkept]; rfl, ?_, ?_⟩
    · split
      · exact hsub.cons_cons k
      · exact hsub.cons k
    · refine List.forall_mem_cons.mpr ⟨fun h => ?_, fun l hl h => ?_⟩
      · rw [if_pos (hiff.mpr h)]
        exact List.mem_cons_self
      · split
        · exact List.mem_cons_of_mem _ (hmem l hl h)
        · exact hmem l hl h

end Comparing

end Env

theorem Schema.keyOfEach_answers {env : Env} {follow : Ref → Except Fault Schema} {ss : List Schema}
    (h : ∀ s ∈ ss, ∃ keys, s.keyOfWith env follow = .ok keys) : ∃ kss, keyOfEach env follow ss = .ok kss := by
  induction ss with
  | nil => exact ⟨[], rfl⟩
  | cons s ss ih =>
    obtain ⟨⟨keys, hkeys⟩, hss⟩ := List.forall_mem_cons.mp h
    obtain ⟨rest, hrest⟩ := ih hss
    exact ⟨keys :: rest, by simp only [keyOfEach, hkeys, hrest]; rfl⟩

theorem Schema.keyOfWith_union {env : Env} {follow : Ref → Except Fault Schema} {s first : Schema}
    {ss others common : List Schema} (hfirst : s.keyOfWith env follow = .ok first)
    (hothers : keyOfEach env follow ss = .ok others) (hcommon : env.commonKeys others first.branches = .ok common) :
    (Schema.union (s :: ss)).keyOfWith env follow = env.union common := by
  simp only [keyOfWith, hfirst, hothers]
  show (env.commonKeys others first.branches >>= env.union) = env.union common
  rw [hcommon]
  rfl

namespace ObjectShape

/-- The keys of the index signature can be compared, and no branch of theirs is a union again. -/
structure Legible (hooks : Hooks) (o : ObjectShape Schema) : Prop where
  key : ∀ i, o.index = some i → i.key.Legible hooks
  flat : ∀ i, o.index = some i → ∀ s ∈ i.key.branches, s.isUnion = false

variable {hooks : Hooks} {o : ObjectShape Schema}

theorem Legible.keySchemas (h : o.Legible hooks) : ∀ s ∈ o.keySchemas, s.Legible hooks ∧ s.isUnion = false := by
  intro s hs
  rcases mem_keySchemas hs with ⟨k, -, rfl⟩ | ⟨i, hi, hs⟩
  · exact ⟨.literal k, rfl⟩
  · exact ⟨Schema.every_branches (h.key i hi) s hs, h.flat i hi s hs⟩

end ObjectShape

namespace Env

open Schema (Legible HasKey Sparse)

variable {env : Env} {config : Config} {o first : ObjectShape Schema} {os os' others : List (ObjectShape Schema)}
  {own part : Schema} {k : Key}

/-- The key is one of the object's keys. -/
def IsKeyOf (env : Env) (config : Config) (k : Key) (o : ObjectShape Schema) : Prop :=
  ∃ own, env.keyOf (.object o) = .ok own ∧ env.accepts config own k.toValue = .ok true

/-- The first object takes the key through its index signature only, and there through parts that are not provably
inside the keys of some other object. -/
def Hides (env : Env) (config : Config) (k : Key) : List (ObjectShape Schema) → Prop
  | [] => False
  | first :: others => ∃ own i, env.keyOf (.object first) = .ok own ∧ first.index = some i ∧
      env.accepts config i.key k.toValue = .ok true ∧
      ∀ part ∈ own.branches, env.accepts config part k.toValue = .ok true →
        part ∈ i.key.branches ∧ (∀ w, part ≠ .literal w) ∧
          ∃ o ∈ others, ∃ theirs, env.keyOf (.object o) = .ok theirs ∧ env.isSubset part theirs = .ok false

theorem isKeyOf_iff (hown : env.keyOf (.object o) = .ok own) (hlegible : own.Legible env.hooks) :
    env.IsKeyOf config k o ↔ own.HasKey env.hooks k.toValue := by
  rw [← (hasKey_decides hlegible config k).iff]
  refine ⟨?_, fun h => ⟨own, hown, h⟩⟩
  rintro ⟨own', hown', h⟩
  obtain rfl := Except.ok.inj (hown.symm.trans hown')
  exact h

section Objects

variable (htrial : ∃ config, env.trial = .ok config)
include htrial

theorem keyOf_answers (ho : o.Legible env.hooks) : ∃ own, env.keyOf (.object o) = .ok own := by
  obtain ⟨own, hown, -⟩ := union_legible htrial fun s hs => (ho.keySchemas s hs).1
  exact ⟨own, hown⟩

theorem keyOf_legible (ho : o.Legible env.hooks) (hown : env.keyOf (.object o) = .ok own) : own.Legible env.hooks := by
  obtain ⟨own', hown', hlegible⟩ := union_legible htrial fun s hs => (ho.keySchemas s hs).1
  rwa [Except.ok.inj (hown.symm.trans hown')]

/-- The keys of an object are sparse. -/
theorem keyOf_sparse (ho : o.Legible env.hooks) (hown : env.keyOf (.object o) = .ok own) :
    Sparse (fun a b => env.isSubset a b = .ok true) own.branches ∧ own.branches ⊆ Schema.flat o.keySchemas := by
  have hflat : ∀ s ∈ Schema.flat o.keySchemas, s.Legible env.hooks :=
    Schema.every_flat ⟨trivial, trivial, nofun⟩ fun s hs => (ho.keySchemas s hs).1
  exact union_sparse (fun a ha b hb => isSubset_legible htrial (hflat a ha) (hflat b hb))
    (fun s hs => (ho.keySchemas s hs).2) hown

/-- What is not written out among the keys of an object is part of its index signature. -/
theorem part_written (ho : o.Legible env.hooks) (hown : env.keyOf (.object o) = .ok own) (hpart : part ∈ own.branches)
    (hkey : part.HasKey env.hooks k.toValue) : part = .literal k.toValue ∨
      (∀ w, part ≠ .literal w) ∧ ∃ i, o.index = some i ∧ part ∈ i.key.branches := by
  have hv : k.toValue.IsKey := ⟨k, rfl⟩
  obtain ⟨s, hs, hmem⟩ := mem_of_mem_flat hv ((keyOf_sparse htrial ho hown).2 hpart) hkey
  rw [Schema.branches_of_not_isUnion (ho.keySchemas s hs).2, List.mem_singleton] at hmem
  subst hmem
  by_cases hwritten : ∃ w, part = .literal w
  · obtain ⟨w, rfl⟩ := hwritten
    have htied : w.Tied := (Schema.every_branches (keyOf_legible htrial ho hown) _ hpart).root.node
    rw [(hv.literalEqual_iff htied).mp (Schema.hasKey_literal.mp hkey).2]
    exact Or.inl rfl
  · rw [not_exists] at hwritten
    rcases ObjectShape.mem_keySchemas hs with ⟨l, -, hl⟩ | hindex
    · exact absurd hl (hwritten _)
    · exact Or.inr ⟨hwritten, hindex⟩

/-- A union of objects has a key when some part of the first object's keys has it and lies provably inside the keys of
all the others. -/
theorem keyOf_objects (hfirst : first.Legible env.hooks) (hothers : ∀ o ∈ others, o.Legible env.hooks)
    (hown : env.keyOf (.object first) = .ok own) :
    ∃ keys, env.keyOf (.union ((first :: others).map .object)) = .ok keys ∧ keys.Legible env.hooks ∧
      ∀ v : Value, v.IsKey → (keys.HasKey env.hooks v ↔ ∃ part ∈ own.branches, part.HasKey env.hooks v ∧
        ∀ o ∈ others, ∃ theirs, env.keyOf (.object o) = .ok theirs ∧ env.isSubset part theirs = .ok true) := by
  obtain ⟨kss, hkss⟩ : ∃ kss, Schema.keyOfEach env (fun r => do env.keyOfWithin env.slotCount (← env.resolve r))
      (others.map .object) = .ok kss :=
    Schema.keyOfEach_answers (List.forall_mem_map.mpr fun o ho => keyOf_answers htrial (hothers o ho))
  have heach := List.forall₂_map_left_iff.mp (Schema.keyOfEach_ok hkss)
  have hparts : ∀ part ∈ own.branches, part.Legible env.hooks :=
    Schema.every_branches (keyOf_legible htrial hfirst hown)
  have hkeys : ∀ theirs ∈ kss, theirs.Legible env.hooks := by
    intro theirs htheirs
    obtain ⟨o, ho, hkeys⟩ := forall₂_exists_right heach htheirs
    exact keyOf_legible htrial (hothers o ho) hkeys
  obtain ⟨common, hcommon, hsub, hmem⟩ := commonKeys_keeps htrial hkeys hparts
  obtain ⟨keys, hunion, hlegible', hhas⟩ :=
    union_keeps htrial (fun s hs => hparts s (hsub.subset hs)) ((keyOf_sparse htrial hfirst hown).1.sublist hsub)
  refine ⟨keys, ?_, hlegible', fun v hv => (hhas v hv).trans ⟨?_, ?_⟩⟩
  · exact (Schema.keyOfWith_union hown hkss hcommon).trans hunion
  · rintro ⟨part, hpart, hkey⟩
    refine ⟨part, hsub.subset hpart, hkey, fun o ho => ?_⟩
    obtain ⟨theirs, htheirs, hkeys⟩ := forall₂_exists_left heach ho
    exact ⟨theirs, hkeys, (Schema.mem_commonKeys hcommon hpart).2 theirs htheirs⟩
  · rintro ⟨part, hpart, hkey, hinside⟩
    refine ⟨part, hmem part hpart fun theirs htheirs => ?_, hkey⟩
    obtain ⟨o, ho, hkeys⟩ := forall₂_exists_right heach htheirs
    obtain ⟨theirs', htheirs', hsubset⟩ := hinside o ho
    rwa [Except.ok.inj ((show env.keyOf (.object o) = .ok theirs from hkeys).symm.trans htheirs')]

/-- A key is not hidden if a part that has it lies inside the keys of all the other objects. -/
theorem not_hides_of_inside (hfirst : first.Legible env.hooks) (hown : env.keyOf (.object first) = .ok own)
    (hpart : part ∈ own.branches) (hkey : part.HasKey env.hooks k.toValue)
    (hinside : ∀ o ∈ others, ∃ theirs, env.keyOf (.object o) = .ok theirs ∧ env.isSubset part theirs = .ok true) :
    ¬ env.Hides config k (first :: others) := by
  rintro ⟨own', i, hown', -, -, hall⟩
  obtain rfl := Except.ok.inj (hown.symm.trans hown')
  have hlegible : part.Legible env.hooks := Schema.every_branches (keyOf_legible htrial hfirst hown) part hpart
  obtain ⟨-, -, o, ho, theirs, htheirs, houtside⟩ := hall part hpart ((hasKey_decides hlegible config k).eq_true hkey)
  obtain ⟨theirs', htheirs', hsubset⟩ := hinside o ho
  obtain rfl := Except.ok.inj (htheirs.symm.trans htheirs')
  cases houtside.symm.trans hsubset

/-- A common key that the union loses is hidden: were it written out in the first object, the part that has it would lie
inside the keys of all the others. -/
theorem hides_of_lost (hfirst : first.Legible env.hooks) (hothers : ∀ o ∈ others, o.Legible env.hooks)
    (hown : env.keyOf (.object first) = .ok own) (hkey : own.HasKey env.hooks k.toValue)
    (hcommon : ∀ o ∈ others, env.IsKeyOf config k o)
    (hlost : ∀ part ∈ own.branches, part.HasKey env.hooks k.toValue → ∃ o ∈ others, ∀ theirs,
      env.keyOf (.object o) = .ok theirs → env.isSubset part theirs ≠ .ok true) :
    env.Hides config k (first :: others) := by
  have hlegible : ∀ part ∈ own.branches, part.Legible env.hooks :=
    Schema.every_branches (keyOf_legible htrial hfirst hown)
  have outside : ∀ part ∈ own.branches, part.HasKey env.hooks k.toValue → part ≠ .literal k.toValue ∧
      ∃ o ∈ others, ∃ theirs, env.keyOf (.object o) = .ok theirs ∧ env.isSubset part theirs = .ok false := by
    intro part hpart hkey
    obtain ⟨o, ho, hno⟩ := hlost part hpart hkey
    obtain ⟨theirs, htheirs, haccepts⟩ := hcommon o ho
    have htheirlegible := keyOf_legible htrial (hothers o ho) htheirs
    have hfalse := (isSubset_legible htrial (hlegible part hpart) htheirlegible).eq_false (hno theirs htheirs)
    refine ⟨?_, o, ho, theirs, htheirs, hfalse⟩
    rintro rfl
    exact isSubset_literal ⟨k, rfl⟩ htheirlegible.keys ((hasKey_decides htheirlegible config k).iff.mp haccepts) hfalse
  have wide : ∀ part ∈ own.branches, part.HasKey env.hooks k.toValue →
      (∀ w, part ≠ .literal w) ∧ ∃ i, first.index = some i ∧ part ∈ i.key.branches := fun part hpart hkey =>
    (part_written htrial hfirst hown hpart hkey).resolve_left (outside part hpart hkey).1
  obtain ⟨part, hpart, hpartkey⟩ := Schema.hasKey_branches.mpr hkey
  obtain ⟨-, i, hi, hmem⟩ := wide part hpart hpartkey
  refine ⟨own, i, hown, hi, ?_, fun part hpart haccepts => ?_⟩
  · exact (hasKey_decides (hfirst.key i hi) config k).eq_true (Schema.hasKey_branches.mp ⟨part, hmem, hpartkey⟩)
  · have hpartkey := (hasKey_decides (hlegible part hpart) config k).iff.mp haccepts
    obtain ⟨hwide, j, hj, hmem⟩ := wide part hpart hpartkey
    obtain rfl := Option.some.inj (hi.symm.trans hj)
    exact ⟨hmem, hwide, (outside part hpart hpartkey).2⟩

/-- The keys of a union of objects are those that all of them have, but for the hidden ones. -/
theorem keyOf_objects_decides (hne : os ≠ []) (hos : ∀ o ∈ os, o.Legible env.hooks) :
    ∃ keys, env.keyOf (.union (os.map .object)) = .ok keys ∧ ∀ config k,
      Decides (env.accepts config keys k.toValue) ((∀ o ∈ os, env.IsKeyOf config k o) ∧ ¬ env.Hides config k os) := by
  cases os with
  | nil => exact absurd rfl hne
  | cons first others =>
    obtain ⟨hfirst, hothers⟩ := List.forall_mem_cons.mp hos
    obtain ⟨own, hown⟩ := keyOf_answers htrial hfirst
    have hlegible := keyOf_legible htrial hfirst hown
    obtain ⟨keys, hkeys, hkeyslegible, hhas⟩ := keyOf_objects htrial hfirst hothers hown
    refine ⟨keys, hkeys, fun config k => (hasKey_decides hkeyslegible config k).congr ?_⟩
    have hv : k.toValue.IsKey := ⟨k, rfl⟩
    rw [hhas _ hv, List.forall_mem_cons, isKeyOf_iff hown hlegible]
    constructor
    · rintro ⟨part, hpart, hkey, hinside⟩
      refine ⟨⟨Schema.hasKey_branches.mp ⟨part, hpart, hkey⟩, fun o ho => ?_⟩,
        not_hides_of_inside htrial hfirst hown hpart hkey hinside⟩
      obtain ⟨theirs, htheirs, hsubset⟩ := hinside o ho
      have htheirlegible := keyOf_legible htrial (hothers o ho) htheirs
      have hpartlegible : part.Legible env.hooks := Schema.every_branches hlegible part hpart
      rw [isKeyOf_iff htheirs htheirlegible]
      exact hasKey_of_isSubset hv hpartlegible.keys htheirlegible.keys hsubset hkey
    · rintro ⟨⟨hkey, hcommon⟩, hshown⟩
      by_contra hnone
      refine hshown (hides_of_lost htrial hfirst hothers hown hkey hcommon fun part hpart hpartkey => ?_)
      by_contra hinside
      refine hnone ⟨part, hpart, hpartkey, fun o ho => ?_⟩
      by_contra hno
      exact hinside ⟨o, ho, fun theirs htheirs hsubset => hno ⟨theirs, htheirs, hsubset⟩⟩

/-- Which keys a union of objects keeps does depend on the order of the objects. In each order they are the keys that all
objects have, but for those that are hidden in this order. -/
theorem keyOf_union_perm (hperm : os.Perm os') (hne : os ≠ []) (hos : ∀ o ∈ os, o.Legible env.hooks) :
    (2 ≤ os.length → (os.map Schema.object).Pairwise (fun s t => s.same t = false) →
        env.union (os.map .object) = .ok (.union (os.map .object))) ∧
      ∃ keys keys', env.keyOf (.union (os.map .object)) = .ok keys ∧ env.keyOf (.union (os'.map .object)) = .ok keys' ∧
        ∀ config k, ∃ kept kept', env.accepts config keys k.toValue = .ok kept ∧
          env.accepts config keys' k.toValue = .ok kept' ∧
          (kept = true ↔ (∀ o ∈ os, env.IsKeyOf config k o) ∧ ¬ env.Hides config k os) ∧
          (kept' = true ↔ (∀ o ∈ os, env.IsKeyOf config k o) ∧ ¬ env.Hides config k os') := by
  refine ⟨union_objects, ?_⟩
  have hne' : os' ≠ [] := fun h => hne (h ▸ hperm).eq_nil
  obtain ⟨keys, hkeys, hdecides⟩ := keyOf_objects_decides htrial hne hos
  obtain ⟨keys', hkeys', hdecides'⟩ := keyOf_objects_decides htrial hne' fun o ho => hos o (hperm.mem_iff.mpr ho)
  refine ⟨keys, keys', hkeys, hkeys', fun config k => ?_⟩
  obtain ⟨kept, hkept, hiff⟩ := hdecides config k
  obtain ⟨kept', hkept', hiff'⟩ := hdecides' config k
  have hcommon : (∀ o ∈ os', env.IsKeyOf config k o) ↔ ∀ o ∈ os, env.IsKeyOf config k o :=
    forall_congr' fun o => by rw [hperm.mem_iff]
  exact ⟨kept, kept', hkept, hkept', hiff, by rwa [hcommon] at hiff'⟩

end Objects

/-- Something with a title. -/
def titled : ObjectShape Schema := ⟨[⟨.name "title", .keyword .string, .required⟩], none, .ignore⟩

/-- Numbers under any texts. -/
def tallies : ObjectShape Schema := ⟨[], some ⟨.keyword .string, .keyword .number⟩, .ignore⟩

/-- Both have the title, and it is found where the titled one comes first. Where the tallies come first it is hidden, since
not every text is a key of the titled one. -/
theorem keyOf_union_perm_titled :
    bare.keyOf (.union [.object titled, .object tallies]) = .ok (.literal (.string "title")) ∧
      bare.keyOf (.union [.object tallies, .object titled]) = .ok .never ∧
      (∀ o ∈ [titled, tallies], bare.IsKeyOf Config.default (.name "title") o) ∧
      bare.Hides Config.default (.name "title") [tallies, titled] := by
  have hlegible : ∀ o ∈ [titled, tallies], o.Legible bare.hooks := by
    refine List.forall_mem_cons.mpr ⟨⟨nofun, nofun⟩, List.forall_mem_singleton.mpr ⟨?_, ?_⟩⟩
    · rintro _ ⟨⟩
      exact .intro ⟨trivial, trivial, nofun⟩ nofun
    · rintro _ ⟨⟩
      exact List.forall_mem_singleton.mpr rfl
  obtain ⟨-, keys, keys', hkeys, hkeys', hall⟩ :=
    keyOf_union_perm ⟨_, rfl⟩ (.swap tallies titled []) (List.cons_ne_nil _ _) hlegible
  have hthere : bare.keyOf (.union [.object titled, .object tallies]) = .ok (.literal (.string "title")) := rfl
  have hback : bare.keyOf (.union [.object tallies, .object titled]) = .ok .never := rfl
  obtain rfl := Except.ok.inj (hthere.symm.trans hkeys)
  obtain rfl := Except.ok.inj (hback.symm.trans hkeys')
  obtain ⟨kept, kept', hkept, hkept', hiff, hiff'⟩ := hall Config.default (.name "title")
  obtain rfl := Except.ok.inj (show Except.ok true = Except.ok kept from hkept)
  obtain rfl := Except.ok.inj (show Except.ok false = Except.ok kept' from hkept')
  have hcommon := (hiff.mp rfl).1
  refine ⟨hthere, hback, hcommon, ?_⟩
  by_contra hshown
  exact Bool.false_ne_true (hiff'.mpr ⟨hcommon, hshown⟩)

end Env
end Schemata
