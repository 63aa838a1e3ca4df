import Schemata.Proofs.Schema.Transfer
import Schemata.Proofs.Validation.Containers
import Schemata.Validation

/-! Validation agrees with membership. A check of a schema of the fragment always answers; it accepts members
only, and every member that nests no deeper than references may be followed. -/
namespace Schemata

namespace Schema

variable {env : Env} {config : Config} {follow : Ref → Check}

theorem branchChecks_eq (bs : List Schema) :
    branchChecks env config follow bs = bs.map fun s => (s, s.checkWith env config follow) := by
  induction bs with
  | nil => rfl
  | cons s bs ih => simp [branchChecks, ih]

theorem memberChecks_eq (ms : List Schema) :
    memberChecks env config follow ms = ms.map fun s => s.checkWith env config follow := by
  induction ms with
  | nil => rfl
  | cons s ms ih => simp [memberChecks, ih]

theorem propertyChecks_eq (ps : List (Property Schema)) : propertyChecks env config follow ps =
    ps.map fun p => ⟨p.key, p.value.checkWith env config follow, p.presence⟩ := by
  induction ps with
  | nil => rfl
  | cons p ps ih => simp [propertyChecks, ih]

theorem elementChecks_eq (es : List (Element Schema)) : elementChecks env config follow es =
    es.map fun e => ⟨e.role, e.value.checkWith env config follow⟩ := by
  induction es with
  | nil => rfl
  | cons e es ih => simp [elementChecks, ih]

/-- The parts of an object, each with its check. -/
def objectParts (check : Schema → Check) (o : ObjectShape Schema) : ObjectShape Check :=
  ⟨o.properties.map fun p => ⟨p.key, check p.value, p.presence⟩, none, o.undeclared⟩

theorem checkWith_object {o : ObjectShape Schema} (hi : o.index = none) :
    (Schema.object o).checkWith env config follow =
      .object config env.hooks (objectParts (·.checkWith env config follow) o) := by
  obtain ⟨ps, i, u⟩ := o
  obtain rfl : i = none := hi
  simp [checkWith, objectParts, propertyChecks_eq, indexCheck]

theorem objectParts_declares {check : Schema → Check} {o : ObjectShape Schema} {key : Key} :
    (objectParts check o).declares key = o.declares key := by
  simp [ObjectShape.declares, objectParts, Function.comp_def]

/-- A check that references answer passes on to the schemas around them. -/
theorem checkWith_total {d : Dialect} (hg : env.Grounded d) (hf : ∀ r, d.named r → (follow r).Total)
    (s : Schema) (hs : s.Every (Fits d)) : (s.checkWith env config follow).Total := by
  induction s using induction_on_parts with
  | _ s ih =>
    have ih : ∀ t ∈ s.parts, (t.checkWith env config follow).Total := fun t ht => ih t ht (hs.part ht)
    cases s with
    | keyword k => exact fun _ v => ⟨_, rfl⟩
    | literal w => exact fun _ v => ⟨_, rfl⟩
    | constrained s cs =>
      intro visit v
      obtain ⟨o, ho, -⟩ := Check.constrained_spec (ih s (by simp [parts])) hs.root env.hooks visit v
      exact ⟨o, ho⟩
    | union bs =>
      intro visit v
      rw [checkWith, branchChecks_eq]
      have htotal : ∀ b ∈ bs.map fun s => (s, s.checkWith env config follow), b.2.Total := by
        intro b hb
        obtain ⟨s, hmem, rfl⟩ := List.mem_map.mp hb
        exact ih s hmem
      have hdomains : ∀ b ∈ bs.map fun s => (s, s.checkWith env config follow),
          ∃ ds, env.domains? b.1 = .ok ds := by
        intro b hb
        obtain ⟨s, hmem, rfl⟩ := List.mem_map.mp hb
        obtain ⟨ds, hds, -⟩ := env.domains?_spec hg true (hs.branch hmem)
        exact ⟨ds, hds⟩
      obtain ⟨o, ho, -⟩ := Check.union_spec htotal hdomains visit v
      exact ⟨o, ho⟩
    | intersection ms =>
      rw [checkWith, memberChecks_eq]
      refine Check.conjunction_total fun c hc => ?_
      obtain ⟨s, hmem, rfl⟩ := List.mem_map.mp hc
      exact ih s hmem
    | ref r => exact hf r hs.root
    | object o =>
      intro visit v
      rw [checkWith_object hs.root.1]
      have htotal : ∀ p ∈ (objectParts (·.checkWith env config follow) o).properties, p.value.Total := by
        intro p hp
        obtain ⟨q, hq, rfl⟩ := List.mem_map.mp hp
        exact ih _ (List.mem_append_left _ (List.mem_map_of_mem hq))
      have hdefault : ∀ p ∈ (objectParts (·.checkWith env config follow) o).properties,
          p.presence.default? = none := by
        intro p hp
        obtain ⟨q, hq, rfl⟩ := List.mem_map.mp hp
        exact hs.root.2.2.1 q hq
      obtain ⟨out, hout, -⟩ := Check.object_spec htotal hdefault rfl config env.hooks visit v
      exact ⟨out, hout⟩
    | tuple es =>
      intro visit v
      rw [checkWith, elementChecks_eq]
      have htotal : ∀ e ∈ es.map fun e => (⟨e.role, e.value.checkWith env config follow⟩ : Element Check),
          e.value.Total := by
        intro e he
        obtain ⟨f, hf, rfl⟩ := List.mem_map.mp he
        exact ih _ (List.mem_map_of_mem hf)
      have hdefault : ∀ e ∈ es.map fun e => (⟨e.role, e.value.checkWith env config follow⟩ : Element Check),
          e.role.default? = none := by
        intro e he
        obtain ⟨f, hf, rfl⟩ := List.mem_map.mp he
        exact hs.root.2 f hf
      obtain ⟨out, hout, -⟩ := Check.tuple_spec htotal hdefault config env.hooks es visit v
      exact ⟨out, hout⟩

end Schema

namespace Visit

/-- Identities of the containers around a value. -/
def identities (visit : Visit) : List Value.Identity := visit.around.map (·.2)

/-- Nothing stands in the way of checking a value while `n` more references may be followed. A structure may
be met behind a reference that is being followed on the value itself, so only the value's parts count. -/
structure Ready (d : Dialect) (n : Nat) (visit : Visit) (s : Schema) (v : Value) : Prop where
  here : s.isStructure = false → visit.here = []
  clear : s.isStructure = false → d.Follows → v.Clear visit.identities n
  parts : s.isStructure = true → d.Follows → ∀ c ∈ v.unfold.children, c.Clear visit.identities n

namespace Ready

variable {d : Dialect} {n : Nat} {visit : Visit} {s : Schema} {v : Value}

theorem of_clear (hh : visit.here = []) (hv : d.Follows → v.Clear visit.identities n) (s : Schema) :
    Ready d n visit s v where
  here := fun _ => hh
  clear := fun _ => hv
  parts := fun _ hd c hc => by
    have h := hv hd
    have hc' := h.acyclic.unfold_eq ▸ hc
    exact ⟨h.acyclic.child hc', (Value.depth_lt_of_child hc').le.trans h.depth,
      fun i hi => (h.identities i hi).child hc⟩

theorem other (h : Ready d n visit s v) (hs : s.isStructure = false) (t : Schema) : Ready d n visit t v :=
  of_clear (h.here hs) (h.clear hs) t

theorem part (h : Ready d n visit s v) (hs : s.isStructure = true) {c : Value} (hc : c ∈ v.unfold.children)
    (t : Schema) : Ready d n visit.renewed t c :=
  of_clear (show visit.renewed.here = [] from rfl) (fun hd => h.parts hs hd c hc) t

theorem rebuilt (h : Ready d n visit s v) (hs : s.isStructure = false) {whole : Prop} {w : Value}
    (hr : v.Rebuilt whole w) (t : Schema) : Ready d n visit t w :=
  of_clear (h.here hs) (fun hd => hr.clear (h.clear hs hd)) t

end Ready

end Visit

/-- The check accepts members of the schema only, which it puts out rebuilt, and accepts them all unless it
passes outputs on and an index marker is among the keys. -/
def Check.Agrees (env : Env) (exact : Bool) (d : Dialect) (n : Nat) (s : Schema) (c : Check) : Prop :=
  ∀ visit v, visit.Ready d n s v →
    ((c.outcome visit v).isOk = true →
      s.Member env exact v ∧ v.Rebuilt d.lazy (c.outcome visit v).output) ∧
    (s.Member env exact v → (d.lazy → v.MarkerFree) → (c.outcome visit v).isOk = true)

namespace Check.Agrees

variable {env : Env} {exact : Bool} {d : Dialect} {n : Nat}

theorem constrained {s : Schema} {c : Check} (ht : c.Total) (h : c.Agrees env exact d n s)
    {cs : List Constraint} (hcs : ∀ c ∈ cs, c.Plain) (hooks : Hooks) :
    (Check.constrained hooks c cs).Agrees env exact d n (.constrained s cs) := by
  intro visit v hready
  obtain ⟨o, ho, hout, hok⟩ := constrained_spec ht hcs hooks visit v
  obtain ⟨hsound, hcomplete⟩ := h visit v (hready.other rfl s)
  rw [outcome_of_ok ho, hok, hout]
  constructor
  · rintro ⟨hbase, hall⟩
    obtain ⟨hmem, hr⟩ := hsound hbase
    exact ⟨.constrained hmem fun c hc => (hr.accepts (hcs c hc)).mp (hall c hc), hr⟩
  · rintro hmem hm
    obtain ⟨hmem, hall⟩ := Schema.member_constrained.mp hmem
    have hbase := hcomplete hmem hm
    exact ⟨hbase, fun c hc => ((hsound hbase).2.accepts (hcs c hc)).mpr (hall c hc)⟩

theorem union {bs : List Schema} {check : Schema → Check} (ht : ∀ s ∈ bs, (check s).Total)
    (h : ∀ s ∈ bs, (check s).Agrees env exact d n s)
    (hd : ∀ s ∈ bs, ∃ ds, env.domains? s = .ok ds) :
    (Check.union env.domains? (bs.map fun s => (s, check s))).Agrees env exact d n (.union bs) := by
  intro visit v hready
  have htotal : ∀ b ∈ bs.map fun s => (s, check s), b.2.Total := by simpa using ht
  have hdomains : ∀ b ∈ bs.map fun s => (s, check s), ∃ ds, env.domains? b.1 = .ok ds := by simpa using hd
  obtain ⟨o, ho, hcases⟩ := union_spec htotal hdomains visit v
  rw [outcome_of_ok ho]
  constructor
  · intro hok
    rcases hcases with ⟨b, hb, hbok, rfl⟩ | ⟨-, hno⟩
    · obtain ⟨s, hs, rfl⟩ := List.mem_map.mp hb
      obtain ⟨hmem, hr⟩ := (h s hs visit v (hready.other rfl s)).1 hbok
      exact ⟨.union hs hmem, hr⟩
    · simp [hok] at hno
  · intro hmem hm
    obtain ⟨s, hs, hmem⟩ := Schema.member_union.mp hmem
    have hok := (h s hs visit v (hready.other rfl s)).2 hmem hm
    rcases hcases with ⟨b, hb, hbok, rfl⟩ | ⟨hno, -⟩
    · exact hbok
    · have := hno (s, check s) (List.mem_map_of_mem hs)
      simp [hok] at this

/-- Each member checks the output of the one before, which belongs to the same schemas as the value. -/
theorem conjunction {ms : List Schema} {check : Schema → Check} (hg : env.Grounded d) (hl : d.lazy)
    (he : exact = true) (hfit : ∀ s ∈ ms, s.Every (Schema.Fits d)) (ht : ∀ s ∈ ms, (check s).Total)
    (h : ∀ s ∈ ms, (check s).Agrees env exact d n s) :
    (Check.conjunction (ms.map check)).Agrees env exact d n (.intersection ms) := by
  subst he
  induction ms with
  | nil =>
    intro visit v _
    exact ⟨fun _ => ⟨.intersection (by simp), .same v⟩, fun _ _ => rfl⟩
  | cons s ms ih =>
    intro visit v hready
    have ih := ih (fun t ht => hfit t (List.mem_cons_of_mem _ ht))
      (fun t hmem => ht t (List.mem_cons_of_mem _ hmem)) fun t ht => h t (List.mem_cons_of_mem _ ht)
    have htotal : (Check.conjunction (ms.map check)).Total := conjunction_total fun c hc => by
      obtain ⟨t, hmem, rfl⟩ := List.mem_map.mp hc
      exact ht t (List.mem_cons_of_mem _ hmem)
    obtain ⟨inner, o, hinner, ho, hout, hok⟩ := conjunction_cons (ht s (by simp)) htotal visit v
    obtain rfl : inner = visit := by
      rcases hinner with rfl | rfl
      · rfl
      · cases visit
        have hh := hready.here rfl
        simp only at hh
        subst hh
        rfl
    obtain ⟨hsound, hcomplete⟩ := h s (by simp) inner v (hready.other rfl s)
    rw [List.map_cons, outcome_of_ok ho, hok, hout]
    constructor
    · rintro ⟨hfirst, hrest⟩
      obtain ⟨hmem, hr⟩ := hsound hfirst
      obtain ⟨hmems, hr'⟩ := (ih inner _ (hready.rebuilt rfl hr _)).1 hrest
      refine ⟨.intersection fun t hmem' => ?_, hr.trans hr'⟩
      rcases List.mem_cons.mp hmem' with rfl | hmem'
      · exact hmem
      · exact .of_rebuilt hg hl (hfit t (List.mem_cons_of_mem _ hmem')) hr
          (Schema.member_intersection.mp hmems t hmem')
    · intro hmem hm
      rw [Schema.member_intersection, List.forall_mem_cons] at hmem
      have hfirst := hcomplete hmem.1 hm
      have hr := (hsound hfirst).2
      refine ⟨hfirst, (ih inner _ (hready.rebuilt rfl hr _)).2 (.intersection fun t hmem' => ?_)
        fun hl => hr.markerFree (hm hl)⟩
      exact Schema.Member.rebuilt hg hl (hfit t (List.mem_cons_of_mem _ hmem')) hr (hm hl) (hmem.2 t hmem')

end Check.Agrees

namespace Check

theorem mem_declaredPairs {exact : Bool} {visit : Visit} {es : List Entry} {ps : List (Property Check)}
    {t : Value.Pair} : t ∈ declaredPairs exact visit es ps ↔
      ∃ p ∈ ps, ∃ e, Entry.given? exact es p.key p.presence = some e ∧
        t = (p.key, (p.value.outcome visit.renewed e.item).output) := by
  simp only [declaredPairs, List.mem_filterMap, Option.map_eq_some_iff, eq_comm (a := t)]

theorem mem_undeclaredPairs {shape : ObjectShape Check} {es : List Entry} {t : Value.Pair} :
    t ∈ undeclaredPairs shape es ↔
      shape.undeclared = .ignore ∧ ∃ e ∈ es, shape.declares e.key = false ∧ t = (e.key, e.item) := by
  unfold undeclaredPairs
  split_ifs with h
  · simp [h, and_assoc, eq_comm (a := t)]
  · simp [h]

theorem declaredPairs_keys (exact : Bool) (visit : Visit) (es : List Entry) (ps : List (Property Check)) :
    (declaredPairs exact visit es ps).map (·.1) =
      (ps.filter fun p => (Entry.given? exact es p.key p.presence).isSome).map (·.key) := by
  induction ps with
  | nil => rfl
  | cons p ps ih =>
    simp only [declaredPairs] at ih ⊢
    cases h : Entry.given? exact es p.key p.presence <;> simp [h, ih]

/-- No key is put out twice. -/
theorem pairs_nodup {shape : ObjectShape Check} (hkeys : shape.keys.Nodup) {es : List Entry}
    (hes : (Entry.keys es).Nodup) (exact : Bool) (visit : Visit) :
    ((declaredPairs exact visit es shape.properties ++ undeclaredPairs shape es).map (·.1)).Nodup := by
  rw [List.map_append]
  refine List.Nodup.append ?_ ?_ ?_
  · rw [declaredPairs_keys]
    exact hkeys.sublist (List.filter_sublist.map _)
  · unfold undeclaredPairs
    split_ifs
    · rw [List.map_map]
      exact hes.sublist (List.filter_sublist.map _)
    · simp
  · rw [List.disjoint_left]
    intro k hk hk'
    obtain ⟨t, ht, rfl⟩ := List.mem_map.mp hk
    obtain ⟨t', ht', heq⟩ := List.mem_map.mp hk'
    obtain ⟨p, hp, e, -, rfl⟩ := mem_declaredPairs.mp ht
    obtain ⟨-, e', -, hdecl, rfl⟩ := mem_undeclaredPairs.mp ht'
    simp only [ObjectShape.declares, List.any_eq_false, beq_iff_eq] at hdecl
    exact hdecl p hp heq.symm

section Pairs

variable {shape : ObjectShape Check} {es : List Entry} {exact : Bool} {lossless : Prop} {visit : Visit} {t : Value.Pair}

/-- Every pair is made from an entry, and rebuilds its item if the checks of declared properties do. -/
theorem pairs_rebuilt (hes : (Entry.keys es).Nodup) (hdeclared : ∀ p ∈ shape.properties, ∀ e,
      Entry.given? exact es p.key p.presence = some e →
      e.item.Rebuilt lossless (p.value.outcome visit.renewed e.item).output)
    (ht : t ∈ declaredPairs exact visit es shape.properties ++ undeclaredPairs shape es) :
    ∃ e ∈ es, e.key = t.1 ∧ e.item.Rebuilt lossless t.2 := by
  rcases List.mem_append.mp ht with ht | ht
  · obtain ⟨p, hp, e, hgiven, rfl⟩ := mem_declaredPairs.mp ht
    obtain ⟨hmem, hk⟩ := (Entry.find?_eq_some hes).mp (Entry.given?_find hgiven)
    exact ⟨e, hmem, hk, hdeclared p hp e hgiven⟩
  · obtain ⟨-, e, hmem, -, rfl⟩ := mem_undeclaredPairs.mp ht
    exact ⟨e, hmem, rfl, .same _⟩

/-- No key is lost where absent values are told from missing ones and nothing is deleted. -/
theorem pairs_cover (hes : (Entry.keys es).Nodup) (hpolicy : shape.undeclared ≠ .delete)
    (hreject : shape.undeclared = .reject → ∀ e ∈ es, shape.declares e.key = true) {e : Entry} (he : e ∈ es) :
    e.key ∈ (declaredPairs true visit es shape.properties ++ undeclaredPairs shape es).map (·.1) := by
  rw [List.map_append, List.mem_append]
  cases hdecl : shape.declares e.key with
  | true =>
    obtain ⟨p, hp, hk⟩ := List.any_eq_true.mp hdecl
    have hk : p.key = e.key := by simpa using hk
    refine Or.inl (List.mem_map.mpr ⟨_, mem_declaredPairs.mpr ⟨p, hp, e, ?_, rfl⟩, hk⟩)
    rw [Entry.given?_exact, hk]
    exact (Entry.find?_eq_some hes).mpr ⟨he, rfl⟩
  | false =>
    have hignore : shape.undeclared = .ignore := by
      cases hpol : shape.undeclared with
      | ignore => rfl
      | delete => exact absurd hpol hpolicy
      | reject => simp [hreject hpol e he] at hdecl
    exact Or.inr (List.mem_map.mpr ⟨_, mem_undeclaredPairs.mpr ⟨hignore, e, he, hdecl, rfl⟩, rfl⟩)

end Pairs

end Check

theorem Entry.exists_source {es : List Entry} (hes : (Entry.keys es).Nodup) :
    ∃ source : Key → Value, ∀ e ∈ es, e.item = source e.key :=
  ⟨fun k => ((Entry.find? es k).map (·.item)).getD .null,
    fun e he => by simp [(Entry.find?_eq_some hes).mpr ⟨he, rfl⟩]⟩

namespace Check.Agrees

variable {env : Env} {config : Config} {d : Dialect} {n : Nat}

open Schema (objectParts objectParts_declares)

theorem object {o : ObjectShape Schema} {check : Schema → Check} (hfit : (Schema.object o).Fits d)
    (he : d.lazy → config.exactOptional = true) (ht : ∀ p ∈ o.properties, (check p.value).Total)
    (h : ∀ p ∈ o.properties, (check p.value).Agrees env config.exactOptional d n p.value) (hooks : Hooks) :
    (Check.object config hooks (objectParts check o)).Agrees env config.exactOptional d n (.object o) := by
  intro visit v hready
  obtain ⟨-, hkeys, hdefault, hpolicy⟩ := hfit
  have hkeys' : (objectParts check o).keys.Nodup := by
    simpa [ObjectShape.keys, objectParts, Function.comp_def] using hkeys
  have htotal : ∀ p ∈ (objectParts check o).properties, p.value.Total := by simpa [objectParts] using ht
  have hdefault' : ∀ p ∈ (objectParts check o).properties, p.presence.default? = none := by
    simpa [objectParts] using hdefault
  obtain ⟨out, hout, hok, houtput⟩ := object_spec htotal hdefault' rfl config hooks visit v
  rw [outcome_of_ok hout, hok]
  have hpart : ∀ {es : List Entry}, v.fields? = some es → ∀ p ∈ o.properties, ∀ e,
      Entry.given? config.exactOptional es p.key p.presence = some e →
      visit.renewed.Ready d n p.value e.item := by
    intro es hf p hp e hgiven
    have hmem := ((Entry.find?_eq_some (Value.nodup_of_fields hf)).mp (Entry.given?_find hgiven)).1
    exact hready.part rfl (Value.item_mem_children hf hmem) p.value
  constructor
  · rintro ⟨es, hf, hsat, hreject⟩
    have hsat : ∀ p ∈ o.properties,
        Satisfied config.exactOptional visit es ⟨p.key, check p.value, p.presence⟩ :=
      fun p hp => hsat _ (List.mem_map_of_mem hp)
    have hreject : o.undeclared = .reject → ∀ e ∈ es, o.declares e.key = true :=
      fun hpol e he => objectParts_declares.symm.trans (hreject hpol e he)
    refine ⟨(Schema.member_object hf).mpr ⟨fun p hp => ⟨fun e hgiven => ?_, (hsat p hp).2⟩, hreject⟩, ?_⟩
    · exact ((h p hp visit.renewed e.item (hpart hf p hp e hgiven)).1 ((hsat p hp).1 e hgiven)).1
    · have hnodup := Value.nodup_of_fields hf
      obtain ⟨source, hsource⟩ := Entry.exists_source hnodup
      have hrebuilt : ∀ t ∈ Check.declaredPairs config.exactOptional visit es (objectParts check o).properties ++
          Check.undeclaredPairs (objectParts check o) es,
          ∃ e ∈ es, e.key = t.1 ∧ e.item.Rebuilt d.lazy t.2 := by
        refine fun t => pairs_rebuilt hnodup fun p' hp' e hgiven => ?_
        obtain ⟨p, hp, rfl⟩ := List.mem_map.mp hp'
        exact ((h p hp visit.renewed e.item (hpart hf p hp e hgiven)).1 ((hsat p hp).1 e hgiven)).2
      rw [houtput es hf]
      refine .mapping hf (pairs_nodup hkeys' hnodup _ visit)
        (fun t ht => (?_ : ∃ e ∈ es, e.key = t.1 ∧ e.item = source t.1)) (fun hl e hmem => ?_) fun t ht => ?_
      · obtain ⟨e, hmem, hk, -⟩ := hrebuilt t ht
        exact ⟨e, hmem, hk, hk ▸ hsource e hmem⟩
      · rw [he hl]
        exact pairs_cover hnodup (hpolicy hl)
          (fun hpol e hmem => objectParts_declares.trans (hreject hpol e hmem)) hmem
      · obtain ⟨e, hmem, hk, hr⟩ := hrebuilt t ht
        rwa [hsource e hmem, hk] at hr
  · intro hmem hm
    obtain ⟨es, hf⟩ := Schema.fields_of_member hmem
    obtain ⟨hprops, hreject⟩ := (Schema.member_object hf).mp hmem
    refine ⟨es, hf, fun p' hp' => ?_, fun hpol e he => objectParts_declares.trans (hreject hpol e he)⟩
    obtain ⟨p, hp, rfl⟩ := List.mem_map.mp hp'
    refine ⟨fun e hgiven => ?_, (hprops p hp).2⟩
    have hin := ((Entry.find?_eq_some (Value.nodup_of_fields hf)).mp (Entry.given?_find hgiven)).1
    exact (h p hp visit.renewed e.item (hpart hf p hp e hgiven)).2 ((hprops p hp).1 e hgiven) fun hl =>
      (hm hl).child (Value.item_mem_children hf hin)

theorem tuple {es : List (Element Schema)} {check : Schema → Check} (hfit : (Schema.tuple es).Fits d)
    (ht : ∀ e ∈ es, (check e.value).Total)
    (h : ∀ e ∈ es, (check e.value).Agrees env config.exactOptional d n e.value) (hooks : Hooks)
    (shape : List (Element Schema)) :
    (Check.tuple config hooks shape (es.map fun e => ⟨e.role, check e.value⟩)).Agrees env
      config.exactOptional d n (.tuple es) := by
  intro visit v hready
  obtain ⟨hshape, hdefault⟩ := hfit
  have htotal : ∀ e ∈ es.map fun e => (⟨e.role, check e.value⟩ : Element Check), e.value.Total := by
    simpa using ht
  have hdefault' : ∀ e ∈ es.map fun e => (⟨e.role, check e.value⟩ : Element Check), e.role.default? = none := by
    simpa using hdefault
  obtain ⟨out, hout, hok, houtput⟩ := tuple_spec htotal hdefault' config hooks shape visit v
  have hlike : List.Forall₂ (Element.Like fun s c => c = check s) es
      (es.map fun e => (⟨e.role, check e.value⟩ : Element Check)) := forall₂_self_map fun e _ => ⟨rfl, rfl⟩
  have hplaces : ∀ items : List Value, List.Forall₂ (fun p q => q.1 = check p.1 ∧ p.2 = q.2)
      (Element.places es items)
      (Element.places (es.map fun e => (⟨e.role, check e.value⟩ : Element Check)) items) :=
    fun items => Element.places_like hlike (List.forall₂_same.mpr fun _ _ => rfl)
  rw [outcome_of_ok hout]
  constructor
  · intro hyes
    obtain ⟨q, items, hi, hadm, hall⟩ := hok.mp hyes
    have hadm' : Element.Admits es items.length := (Element.admits_like hlike).mpr hadm
    have hpart : ∀ t ∈ Element.places es items, Schema.Member env config.exactOptional t.1 t.2 ∧
        t.2.Rebuilt d.lazy ((check t.1).outcome visit.renewed t.2).output := by
      intro t htmem
      obtain ⟨t', ht', hc, hx⟩ := forall₂_exists_left (hplaces items) htmem
      obtain ⟨⟨e, hmem, hval⟩, hitem⟩ := Element.mem_places htmem
      have hok' := hall t' ht'
      rw [hc, ← hx] at hok'
      rw [← hval] at hok' ⊢
      exact (h e hmem visit.renewed t.2
        (hready.part rfl (Value.children_of_items hi ▸ hitem) e.value)).1 hok'
    refine ⟨(Schema.member_tuple hi).mpr ⟨hadm', fun t htmem => (hpart t htmem).1⟩, ?_⟩
    rw [houtput hyes q items hi]
    have houts : (Element.places (es.map fun e => (⟨e.role, check e.value⟩ : Element Check)) items).map
          (fun t => (t.1.outcome visit.renewed t.2).output) =
        (Element.places es items).map fun t => ((check t.1).outcome visit.renewed t.2).output := by
      refine List.forall₂_eq_eq_eq ▸ ?_
      rw [List.forall₂_map_left_iff, List.forall₂_map_right_iff]
      exact (hplaces items).flip.imp fun a b hab => by rw [hab.1, hab.2]
    have hitems := Element.places_items (Element.settled_of_shape hshape) hadm'
    rw [houts]
    have hrel : List.Forall₂ (Value.Rebuilt d.lazy) ((Element.places es items).map (·.2))
        ((Element.places es items).map fun t => ((check t.1).outcome visit.renewed t.2).output) := by
      rw [List.forall₂_map_left_iff, List.forall₂_map_right_iff]
      exact List.forall₂_same.mpr fun t htmem => (hpart t htmem).2
    rw [hitems, List.forall₂_iff_zip] at hrel
    exact .sequence hi hrel.1 fun p hp => hrel.2 hp
  · intro hmem hm
    obtain ⟨q, items, hi⟩ := Schema.items_of_member hmem
    obtain ⟨hadm, hall⟩ := (Schema.member_tuple hi).mp hmem
    refine hok.mpr ⟨q, items, hi, (Element.admits_like hlike).mp hadm, fun t' ht' => ?_⟩
    obtain ⟨t, htmem, hc, hx⟩ := forall₂_exists_right (hplaces items) ht'
    obtain ⟨⟨e, hmem', hval⟩, hitem⟩ := Element.mem_places htmem
    have hchild : t.2 ∈ v.unfold.children := Value.children_of_items hi ▸ hitem
    rw [hc, ← hx, ← hval]
    exact (h e hmem' visit.renewed t.2 (hready.part rfl hchild e.value)).2 (hval ▸ hall t htmem) fun hl =>
      (hm hl).child hchild

end Check.Agrees

namespace Schema

variable {env : Env} {config : Config} {d : Dialect} {n : Nat} {follow : Ref → Check}

/-- Checks of references that agree make the checks of all schemas agree. -/
theorem checkWith_agrees (hg : env.Grounded d) (he : d.lazy → config.exactOptional = true)
    (ht : ∀ r, d.named r → (follow r).Total)
    (hf : ∀ r, d.named r → (follow r).Agrees env config.exactOptional d n (.ref r))
    (s : Schema) (hs : s.Every (Fits d)) :
    (s.checkWith env config follow).Agrees env config.exactOptional d n s := by
  induction s using induction_on_parts with
  | _ s ih =>
    have ih : ∀ t ∈ s.parts, (t.checkWith env config follow).Agrees env config.exactOptional d n t :=
      fun t htmem => ih t htmem (hs.part htmem)
    have total : ∀ t ∈ s.parts, (t.checkWith env config follow).Total :=
      fun t htmem => checkWith_total hg ht t (hs.part htmem)
    cases s with
    | keyword k =>
      intro visit v _
      have hout : (Check.keyword k).outcome visit v = ⟨v, false, Failure.ofVerdict k.name (k.check v)⟩ := rfl
      rw [checkWith, hout, Check.keyword_isOk]
      exact ⟨fun h => ⟨.keyword h, .same v⟩, fun h _ => member_keyword.mp h⟩
    | literal w =>
      intro visit v _
      rw [checkWith, member_literal]
      simp only [Check.outcome, Check.literal]
      split_ifs with h
      · exact ⟨fun _ => ⟨h, .same v⟩, fun _ _ => rfl⟩
      · exact ⟨fun hno => by simp [Outcome.isOk, Outcome.fail] at hno, fun hmem _ => absurd hmem h⟩
    | constrained s cs => exact (ih s (by simp [parts])).constrained (total s (by simp [parts])) hs.root _
    | union bs =>
      rw [checkWith, branchChecks_eq]
      refine Check.Agrees.union total ih fun s hmem => ?_
      obtain ⟨ds, hds, -⟩ := env.domains?_spec hg true (hs.branch hmem)
      exact ⟨ds, hds⟩
    | intersection ms =>
      rw [checkWith, memberChecks_eq]
      exact Check.Agrees.conjunction hg hs.root (he hs.root) (fun s hmem => hs.member hmem) total ih
    | ref r => exact hf r hs.root
    | object o =>
      rw [checkWith_object hs.root.1]
      exact Check.Agrees.object hs.root he
        (fun p hp => total _ (List.mem_append_left _ (List.mem_map_of_mem hp)))
        (fun p hp => ih _ (List.mem_append_left _ (List.mem_map_of_mem hp))) env.hooks
    | tuple es =>
      rw [checkWith, elementChecks_eq]
      exact Check.Agrees.tuple hs.root (fun e hmem => total _ (List.mem_map_of_mem hmem))
        (fun e hmem => ih _ (List.mem_map_of_mem hmem)) env.hooks es

end Schema
end Schemata
