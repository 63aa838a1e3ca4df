import Schemata.Proofs.Runs
import Schemata.Proofs.Validation.Agreement

/-! What acceptance says of a value, one rule for every form of schema. Nothing is asked of the parts: a check
that stops with an error accepts nothing. -/
namespace Schemata

/-- The constraint answers on the value, and accepts it. -/
def Constraint.Passes (hooks : Hooks) (c : Constraint) (v : Value) : Prop :=
  Succeeds (c.check hooks v) fun d => d.isValid = true

namespace Check

/-- The check accepts a value that stands on its own. -/
def Takes (c : Check) (v : Value) : Prop := Succeeds (c .root v) fun o => o.isOk = true

theorem accepts_eq_true {c : Check} {v : Value} : c.accepts .root v = .ok true ↔ c.Takes v := by
  unfold Takes accepts
  cases c .root v <;> simp [Except.map]

/-- A part of a value is checked as a value on its own. -/
theorem inside_clean {c : Check} {s : Segment} {v : Value} :
    Succeeds (c.inside s .root v) (fun o => o.failures = []) ↔ c.Takes v := by
  show Succeeds ((c .root v).map (Outcome.within s)) _ ↔ _
  rw [Succeeds.map]
  simp only [← Outcome.isOk_iff, Outcome.isOk_within]
  rfl

theorem constraintFailures_clean {hooks : Hooks} {v : Value} {cs : List Constraint} :
    Succeeds (constraintFailures hooks v cs) (· = []) ↔ ∀ c ∈ cs, c.Passes hooks v := by
  induction cs with
  | nil => simp [constraintFailures]
  | cons c cs ih =>
    rw [constraintFailures, List.forall_mem_cons, ← ih, Succeeds.bind, Succeeds.mapError]
    simp only [Succeeds.bind, Succeeds.pure, List.append_eq_nil_iff, Failure.ofVerdict_eq_nil]
    exact Succeeds.both

/-- Constraints pass on what the base puts out. -/
theorem constrained_takes {hooks : Hooks} {base : Check} {cs : List Constraint} {v : Value} :
    (constrained hooks base cs).Takes v ↔
      Succeeds (base .root v) fun o => o.isOk = true ∧ ∀ c ∈ cs, c.Passes hooks o.output := by
  unfold Takes constrained
  rw [Succeeds.bind]
  refine exists_congr fun o => and_congr_right fun _ => ?_
  dsimp only
  cases hok : o.isOk with
  | false => simp [hok]
  | true =>
    rw [if_pos rfl, Succeeds.bind, ← constraintFailures_clean]
    simp [Outcome.isOk]

/-! What a run that accepts went through. -/
section Accepting

variable {config : Config} {hooks : Hooks} {visit : Visit} {v : Value} {o : Outcome}

theorem literal_ok {w : Value} (h : literal w visit v = .ok o) (hok : o.isOk = true) :
    o = .pass v ∧ v.domain = w.domain ∧ w.literalEqual v = true := by
  unfold literal at h
  split_ifs at h with hequal <;> obtain rfl := Except.ok.inj h
  · exact ⟨rfl, hequal⟩
  · simp [Outcome.isOk, Outcome.fail] at hok

theorem constrained_ok {base : Check} {cs : List Constraint} (h : constrained hooks base cs visit v = .ok o)
    (hok : o.isOk = true) : base visit v = .ok o ∧ constraintFailures hooks o.output cs = .ok [] := by
  obtain ⟨p, hp, h⟩ := bind_ok h
  cases hpok : p.isOk with
  | false =>
    rw [hpok] at h
    obtain rfl := Except.ok.inj h
    simp [hpok] at hok
  | true =>
    rw [hpok] at h
    obtain ⟨fs, hfs, h⟩ := bind_ok h
    obtain rfl := Except.ok.inj h
    obtain rfl : fs = [] := Outcome.isOk_iff.mp hok
    have hclean : p.failures = [] := Outcome.isOk_iff.mp hpok
    refine ⟨?_, hfs⟩
    rw [hp, ← hclean]

theorem object_ok {shape : ObjectShape Check} (h : object config hooks shape visit v = .ok o) (hok : o.isOk = true) :
    ∃ raw declared rest, v.entries? = some raw ∧ (Entry.collect [] raw).2 = [] ∧
      properties config hooks visit (Entry.collect [] raw).1 shape.properties = .ok declared ∧
      undeclaredAll shape visit (Entry.collect [] raw).1 = .ok rest ∧ declared.failures = [] ∧ rest.failures = [] ∧
      o = ⟨.mapping (declared.append rest).entries, true,
        (Entry.collect [] raw).2 ++ (declared.append rest).failures⟩ := by
  unfold object at h
  cases hraw : v.entries? with
  | none =>
    rw [hraw] at h
    obtain rfl := Except.ok.inj h
    simp [Outcome.isOk, Outcome.fail] at hok
  | some raw =>
    rw [hraw] at h
    obtain ⟨declared, rest, hdeclared, hrest, rfl⟩ := combine_ok h
    obtain ⟨hkeys, hall⟩ := List.append_eq_nil_iff.mp (Outcome.isOk_iff.mp hok)
    obtain ⟨hfirst, hsecond⟩ := List.append_eq_nil_iff.mp hall
    exact ⟨raw, declared, rest, rfl, hkeys, hdeclared, hrest, hfirst, hsecond, rfl⟩

theorem tuple_ok {shape : List (Element Schema)} {es : List (Element Check)}
    (h : tuple config hooks shape es visit v = .ok o) (hok : o.isOk = true) :
    ∃ q items os, v.items? = some (q, items) ∧ lengthFits es items.length = true ∧
      elements config hooks es visit items = .ok os ∧ Outcome.allFailures os = [] ∧
      o = ⟨q.make (Outcome.outputs os), !(q == .tuple && os.isEmpty), Outcome.allFailures os⟩ := by
  unfold tuple at h
  cases hi : v.items? with
  | none =>
    rw [hi] at h
    obtain rfl := Except.ok.inj h
    simp [Outcome.isOk, Outcome.fail] at hok
  | some pair =>
    obtain ⟨q, items⟩ := pair
    rw [hi] at h
    dsimp only at h
    split_ifs at h with hfit
    · obtain ⟨os, hos, h⟩ := bind_ok h
      obtain rfl := Except.ok.inj h
      exact ⟨q, items, os, rfl, hfit, hos, Outcome.isOk_iff.mp hok, rfl⟩
    · obtain rfl := Except.ok.inj h
      simp [Outcome.isOk, Outcome.fail] at hok

end Accepting

section Union

variable {visit : Visit} {v : Value} {branches : List (Schema × Check)}

theorem firstAccepting_cases {r : Outcome ⊕ List (Schema × List Failure)}
    (h : firstAccepting visit v branches = .ok r) :
    (∃ o, r = .inl o ∧ o.isOk = true ∧ ∃ b ∈ branches, b.2 visit v = .ok o) ∨
      ∃ attempts, r = .inr attempts ∧ ∀ a ∈ attempts, a.2 ≠ [] := by
  induction branches generalizing r with
  | nil =>
    obtain rfl := Except.ok.inj h
    exact Or.inr ⟨[], rfl, by simp⟩
  | cons b branches ih =>
    obtain ⟨s, c⟩ := b
    unfold firstAccepting at h
    obtain ⟨o, ho, h⟩ := bind_ok h
    cases hok : o.isOk with
    | true =>
      rw [hok] at h
      obtain rfl := Except.ok.inj h
      exact Or.inl ⟨o, rfl, hok, (s, c), by simp, ho⟩
    | false =>
      rw [hok] at h
      obtain ⟨rest, hrest, h⟩ := bind_ok h
      rcases ih hrest with ⟨o', rfl, hok', b, hb, hrun⟩ | ⟨attempts, rfl, hno⟩
      · obtain rfl := Except.ok.inj h
        exact Or.inl ⟨o', rfl, hok', b, List.mem_cons_of_mem _ hb, hrun⟩
      · obtain rfl := Except.ok.inj h
        refine Or.inr ⟨_, rfl, List.forall_mem_cons.mpr ⟨fun hnil => ?_, hno⟩⟩
        rw [Outcome.isOk_iff.mpr hnil] at hok
        simp at hok

theorem matching_subset {domains : Schema → Except Fault (Option DomainSet)} {d : Domain}
    {attempts : List (Schema × List Failure)} {fss : List (List Failure)}
    (h : matching domains d attempts = .ok fss) : ∀ fs ∈ fss, ∃ a ∈ attempts, a.2 = fs := by
  induction attempts generalizing fss with
  | nil =>
    obtain rfl := Except.ok.inj h
    simp
  | cons a attempts ih =>
    obtain ⟨s, fs⟩ := a
    unfold matching at h
    obtain ⟨ds, -, h⟩ := bind_ok h
    obtain ⟨others, hothers, h⟩ := bind_ok h
    intro gs hgs
    have hgs : gs = fs ∨ gs ∈ others := by
      rw [← Except.ok.inj h] at hgs
      split_ifs at hgs
      · exact List.mem_cons.mp hgs
      · exact Or.inr hgs
    rcases hgs with rfl | hgs
    · exact ⟨(s, gs), by simp, rfl⟩
    · obtain ⟨a, ha, rfl⟩ := ih hothers gs hgs
      exact ⟨a, List.mem_cons_of_mem _ ha, rfl⟩

/-- What a union puts out of an accepted value is what an accepting branch puts out. -/
theorem union_ok {domains : Schema → Except Fault (Option DomainSet)} {o : Outcome}
    (h : union domains branches visit v = .ok o) (hok : o.isOk = true) : ∃ b ∈ branches, b.2 visit v = .ok o := by
  unfold union at h
  obtain ⟨r, hr, h⟩ := bind_ok h
  rcases firstAccepting_cases hr with ⟨o', rfl, -, b, hb, hrun⟩ | ⟨attempts, rfl, hno⟩
  · obtain rfl := Except.ok.inj h
    exact ⟨b, hb, hrun⟩
  · obtain ⟨fss, hfss, h⟩ := bind_ok h
    dsimp only at h
    split at h
    · rename_i fs
      obtain ⟨a, ha, rfl⟩ := matching_subset hfss fs (by simp)
      rw [← Except.ok.inj h, Outcome.isOk_iff] at hok
      exact absurd hok (hno a ha)
    · rw [← Except.ok.inj h] at hok
      simp [Outcome.isOk, Outcome.fail] at hok

theorem firstAccepting_refuses {attempts : List (Schema × List Failure)}
    (h : firstAccepting visit v branches = .ok (.inr attempts)) :
    ∀ b ∈ branches, Succeeds (b.2 visit v) fun o => o.isOk = false := by
  induction branches generalizing attempts with
  | nil => simp
  | cons b branches ih =>
    unfold firstAccepting at h
    obtain ⟨o, ho, h⟩ := bind_ok h
    cases hok : o.isOk with
    | true =>
      rw [hok] at h
      cases Except.ok.inj h
    | false =>
      rw [hok] at h
      obtain ⟨rest, hrest, h⟩ := bind_ok h
      cases rest with
      | inl accepted => cases Except.ok.inj h
      | inr attempts => exact List.forall_mem_cons.mpr ⟨⟨o, ho, hok⟩, ih hrest⟩

/-- A union puts a refused value out as it is, and all its branches refuse it. -/
theorem union_refuses {domains : Schema → Except Fault (Option DomainSet)} {o : Outcome}
    (h : union domains branches visit v = .ok o) (hok : o.isOk = false) :
    o.output = v ∧ o.rebuilt = false ∧ ∀ b ∈ branches, Succeeds (b.2 visit v) fun p => p.isOk = false := by
  unfold union at h
  obtain ⟨r, hr, h⟩ := bind_ok h
  rcases firstAccepting_cases hr with ⟨o', rfl, hok', -⟩ | ⟨attempts, rfl, -⟩
  · obtain rfl := Except.ok.inj h
    simp [hok] at hok'
  · obtain ⟨fss, -, h⟩ := bind_ok h
    dsimp only at h
    refine ⟨?_, ?_, firstAccepting_refuses hr⟩ <;> split at h <;> rw [← Except.ok.inj h] <;> rfl

end Union

section Objects

variable {config : Config} {hooks : Hooks} {es : List Entry}

/-- A property is in order: its given item is accepted, and an absent one may be absent or has a default that
passes where defaults are checked. -/
def Given (config : Config) (hooks : Hooks) (es : List Entry) (p : Property Check) : Prop :=
  match given? config es p with
  | some e => p.value.Takes e.item
  | none =>
    match p.presence with
    | .required => False
    | .optional => True
    | .defaultable d => Succeeds (d.produce hooks 1) fun v => config.defensiveDefaults = true → p.value.Takes v

/-- An entry that no property declares is in order: the index signature takes its key and its item, or does not
take its key and the policy lets it be. -/
def Extra (shape : ObjectShape Check) (e : Entry) : Prop :=
  match shape.index with
  | none => shape.undeclared ≠ .reject
  | some i => Succeeds (i.key.accepts .root e.key.toValue) fun taken =>
      if taken then i.value.Takes e.item else shape.undeclared ≠ .reject

theorem property_clean {p : Property Check} :
    Succeeds (property config hooks .root es p) (fun r => r.failures = []) ↔ Given config hooks es p := by
  unfold property Given
  cases given? config es p with
  | some e => exact Succeeds.map.trans inside_clean
  | none =>
    cases p.presence with
    | required => simp [Rebuilt.failure]
    | optional => simp [Rebuilt.empty]
    | defaultable d =>
      unfold default
      refine Succeeds.map.trans (Succeeds.bind.trans (exists_congr fun v => and_congr_right fun _ => ?_))
      cases config.defensiveDefaults with
      | false => simp [Rebuilt.item, Outcome.pass]
      | true =>
        simp only [if_true, forall_const]
        exact inside_clean

theorem properties_clean {ps : List (Property Check)} :
    Succeeds (properties config hooks .root es ps) (fun r => r.failures = []) ↔
      ∀ p ∈ ps, Given config hooks es p := by
  induction ps with
  | nil => simp [properties, Rebuilt.empty]
  | cons p ps ih =>
    rw [List.forall_mem_cons, ← ih, ← property_clean, properties, Succeeds.bind]
    simp only [Succeeds.bind, Succeeds.pure, Rebuilt.append, List.append_eq_nil_iff]
    exact Succeeds.both

theorem undeclared_clean {shape : ObjectShape Check} {e : Entry} :
    Succeeds (undeclared shape .root e) (fun r => r.failures = []) ↔ Extra shape e := by
  -- Without an index signature only the policy decides.
  have policy : Succeeds (undeclared { shape with index := none } .root e) (fun r => r.failures = []) ↔
      shape.undeclared ≠ .reject := by
    obtain ⟨properties, index, policy⟩ := shape
    cases policy <;>
      simp [undeclared, indexTakes, bind, Except.bind, Rebuilt.failure, Rebuilt.item, Rebuilt.empty, Outcome.pass]
  unfold undeclared indexTakes Extra
  cases shape.index with
  | none => exact policy
  | some i =>
    refine Succeeds.bind.trans (Succeeds.bind.trans (exists_congr fun taken => and_congr_right fun _ => ?_))
    refine Succeeds.pure.trans ?_
    cases taken with
    | false => exact policy
    | true => exact Succeeds.map.trans inside_clean

theorem undeclaredAll_clean {shape : ObjectShape Check} :
    Succeeds (undeclaredAll shape .root es) (fun r => r.failures = []) ↔
      ∀ e ∈ es, shape.declares e.key = false → Extra shape e := by
  induction es with
  | nil => simp [undeclaredAll, Rebuilt.empty]
  | cons e es ih =>
    rw [List.forall_mem_cons, ← ih, undeclaredAll]
    cases shape.declares e.key with
    | true =>
      simp only [if_true, Succeeds.bind, Succeeds.pure, Rebuilt.append, Rebuilt.empty, List.nil_append,
        Bool.true_eq_false, false_implies, true_and]
    | false =>
      simp only [Bool.false_eq_true, if_false, forall_const, ← undeclared_clean, Succeeds.bind, Succeeds.pure,
        Rebuilt.append, List.append_eq_nil_iff]
      exact Succeeds.both

/-- An object takes a mapping with fit keys whose properties and further entries are in order. -/
theorem object_takes {shape : ObjectShape Check} {v : Value} : (object config hooks shape).Takes v ↔
    ∃ es, v.fields? = some es ∧ (∀ p ∈ shape.properties, Given config hooks es p) ∧
      ∀ e ∈ es, shape.declares e.key = false → Extra shape e := by
  unfold Takes object Value.fields?
  cases v.entries? with
  | none => simp [Outcome.isOk, Outcome.fail]
  | some raw =>
    cases hcollect : Entry.collect [] raw with
    | mk es keyFailures =>
      simp only [Option.bind_some, hcollect, Succeeds.bind, Succeeds.pure, Outcome.isOk_iff,
        List.append_eq_nil_iff, Rebuilt.append]
      cases keyFailures with
      | nil =>
        simp only [true_and, Option.some.injEq, exists_eq_left', ← properties_clean, ← undeclaredAll_clean]
        exact Succeeds.both
      | cons f fs => simp [Succeeds]

end Objects

section Tuples

variable {config : Config} {hooks : Hooks} {es : List (Element Check)}

theorem allFailures_cons {o : Outcome} {os : List Outcome} :
    Outcome.allFailures (o :: os) = [] ↔ o.failures = [] ∧ Outcome.allFailures os = [] := by
  simp [Outcome.allFailures]

theorem fixedElements_clean {i : Nat} {items : List Value} {os : List Outcome}
    (h : fixedElements config hooks .root i es items = .ok os) (hok : Outcome.allFailures os = []) :
    ∀ t ∈ (es.map (·.value)).zip items, t.1.Takes t.2 := by
  induction es generalizing i items os with
  | nil => simp
  | cons e es ih =>
    cases items with
    | nil => simp
    | cons v vs =>
      unfold fixedElements at h
      obtain ⟨o, rest, ho, hrest, rfl⟩ := combine_ok h
      rw [allFailures_cons] at hok
      refine List.forall_mem_cons.mpr ⟨inside_clean.mp ⟨o, ho, hok.1⟩, ih hrest hok.2⟩

theorem repeatedElement_clean {c : Check} {i : Nat} {items : List Value} {os : List Outcome}
    (h : repeatedElement c .root i items = .ok os) (hok : Outcome.allFailures os = []) :
    ∀ x ∈ items, c.Takes x := by
  induction items generalizing i os with
  | nil => simp
  | cons v vs ih =>
    unfold repeatedElement at h
    obtain ⟨o, rest, ho, hrest, rfl⟩ := combine_ok h
    rw [allFailures_cons] at hok
    exact List.forall_mem_cons.mpr ⟨inside_clean.mp ⟨o, ho, hok.1⟩, ih hrest hok.2⟩

theorem trailingElements_clean {i : Nat} {items : List Value} {os : List Outcome}
    (h : trailingElements .root i es items = .ok os) (hok : Outcome.allFailures os = []) :
    ∀ t ∈ (es.map (·.value)).zip items, t.1.Takes t.2 := by
  induction es generalizing i items os with
  | nil => simp
  | cons e es ih =>
    cases items with
    | nil => simp
    | cons v vs =>
      unfold trailingElements at h
      obtain ⟨o, rest, ho, hrest, rfl⟩ := combine_ok h
      rw [allFailures_cons] at hok
      exact List.forall_mem_cons.mpr ⟨inside_clean.mp ⟨o, ho, hok.1⟩, ih hrest hok.2⟩

theorem allFailures_append {os ps : List Outcome} :
    Outcome.allFailures (os ++ ps) = [] ↔ Outcome.allFailures os = [] ∧ Outcome.allFailures ps = [] := by
  simp [Outcome.allFailures, List.flatMap_append]

theorem elements_clean {items : List Value} {os : List Outcome} (h : elements config hooks es .root items = .ok os)
    (hok : Outcome.allFailures os = []) : ∀ t ∈ Element.places es items, t.1.Takes t.2 := by
  unfold elements at h
  obtain ⟨head, hhead, h⟩ := bind_ok h
  unfold Element.places
  cases hv : Element.variadic? es with
  | none =>
    rw [hv] at h
    rw [← Except.ok.inj h] at hok
    simpa using fixedElements_clean hhead hok
  | some e =>
    rw [hv] at h
    obtain ⟨middle, tail, hmiddle, htail, rfl⟩ := combine_ok h
    rw [allFailures_append, allFailures_append] at hok
    obtain ⟨⟨hok₁, hok₂⟩, hok₃⟩ := hok
    have repeated : ∀ t ∈ ((items.take (items.length - (Element.trailing es).length)).drop
        (Element.fixed es).length).map (fun x => (e.value, x)), t.1.Takes t.2 := by
      intro t ht
      obtain ⟨x, hx, rfl⟩ := List.mem_map.mp ht
      exact repeatedElement_clean hmiddle hok₂ x hx
    exact List.forall_mem_append.mpr ⟨fixedElements_clean hhead hok₁,
      List.forall_mem_append.mpr ⟨repeated, trailingElements_clean htail hok₃⟩⟩

/-- A tuple takes a sequence of legal length only, and every item in its place. -/
theorem places_of_tuple {shape : List (Element Schema)} {v : Value} (h : (tuple config hooks shape es).Takes v) :
    ∃ q items, v.items? = some (q, items) ∧ Element.Admits es items.length ∧
      ∀ t ∈ Element.places es items, t.1.Takes t.2 := by
  obtain ⟨o, ho, hok⟩ := h
  obtain ⟨q, items, os, hi, hfit, hos, hclean, -⟩ := tuple_ok ho hok
  exact ⟨q, items, hi, lengthFits_iff.mp hfit, elements_clean hos hclean⟩

end Tuples

end Check

namespace Env

variable {env : Env} {config : Config} {v : Value}

/-- What becomes of the references in a checked schema. -/
def follow (env : Env) (config : Config) : Ref → Check :=
  match config.maxDepth with
  | 0 => tooDeep config
  | remaining + 1 => fun r visit v => do
    let target ← env.resolve r
    match visit.enter? r v with
    | none => pure (.pass v)
    | some visit => env.checkWithin config remaining target visit v

theorem check_eq (s : Schema) : env.check config s = s.checkWith env config (env.follow config) := by
  unfold check follow
  cases config.maxDepth <;> rfl

theorem accepts_iff {s : Schema} : env.accepts config s v = .ok true ↔ (env.check config s).Takes v :=
  Check.accepts_eq_true

theorem accepts_keyword {k : Keyword} : env.accepts config (.keyword k) v = .ok (k.holds v) := by
  have hrun : env.run config (.keyword k) v = .ok ⟨v, false, Failure.ofVerdict k.name (k.check v)⟩ := by
    rw [run, check_eq]
    rfl
  rw [accepts, hrun]
  exact congrArg Except.ok (Bool.eq_iff_iff.mpr Check.keyword_isOk)

theorem accepts_constrained {s : Schema} {cs : List Constraint} :
    env.accepts config (.constrained s cs) v = .ok true ↔
      Succeeds (env.run config s v) fun o => o.isOk = true ∧ ∀ c ∈ cs, c.Passes env.hooks o.output := by
  rw [accepts_iff, check_eq, run, check_eq]
  exact Check.constrained_takes

theorem accepts_of_union {bs : List Schema} (h : env.accepts config (.union bs) v = .ok true) :
    ∃ s ∈ bs, env.accepts config s v = .ok true := by
  rw [accepts_iff, check_eq, Schema.checkWith, Schema.branchChecks_eq] at h
  obtain ⟨o, ho, hok⟩ := h
  obtain ⟨b, hb, hrun⟩ := Check.union_ok ho hok
  obtain ⟨s, hs, rfl⟩ := List.mem_map.mp hb
  refine ⟨s, hs, accepts_iff.mpr ⟨o, ?_, hok⟩⟩
  rw [check_eq]
  exact hrun

theorem not_accepts_never : env.accepts config .never v ≠ .ok true := by
  intro h
  obtain ⟨s, hs, -⟩ := accepts_of_union h
  simp at hs

/-- The checks of an object's parts. -/
def shapeChecks (env : Env) (config : Config) (o : ObjectShape Schema) : ObjectShape Check :=
  ⟨o.properties.map fun p => ⟨p.key, env.check config p.value, p.presence⟩,
    o.index.map fun i => ⟨env.check config i.key, env.check config i.value⟩, o.undeclared⟩

theorem check_object (o : ObjectShape Schema) :
    env.check config (.object o) = .object config env.hooks (env.shapeChecks config o) := by
  obtain ⟨ps, i, u⟩ := o
  rw [check_eq, Schema.checkWith, Schema.propertyChecks_eq]
  unfold shapeChecks
  congr 2
  · exact List.map_congr_left fun p _ => by rw [check_eq]
  · cases i <;> simp [Schema.indexCheck, check_eq]

theorem shapeChecks_declares (o : ObjectShape Schema) (key : Key) :
    (env.shapeChecks config o).declares key = o.declares key := by
  simp [ObjectShape.declares, shapeChecks, Function.comp_def]

/-- The property is in order among the entries of a mapping. -/
def Fulfils (env : Env) (config : Config) (es : List Entry) (p : Property Schema) : Prop :=
  Check.Given config env.hooks es ⟨p.key, env.check config p.value, p.presence⟩

/-- The object lets an entry stand that it does not declare. -/
def Spares (env : Env) (config : Config) (o : ObjectShape Schema) (e : Entry) : Prop :=
  match o.index with
  | none => o.undeclared ≠ .reject
  | some i => Succeeds (env.accepts config i.key e.key.toValue) fun taken =>
      if taken then env.accepts config i.value e.item = .ok true else o.undeclared ≠ .reject

theorem extra_iff_spares {o : ObjectShape Schema} {e : Entry} :
    Check.Extra (env.shapeChecks config o) e ↔ env.Spares config o e := by
  unfold Check.Extra Spares shapeChecks
  cases o.index with
  | none => rfl
  | some i => simp only [Option.map_some, accepts_iff]; rfl

theorem accepts_object {o : ObjectShape Schema} : env.accepts config (.object o) v = .ok true ↔
    ∃ es, v.fields? = some es ∧ (∀ p ∈ o.properties, env.Fulfils config es p) ∧
      ∀ e ∈ es, o.declares e.key = false → env.Spares config o e := by
  rw [accepts_iff, check_object, Check.object_takes]
  simp only [shapeChecks_declares, extra_iff_spares]
  simp only [shapeChecks, List.forall_mem_map]
  rfl

/-- With exact optional properties and without a default a property asks of its own entry only. -/
theorem fulfils_iff {es : List Entry} {p : Property Schema} (hexact : config.exactOptional = true)
    (hd : p.presence.default? = none) : env.Fulfils config es p ↔
      (∀ e, Entry.find? es p.key = some e → env.accepts config p.value e.item = .ok true) ∧
        (p.presence.isRequired = true → (Entry.find? es p.key).isSome = true) := by
  have hgiven : Check.given? config es ⟨p.key, env.check config p.value, p.presence⟩ = Entry.find? es p.key := by
    rw [← Entry.given?_exact es p.key p.presence, ← hexact]
    rfl
  unfold Fulfils Check.Given
  rw [hgiven]
  cases Entry.find? es p.key with
  | some e => simp [accepts_iff]
  | none =>
    cases hp : p.presence with
    | required => simp [Presence.isRequired]
    | optional => simp [Presence.isRequired]
    | defaultable d => simp [hp, Presence.default?] at hd

theorem places_of_accepts {es : List (Element Schema)} (h : env.accepts config (.tuple es) v = .ok true) :
    ∃ q items, v.items? = some (q, items) ∧ Element.Admits es items.length ∧
      ∀ t ∈ Element.places es items, env.accepts config t.1 t.2 = .ok true := by
  rw [accepts_iff, check_eq, Schema.checkWith, Schema.elementChecks_eq] at h
  obtain ⟨q, items, hi, hadmits, hall⟩ := Check.places_of_tuple h
  have hlike : List.Forall₂ (Element.Like fun s c => c = env.check config s) es
      (es.map fun e => (⟨e.role, e.value.checkWith env config (env.follow config)⟩ : Element Check)) :=
    forall₂_self_map fun e _ => ⟨rfl, (check_eq e.value).symm⟩
  refine ⟨q, items, hi, (Element.admits_like hlike).mpr hadmits, fun t ht => ?_⟩
  obtain ⟨t', ht', hc, hx⟩ := forall₂_exists_left
    (Element.places_like hlike (List.forall₂_same.mpr fun (x : Value) (_ : x ∈ items) => rfl)) ht
  rw [accepts_iff, ← hc, hx]
  exact hall t' ht'

end Env
end Schemata
