import Schemata.Proofs.Validation.Combinators

/-! The checks of objects and tuples, given checks of the parts that always answer: what they accept, and
what they put out. -/
namespace Schemata

namespace Check

section Objects

/-- What becomes of the given properties, in the order of their declaration. -/
def declaredPairs (exact : Bool) (visit : Visit) (es : List Entry) (ps : List (Property Check)) :
    List Value.Pair :=
  ps.filterMap fun p => (Entry.given? exact es p.key p.presence).map fun e =>
    (p.key, (p.value.outcome visit.renewed e.item).output)

/-- Entries that no property declares pass as they are when the policy ignores them. -/
def undeclaredPairs (shape : ObjectShape Check) (es : List Entry) : List Value.Pair :=
  if shape.undeclared = .ignore then
    (es.filter fun e => !shape.declares e.key).map fun e => (e.key, e.item)
  else []

/-- A property is in order: its value accepts the given item, and nothing required is absent. -/
def Satisfied (exact : Bool) (visit : Visit) (es : List Entry) (p : Property Check) : Prop :=
  (∀ e, Entry.given? exact es p.key p.presence = some e → (p.value.outcome visit.renewed e.item).isOk = true) ∧
    (p.presence.isRequired = true → (Entry.given? exact es p.key p.presence).isSome = true)

theorem property_spec {p : Property Check} (hp : p.value.Total) (hd : p.presence.default? = none) (config : Config)
    (hooks : Hooks) (visit : Visit) (es : List Entry) :
    ∃ r, property config hooks visit es p = .ok r ∧
      r.entries = (declaredPairs config.exactOptional visit es [p]).map (fun t => (t.1.toValue, t.2)) ∧
      (r.failures = [] ↔ Satisfied config.exactOptional visit es p) := by
  have hgiven : Check.given? config es p = Entry.given? config.exactOptional es p.key p.presence := rfl
  unfold property Satisfied
  rw [hgiven]
  cases hg : Entry.given? config.exactOptional es p.key p.presence with
  | some e =>
    refine ⟨.item p.key ((p.value.outcome visit.renewed e.item).within (.ofKey p.key)), ?_, ?_, ?_⟩
    · simp [hp.inside, Except.map]
    · simp [declaredPairs, hg, Rebuilt.item]
    · simp [Rebuilt.item, ← Outcome.isOk_iff]
  | none =>
    cases hpres : p.presence with
    | required =>
      refine ⟨_, rfl, by simp [declaredPairs, hg, Rebuilt.failure], ?_⟩
      simp [Rebuilt.failure, Presence.isRequired]
    | optional =>
      exact ⟨_, rfl, by simp [declaredPairs, hg, Rebuilt.empty], by simp [Rebuilt.empty, Presence.isRequired]⟩
    | defaultable d => simp [hpres, Presence.default?] at hd

theorem properties_spec {ps : List (Property Check)} (h : ∀ p ∈ ps, p.value.Total)
    (hd : ∀ p ∈ ps, p.presence.default? = none) (config : Config) (hooks : Hooks) (visit : Visit) (es : List Entry) :
    ∃ r, properties config hooks visit es ps = .ok r ∧
      r.entries = (declaredPairs config.exactOptional visit es ps).map (fun t => (t.1.toValue, t.2)) ∧
      (r.failures = [] ↔ ∀ p ∈ ps, Satisfied config.exactOptional visit es p) := by
  induction ps with
  | nil => exact ⟨.empty, rfl, rfl, by simp [Rebuilt.empty]⟩
  | cons p ps ih =>
    obtain ⟨r, hr, he, hf⟩ := property_spec (h p (by simp)) (hd p (by simp)) config hooks visit es
    obtain ⟨r', hr', he', hf'⟩ := ih (fun p hp => h p (List.mem_cons_of_mem _ hp))
      (fun p hp => hd p (List.mem_cons_of_mem _ hp))
    have hcons : declaredPairs config.exactOptional visit es (p :: ps) =
        declaredPairs config.exactOptional visit es [p] ++ declaredPairs config.exactOptional visit es ps :=
      List.filterMap_append (l := [p])
    refine ⟨r.append r', ?_, ?_, ?_⟩
    · simp [properties, hr, hr', bind, Except.bind, pure, Except.pure]
    · rw [hcons, List.map_append, ← he, ← he']
      rfl
    · simp [Rebuilt.append, hf, hf']

theorem undeclared_spec {shape : ObjectShape Check} (hi : shape.index = none) (visit : Visit) (e : Entry) :
    ∃ r, undeclared shape visit e = .ok r ∧
      r.entries = (if shape.undeclared = .ignore then [(e.key.toValue, e.item)] else []) ∧
      (r.failures = [] ↔ shape.undeclared ≠ .reject) := by
  simp only [undeclared, indexTakes, hi, bind, Except.bind]
  cases shape.undeclared <;> exact ⟨_, rfl, rfl, by simp [Rebuilt.item, Rebuilt.empty, Rebuilt.failure,
    Outcome.pass]⟩

theorem undeclaredAll_spec {shape : ObjectShape Check} (hi : shape.index = none) (visit : Visit) (es : List Entry) :
    ∃ r, undeclaredAll shape visit es = .ok r ∧
      r.entries = (undeclaredPairs shape es).map (fun t => (t.1.toValue, t.2)) ∧
      (r.failures = [] ↔ (shape.undeclared = .reject → ∀ e ∈ es, shape.declares e.key = true)) := by
  induction es with
  | nil => exact ⟨.empty, rfl, by simp [undeclaredPairs, Rebuilt.empty], by simp [Rebuilt.empty]⟩
  | cons e es ih =>
    obtain ⟨r', hr', he', hf'⟩ := ih
    cases hdecl : shape.declares e.key with
    | true =>
      refine ⟨Rebuilt.empty.append r', ?_, ?_, ?_⟩
      · simp [undeclaredAll, hdecl, hr', bind, Except.bind, pure, Except.pure]
      · simpa [Rebuilt.append, Rebuilt.empty, undeclaredPairs, hdecl] using he'
      · simpa [Rebuilt.append, Rebuilt.empty, hdecl] using hf'
    | false =>
      obtain ⟨r, hr, he, hf⟩ := undeclared_spec hi visit e
      refine ⟨r.append r', ?_, ?_, ?_⟩
      · simp [undeclaredAll, hdecl, hr, hr', bind, Except.bind, pure, Except.pure]
      · simp only [Rebuilt.append, he, he', undeclaredPairs]
        split_ifs <;> simp [hdecl]
      · simp only [Rebuilt.append, List.append_eq_nil_iff, hf, hf', List.forall_mem_cons, hdecl,
          Bool.false_eq_true, false_and, imp_false]
        exact ⟨fun h => h.1, fun h => ⟨h, fun h' => absurd h' h⟩⟩

/-- An object accepts a mapping with fit keys, satisfied properties and no rejected entry; it puts out the
declared entries before the others. -/
theorem object_spec {shape : ObjectShape Check} (h : ∀ p ∈ shape.properties, p.value.Total)
    (hd : ∀ p ∈ shape.properties, p.presence.default? = none) (hi : shape.index = none)
    (config : Config) (hooks : Hooks) (visit : Visit) (v : Value) :
    ∃ o, object config hooks shape visit v = .ok o ∧
      (o.isOk = true ↔ ∃ es, v.fields? = some es ∧
        (∀ p ∈ shape.properties, Satisfied config.exactOptional visit es p) ∧
        (shape.undeclared = .reject → ∀ e ∈ es, shape.declares e.key = true)) ∧
      ∀ es, v.fields? = some es → o.output = Value.ofPairs
        (declaredPairs config.exactOptional visit es shape.properties ++ undeclaredPairs shape es) := by
  unfold object
  cases hraw : v.entries? with
  | none =>
    have hf : v.fields? = none := by simp [Value.fields?, hraw]
    exact ⟨_, rfl, by simp [Outcome.isOk, Outcome.fail, hf], by simp [hf]⟩
  | some raw =>
    obtain ⟨es, keyFailures, hc⟩ : ∃ es fs, Entry.collect [] raw = (es, fs) := ⟨_, _, rfl⟩
    obtain ⟨r, hr, he, hf⟩ := properties_spec h hd config hooks visit es
    obtain ⟨r', hr', he', hf'⟩ := undeclaredAll_spec hi visit es
    have hfields : ∀ es', v.fields? = some es' ↔ keyFailures = [] ∧ es' = es := by
      intro es'
      simp only [Value.fields?, hraw, Option.bind_some, hc]
      cases keyFailures <;> simp [eq_comm]
    refine ⟨⟨.mapping (r.append r').entries, true, keyFailures ++ (r.append r').failures⟩, ?_, ?_, ?_⟩
    · simp only [hc, hr, hr', bind, Except.bind, pure, Except.pure]
    · simp only [Outcome.isOk_iff, Rebuilt.append, List.append_eq_nil_iff, hf, hf', hfields]
      constructor
      · exact fun h => ⟨es, ⟨h.1, rfl⟩, h.2⟩
      · rintro ⟨_, ⟨hk, rfl⟩, h⟩
        exact ⟨hk, h⟩
    · intro es' hes'
      obtain ⟨-, rfl⟩ := (hfields es').mp hes'
      simp only [Rebuilt.append, he, he', Value.ofPairs, List.map_append]

end Objects

section Tuples

variable {visit : Visit}

/-- Outcomes of checked places, up to the paths of their failures. -/
def Answers (visit : Visit) (places : List (Check × Value)) (os : List Outcome) : Prop :=
  Outcome.outputs os = places.map (fun t => (t.1.outcome visit.renewed t.2).output) ∧
    (Outcome.allFailures os = [] ↔ ∀ t ∈ places, (t.1.outcome visit.renewed t.2).isOk = true)

theorem Answers.nil : Answers visit [] [] := ⟨rfl, by simp [Outcome.allFailures]⟩

theorem Answers.cons {c : Check} {v : Value} {places : List (Check × Value)} {os : List Outcome}
    (h : Answers visit places os) (s : Segment) :
    Answers visit ((c, v) :: places) ((c.outcome visit.renewed v).within s :: os) := by
  obtain ⟨h₁, h₂⟩ := h
  refine ⟨by simpa [Outcome.outputs] using h₁, ?_⟩
  rw [Outcome.allFailures_eq_nil] at h₂ ⊢
  simp [h₂]

theorem Answers.append {places places' : List (Check × Value)} {os os' : List Outcome}
    (h : Answers visit places os) (h' : Answers visit places' os') :
    Answers visit (places ++ places') (os ++ os') := by
  refine ⟨?_, ?_⟩
  · simpa [Outcome.outputs, ← h.1] using h'.1
  · have h₁ := h.2
    have h₂ := h'.2
    rw [Outcome.allFailures_eq_nil] at h₁ h₂ ⊢
    simp only [List.mem_append, or_imp, forall_and, h₁, h₂]

theorem fixedElements_spec {es : List (Element Check)} (h : ∀ e ∈ es, e.value.Total)
    (hd : ∀ e ∈ es, e.role.default? = none) (config : Config) (hooks : Hooks) (visit : Visit) (i : Nat)
    (vs : List Value) :
    ∃ os, fixedElements config hooks visit i es vs = .ok os ∧
      Answers visit ((es.map (·.value)).zip vs) os := by
  induction es generalizing i vs with
  | nil => exact ⟨[], by cases vs <;> rfl, .nil⟩
  | cons e es ih =>
    cases vs with
    | nil =>
      refine ⟨[], ?_, by simpa using Answers.nil⟩
      have hrole := hd e (by simp)
      unfold fixedElements
      cases he : e.role <;> simp_all [Role.default?]
    | cons v vs =>
      obtain ⟨os, hos, ha⟩ := ih (fun e he => h e (List.mem_cons_of_mem _ he))
        (fun e he => hd e (List.mem_cons_of_mem _ he)) (i + 1) vs
      refine ⟨_, ?_, ha.cons (.position i)⟩
      simp [fixedElements, (h e (by simp)).inside, hos, bind, Except.bind, pure, Except.pure]

theorem repeatedElement_spec {c : Check} (h : c.Total) (visit : Visit) (i : Nat) (vs : List Value) :
    ∃ os, repeatedElement c visit i vs = .ok os ∧ Answers visit (vs.map fun x => (c, x)) os := by
  induction vs generalizing i with
  | nil => exact ⟨[], rfl, .nil⟩
  | cons v vs ih =>
    obtain ⟨os, hos, ha⟩ := ih (i + 1)
    refine ⟨_, ?_, ha.cons (.position i)⟩
    simp [repeatedElement, h.inside, hos, bind, Except.bind, pure, Except.pure]

theorem trailingElements_spec {es : List (Element Check)} (h : ∀ e ∈ es, e.value.Total) (visit : Visit)
    (i : Nat) (vs : List Value) : ∃ os, trailingElements visit i es vs = .ok os ∧
      Answers visit ((es.map (·.value)).zip vs) os := by
  induction es generalizing i vs with
  | nil => exact ⟨[], by cases vs <;> rfl, .nil⟩
  | cons e es ih =>
    cases vs with
    | nil => exact ⟨[], rfl, by simpa using Answers.nil⟩
    | cons v vs =>
      obtain ⟨os, hos, ha⟩ := ih (fun e he => h e (List.mem_cons_of_mem _ he)) (i + 1) vs
      refine ⟨_, ?_, ha.cons (.position i)⟩
      simp [trailingElements, (h e (by simp)).inside, hos, bind, Except.bind, pure, Except.pure]

/-- The elements of a tuple check the items in their places. -/
theorem elements_spec {es : List (Element Check)} (h : ∀ e ∈ es, e.value.Total)
    (hd : ∀ e ∈ es, e.role.default? = none) (config : Config) (hooks : Hooks) (visit : Visit) (items : List Value) :
    ∃ os, elements config hooks es visit items = .ok os ∧ Answers visit (Element.places es items) os := by
  obtain ⟨head, hhead, ha⟩ := fixedElements_spec
    (fun e (he : e ∈ Element.fixed es) => h e (List.mem_of_mem_filter he))
    (fun e he => hd e (List.mem_of_mem_filter he)) config hooks visit 0
    (items.take (items.length - (Element.trailing es).length))
  unfold elements Element.places
  simp only [hhead, bind, Except.bind]
  cases hv : Element.variadic? es with
  | none => exact ⟨head, rfl, by simpa using ha⟩
  | some e =>
    obtain ⟨middle, hmiddle, hb⟩ := repeatedElement_spec
      (h e (List.mem_of_find?_eq_some hv)) visit (Element.fixed es).length
      ((items.take (items.length - (Element.trailing es).length)).drop (Element.fixed es).length)
    obtain ⟨tail, htail, hc⟩ := trailingElements_spec
      (fun e (he : e ∈ Element.trailing es) => h e (List.mem_of_mem_filter he)) visit
      (items.take (items.length - (Element.trailing es).length)).length
      (items.drop (items.take (items.length - (Element.trailing es).length)).length)
    refine ⟨head ++ middle ++ tail, by simp only [hmiddle, htail, pure, Except.pure], ?_⟩
    rw [List.append_assoc]
    exact ha.append (hb.append hc)

theorem lengthFits_iff {es : List (Element Check)} {n : Nat} :
    lengthFits es n = true ↔ Element.Admits es n := by
  unfold lengthFits Element.Admits
  cases Element.greatestLength? es <;> simp

/-- A tuple accepts a sequence of legal length whose items are accepted in their places. -/
theorem tuple_spec {es : List (Element Check)} (h : ∀ e ∈ es, e.value.Total)
    (hd : ∀ e ∈ es, e.role.default? = none) (config : Config) (hooks : Hooks) (shape : List (Element Schema))
    (visit : Visit) (v : Value) :
    ∃ o, tuple config hooks shape es visit v = .ok o ∧
      (o.isOk = true ↔ ∃ q items, v.items? = some (q, items) ∧ Element.Admits es items.length ∧
        ∀ t ∈ Element.places es items, (t.1.outcome visit.renewed t.2).isOk = true) ∧
      (o.isOk = true → ∀ q items, v.items? = some (q, items) →
        o.output = q.make ((Element.places es items).map fun t => (t.1.outcome visit.renewed t.2).output)) := by
  unfold tuple
  cases hi : v.items? with
  | none => exact ⟨_, rfl, by simp [Outcome.isOk, Outcome.fail], by simp⟩
  | some pair =>
    obtain ⟨q, items⟩ := pair
    obtain ⟨os, hos, hout, hall⟩ := elements_spec h hd config hooks visit items
    by_cases hfit : lengthFits es items.length = true
    · refine ⟨⟨q.make (Outcome.outputs os), !(q == .tuple && os.isEmpty), Outcome.allFailures os⟩, ?_, ?_, ?_⟩
      · simp only [hfit, if_true, hos, bind, Except.bind, pure, Except.pure]
      · rw [Outcome.isOk_iff, hall]
        constructor
        · exact fun h => ⟨q, items, rfl, lengthFits_iff.mp hfit, h⟩
        · rintro ⟨q', items', hqi, -, h⟩
          obtain ⟨rfl, rfl⟩ := Prod.mk.inj (Option.some.inj hqi)
          exact h
      · intro _ q' items' hqi
        obtain ⟨rfl, rfl⟩ := Prod.mk.inj (Option.some.inj hqi)
        rw [← hout]
    · refine ⟨.fail v ("must be " ++ Element.describedLength es ++ " (was " ++ toString items.length ++ ")")
        (Schema.tuple shape).expression .invalidLength (.int items.length), ?_, ?_, ?_⟩
      · simp only [hfit, if_false, Bool.false_eq_true]
      · constructor
        · intro h
          simp [Outcome.isOk, Outcome.fail] at h
        · rintro ⟨q', items', hqi, hadm, -⟩
          obtain ⟨rfl, rfl⟩ := Prod.mk.inj (Option.some.inj hqi)
          exact absurd (lengthFits_iff.mpr hadm) hfit
      · intro h
        simp [Outcome.isOk, Outcome.fail] at h

end Tuples

end Check
end Schemata
