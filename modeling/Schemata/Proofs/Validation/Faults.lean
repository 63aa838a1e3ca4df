import Schemata.Proofs.Quiet
import Schemata.Proofs.Schema.Likeness
import Schemata.Proofs.Validation.Agreement
import Schemata.Validation

/-! What a check stops with. An error on the way comes from a constraint, a default or a reference, or from telling
the domains of a branch. -/
namespace Schemata
namespace Check

variable {config : Config} {hooks : Hooks} {c : Check} {visit : Visit} {Q : Fault → Prop}

/-- Every error of the check satisfies `Q`. -/
def Stops (Q : Fault → Prop) (c : Check) : Prop := ∀ visit v, Ends (c visit v) (fun _ => True) Q

theorem Stops.inside (h : c.Stops Q) (s : Segment) (visit : Visit) (v : Value) :
    Ends (c.inside s visit v) (fun _ => True) Q := (h visit.renewed v).map fun _ _ => trivial

theorem Stops.accepts (h : c.Stops Q) (visit : Visit) (v : Value) : Ends (c.accepts visit v) (fun _ => True) Q :=
  (h visit v).map fun _ _ => trivial

/-- What stops with nothing answers. -/
theorem Stops.total (h : c.Stops fun _ => False) : c.Total := fun visit v =>
  (h visit v).succeeds.imp fun _ => And.left

theorem keyword_stops (k : Keyword) : (keyword k).Stops Q := fun _ _ => trivial

theorem literal_stops (w : Value) : (literal w).Stops Q := fun _ _ => trivial

section Constrained

variable {cs : List Constraint} (hcs : ∀ c ∈ cs, ∀ v, Ends (c.check hooks v) (fun _ => True) fun e => Q (.check e))
include hcs

theorem constraintFailures_stops (v : Value) : Ends (constraintFailures hooks v cs) (fun _ => True) Q := by
  induction cs with
  | nil => trivial
  | cons c cs ih =>
    rw [List.forall_mem_cons] at hcs
    have hverdict := hcs.1 v
    unfold constraintFailures
    cases hc : c.check hooks v with
    | error e =>
      rw [hc] at hverdict
      exact hverdict
    | ok d => exact (ih hcs.2).bind fun _ _ => trivial

theorem constrained_stops (h : c.Stops Q) : (constrained hooks c cs).Stops Q := by
  refine fun visit v => (h visit v).bind fun o _ => ?_
  split_ifs
  · exact (constraintFailures_stops hcs o.output).bind fun _ _ => trivial
  · trivial

end Constrained

theorem conjunction_stops {cs : List Check} (h : ∀ c ∈ cs, c.Stops Q) : (conjunction cs).Stops Q := by
  induction cs with
  | nil => exact fun _ _ => trivial
  | cons c cs ih =>
    rw [List.forall_mem_cons] at h
    exact fun visit v => (h.1 visit v).bind fun o _ => (ih h.2 _ _).bind fun _ _ => trivial

section Union

variable {domains : Schema → Except Fault (Option DomainSet)} {branches : List (Schema × Check)} {v : Value}

/-- Of a failed search the attempts are those of the branches. -/
theorem firstAccepting_ends (h : ∀ b ∈ branches, Ends (b.2 visit v) (fun _ => True) Q) :
    Ends (firstAccepting visit v branches)
      (fun r => ∀ attempts, r = .inr attempts → ∀ a ∈ attempts, ∃ b ∈ branches, b.1 = a.1) Q := by
  induction branches with
  | nil =>
    rintro _ ⟨⟩
    simp
  | cons b branches ih =>
    rw [List.forall_mem_cons] at h
    refine h.1.bind fun o _ => ?_
    split_ifs
    · rintro _ ⟨⟩
    · refine (ih h.2).bind fun r hr => ?_
      cases r with
      | inl accepted => rintro _ ⟨⟩
      | inr attempts =>
        rintro _ ⟨⟩ a ha
        rcases List.mem_cons.mp ha with rfl | ha
        · exact ⟨b, by simp, rfl⟩
        · obtain ⟨c, hc, heq⟩ := hr attempts rfl a ha
          exact ⟨c, List.mem_cons_of_mem _ hc, heq⟩

theorem matching_stops {attempts : List (Schema × List Failure)}
    (h : ∀ a ∈ attempts, Ends (domains a.1) (fun _ => True) Q) (d : Domain) :
    Ends (matching domains d attempts) (fun _ => True) Q := by
  induction attempts with
  | nil => trivial
  | cons a attempts ih =>
    rw [List.forall_mem_cons] at h
    exact h.1.bind fun _ _ => (ih h.2).bind fun _ _ => trivial

theorem union_ends (hdomains : ∀ b ∈ branches, Ends (domains b.1) (fun _ => True) Q)
    (h : ∀ b ∈ branches, Ends (b.2 visit v) (fun _ => True) Q) :
    Ends (union domains branches visit v) (fun _ => True) Q := by
  refine (firstAccepting_ends h).bind fun r hr => ?_
  cases r with
  | inl accepted => trivial
  | inr attempts =>
    refine (matching_stops (fun a ha => ?_) v.domain).bind fun fss _ => ?_
    · obtain ⟨b, hb, heq⟩ := hr attempts rfl a ha
      exact heq ▸ hdomains b hb
    · split <;> trivial

theorem union_stops (hdomains : ∀ b ∈ branches, Ends (domains b.1) (fun _ => True) Q)
    (h : ∀ b ∈ branches, b.2.Stops Q) : (union domains branches).Stops Q :=
  fun visit v => union_ends hdomains fun b hb => h b hb visit v

end Union

theorem default_stops (h : c.Stops Q) {p : Producer} (hp : ∀ copy, Ends (p.produce hooks copy) (fun _ => True) Q)
    (s : Segment) (visit : Visit) : Ends (default config hooks c p s visit) (fun _ => True) Q := by
  refine (hp _).bind fun v _ => ?_
  split_ifs
  · exact h.inside s visit v
  · trivial

section Objects

variable {shape : ObjectShape Check}

theorem properties_stops {ps : List (Property Check)} (h : ∀ p ∈ ps, p.value.Stops Q)
    (hd : ∀ p ∈ ps, ∀ d, p.presence.default? = some d → ∀ copy, Ends (d.produce hooks copy) (fun _ => True) Q)
    (es : List Entry) : Ends (properties config hooks visit es ps) (fun _ => True) Q := by
  have one : ∀ p ∈ ps, Ends (property config hooks visit es p) (fun _ => True) Q := by
    intro p hp
    unfold property
    split
    · exact ((h p hp).inside _ _ _).map fun _ _ => trivial
    · split
      · trivial
      · trivial
      · rename_i d hpres
        exact (default_stops (h p hp) (hd p hp d (by rw [hpres]; rfl)) _ _).map fun _ _ => trivial
  clear h hd
  induction ps with
  | nil => trivial
  | cons p ps ih =>
    rw [List.forall_mem_cons] at one
    exact one.1.bind fun _ _ => (ih one.2).bind fun _ _ => trivial

variable (hindex : ∀ i, shape.index = some i → i.key.Stops Q ∧ i.value.Stops Q)
include hindex

theorem undeclared_stops (e : Entry) : Ends (undeclared shape visit e) (fun _ => True) Q := by
  have policy : Ends (undeclared { shape with index := none } visit e) (fun _ => True) Q := by
    obtain ⟨properties, index, policy⟩ := shape
    cases policy <;> trivial
  unfold undeclared indexTakes
  cases hi : shape.index with
  | none => exact policy
  | some i =>
    obtain ⟨hkey, hvalue⟩ := hindex i hi
    have hkey := hkey.accepts visit.renewed e.key.toValue
    dsimp only
    cases hrun : i.key.accepts visit.renewed e.key.toValue with
    | error f =>
      rw [hrun] at hkey
      exact hkey
    | ok taken =>
      cases taken with
      | false => exact policy
      | true => exact (hvalue.inside _ _ _).map fun _ _ => trivial

theorem undeclaredAll_stops (es : List Entry) : Ends (undeclaredAll shape visit es) (fun _ => True) Q := by
  induction es with
  | nil => trivial
  | cons e es ih =>
    unfold undeclaredAll
    split_ifs
    · exact ih.bind fun _ _ => trivial
    · exact (undeclared_stops hindex e).bind fun _ _ => ih.bind fun _ _ => trivial

theorem object_stops (hproperties : ∀ p ∈ shape.properties, p.value.Stops Q)
    (hd : ∀ p ∈ shape.properties, ∀ d, p.presence.default? = some d →
      ∀ copy, Ends (d.produce hooks copy) (fun _ => True) Q) : (object config hooks shape).Stops Q := by
  intro visit v
  unfold object
  split
  · trivial
  · exact (properties_stops hproperties hd _).bind fun _ _ => (undeclaredAll_stops hindex _).bind fun _ _ => trivial

end Objects

section Tuples

variable {es : List (Element Check)}

theorem fixedElements_stops (h : ∀ e ∈ es, e.value.Stops Q)
    (hd : ∀ e ∈ es, ∀ d, e.role.default? = some d → ∀ copy, Ends (d.produce hooks copy) (fun _ => True) Q) (i : Nat)
    (items : List Value) : Ends (fixedElements config hooks visit i es items) (fun _ => True) Q := by
  induction es generalizing i items with
  | nil => trivial
  | cons e es ih =>
    rw [List.forall_mem_cons] at h hd
    cases items with
    | cons v vs => exact (h.1.inside _ _ _).bind fun _ _ => (ih h.2 hd.2 _ _).bind fun _ _ => trivial
    | nil =>
      unfold fixedElements
      split
      · rename_i d hrole
        exact (default_stops h.1 (hd.1 d (by rw [hrole]; rfl)) _ _).bind fun _ _ =>
          (ih h.2 hd.2 _ _).bind fun _ _ => trivial
      · trivial

theorem repeatedElement_stops (h : c.Stops Q) (i : Nat) (items : List Value) :
    Ends (repeatedElement c visit i items) (fun _ => True) Q := by
  induction items generalizing i with
  | nil => trivial
  | cons v vs ih => exact (h.inside _ _ _).bind fun _ _ => (ih _).bind fun _ _ => trivial

theorem trailingElements_stops (h : ∀ e ∈ es, e.value.Stops Q) (i : Nat) (items : List Value) :
    Ends (trailingElements visit i es items) (fun _ => True) Q := by
  induction es generalizing i items with
  | nil => trivial
  | cons e es ih =>
    rw [List.forall_mem_cons] at h
    cases items with
    | nil => trivial
    | cons v vs => exact (h.1.inside _ _ _).bind fun _ _ => (ih h.2 _ _).bind fun _ _ => trivial

theorem tuple_stops (h : ∀ e ∈ es, e.value.Stops Q)
    (hd : ∀ e ∈ es, ∀ d, e.role.default? = some d → ∀ copy, Ends (d.produce hooks copy) (fun _ => True) Q)
    (shape : List (Element Schema)) : (tuple config hooks shape es).Stops Q := by
  have among : ∀ p, ∀ e ∈ es.filter p, e ∈ es := fun p e he => (List.mem_filter.mp he).1
  have elements : ∀ visit items, Ends (elements config hooks es visit items) (fun _ => True) Q := by
    intro visit items
    refine (fixedElements_stops (fun e he => h e (among _ e he)) (fun e he => hd e (among _ e he)) _ _).bind
      fun head _ => ?_
    cases hv : Element.variadic? es with
    | none => trivial
    | some e =>
      have he : e.value.Stops Q := h e (List.mem_of_find?_eq_some hv)
      exact (repeatedElement_stops he _ _).bind fun _ _ =>
        (trailingElements_stops (fun e he => h e (among _ e he)) _ _).bind fun _ _ => trivial
  intro visit v
  unfold tuple
  split
  · trivial
  · split_ifs
    · exact (elements _ _).bind fun _ _ => trivial
    · trivial

end Tuples

end Check

namespace Schema

variable {env : Env} {config : Config} {follow : Ref → Check} {Q : Fault → Prop} {s : Schema}

/-- Whatever a default of the node fails with satisfies `Q`. -/
def DefaultsEnd (hooks : Hooks) (Q : Fault → Prop) (s : Schema) : Prop :=
  ∀ p ∈ s.defaults, ∀ copy, Ends (p.produce hooks copy) (fun _ => True) Q

/-- What a single node adds to the errors of a check satisfies `Q`. -/
def StopsWith (env : Env) (follow : Ref → Check) (Q : Fault → Prop) : Schema → Prop
  | .ref r => (follow r).Stops Q
  | .constrained _ cs => ∀ c ∈ cs, ∀ v, Ends (c.check env.hooks v) (fun _ => True) fun e => Q (.check e)
  | .union bs => ∀ b ∈ bs, Ends (env.domains? b) (fun _ => True) Q
  | s => s.DefaultsEnd env.hooks Q

theorem keyword_stopsWith {k : Keyword} : (keyword k).Every (StopsWith env follow Q) :=
  .intro (fun _ hp => by simp [defaults] at hp) (by simp [parts])

/-- A check stops with what one of the nodes stops with. -/
theorem checkWith_stops (hs : s.Every (StopsWith env follow Q)) : (s.checkWith env config follow).Stops Q := by
  induction hs with
  | @intro s hnode _ ih =>
    cases s with
    | keyword k => exact Check.keyword_stops k
    | literal w => exact Check.literal_stops w
    | constrained s cs => exact Check.constrained_stops hnode (ih s (by simp [parts]))
    | union bs =>
      rw [checkWith, branchChecks_eq]
      exact Check.union_stops (List.forall_mem_map.mpr hnode) (List.forall_mem_map.mpr ih)
    | intersection ms =>
      rw [checkWith, memberChecks_eq]
      exact Check.conjunction_stops (List.forall_mem_map.mpr ih)
    | ref r => exact hnode
    | object o =>
      obtain ⟨ps, i, u⟩ := o
      rw [checkWith, propertyChecks_eq]
      refine Check.object_stops ?_ (List.forall_mem_map.mpr fun p hp => ih _ ?_)
        (List.forall_mem_map.mpr fun p hp d hpd => hnode d ?_)
      · cases i with
        | none => rintro _ ⟨⟩
        | some i =>
          rintro _ ⟨⟩
          exact ⟨ih _ (by simp [parts, IndexSignature.parts]), ih _ (by simp [parts, IndexSignature.parts])⟩
      · exact List.mem_append_left _ (List.mem_map_of_mem hp)
      · exact List.mem_filterMap.mpr ⟨p, hp, hpd⟩
    | tuple es =>
      rw [checkWith, elementChecks_eq]
      exact Check.tuple_stops (List.forall_mem_map.mpr fun e he => ih _ (List.mem_map_of_mem he))
        (List.forall_mem_map.mpr fun e he d hed => hnode d (List.mem_filterMap.mpr ⟨e, he, hed⟩)) es

end Schema

namespace Env

variable {env : Env} {config : Config}

/-- A check stops with what a single node or a reference stops with. -/
theorem checkWithin_stops {p : Schema → Prop} {Q : Fault → Prop}
    (hnode : ∀ follow s, p s → (∀ r, s = .ref r → (follow r).Stops Q) → s.StopsWith env follow Q)
    (hresolve : ∀ r, p (.ref r) → Ends (env.resolve r) (Schema.Every p) Q) (remaining : Nat) {s : Schema} (hs : s.Every p) :
    (env.checkWithin config remaining s).Stops Q := by
  induction remaining generalizing s with
  | zero => exact Schema.checkWith_stops (hs.mono fun t ht => hnode _ t ht fun r _ _ _ => trivial)
  | succ remaining ih =>
    refine Schema.checkWith_stops (hs.mono fun t ht => hnode _ t ht ?_)
    rintro r rfl visit v
    refine (hresolve r ht).bind fun target htarget => ?_
    split
    · trivial
    · exact ih htarget _ _

/-- Validation finds nothing out about schemas. -/
theorem accepts_quiet (env : Env) (config : Config) (s : Schema) (v : Value) : Quiet (env.accepts config s v) := by
  refine .of_ends ((checkWithin_stops (p := fun _ => True) (fun follow s _ hfollow => ?_)
    (fun r _ => (env.resolve_quiet r).ends.mono (fun _ _ => .all fun _ => trivial) fun _ h => h) config.maxDepth
    (.all fun _ => trivial) .root v).map fun _ _ => trivial)
  cases s with
  | ref r => exact hfollow r rfl
  | constrained s cs =>
    intro c _ v
    cases c.check env.hooks v <;> first | rfl | trivial
  | union bs => exact fun b _ => (env.domains?_quiet b).ends
  | _ => exact fun p _ copy => (p.produce_quiet env.hooks copy).ends

end Env
end Schemata
