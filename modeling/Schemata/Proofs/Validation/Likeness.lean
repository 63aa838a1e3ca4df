import Schemata.Proofs.Quiet
import Schemata.Proofs.Schema.Likeness
import Schemata.Proofs.Validation.Acceptance

/-! The checks of schemas that are alike answer alike: on one value, or on two scalars that nothing tells
apart. -/
namespace Schemata

def SchemaError.className : SchemaError → String
  | .conflict _ => "SchemaConflict"
  | .unsatisfiable _ _ _ => "UnsatisfiableSchema"
  | .shape _ => "InvalidTupleShape"
  | .definition _ => "DefinitionError"
  | .frozen _ => "RegistryFrozen"
  | .keyNotFound _ _ => "KeyNotFound"
  | .producer _ => "DefaultProducerError"

namespace Fault

/-- Name of the class that an error is raised as. -/
def className : Fault → String
  | .schema e => e.className
  | .config _ => "ConfigError"
  | .check (.pattern .malformed) => "PatternError"
  | .check (.pattern .repetitionTooLarge) => "OverflowError"
  | .check (.order _) => "TypeError"
  | .unhashable _ => "TypeError"
  | .invalidKey _ => "TypeError"
  | .uncopyable => "TypeError"
  | .noEntries _ => "AttributeError"
  | .logLevel (.noText _) => "AttributeError"
  | .logLevel (.unknownName _) => "ValueError"
  | .logLevel _ => "TypeError"
  | .raised e => e.kind
  | _ => "ValueError"

/-- Two errors of one class, and none of them says that an intersection is empty. -/
def Akin (e f : Fault) : Prop :=
  e.className = f.className ∧ e.isUnsatisfiable = false ∧ f.isUnsatisfiable = false

theorem Akin.refl {e : Fault} (h : e.isUnsatisfiable = false) : e.Akin e := ⟨rfl, h, h⟩

end Fault

theorem Quiet.akin {α : Type} {x : Except Fault α} (h : Quiet x) : Agree Fault.Akin (· = ·) x x := by
  apply Agree.refl
  · exact fun e he => .refl (h.isUnsatisfiable he)
  · exact fun _ => rfl

/-- Two outcomes with related outputs, both of an accepted value or both of a refused one. -/
structure Outcome.Like (V : Value → Value → Prop) (o p : Outcome) : Prop where
  output : V o.output p.output
  rebuilt : o.rebuilt = p.rebuilt
  isOk : o.isOk = p.isOk

theorem Outcome.Like.within {V : Value → Value → Prop} {o p : Outcome} (h : o.Like V p) (s t : Segment) :
    (o.within s).Like V (p.within t) :=
  ⟨h.output, h.rebuilt, by rw [isOk_within, isOk_within, h.isOk]⟩

/-- Refused values compare as they are, whatever is written about them. -/
theorem Outcome.Like.fail {V : Value → Value → Prop} {v w : Value} (h : V v w) (m m' c c' : String) (k k' : Code)
    (a a' : Value) : (Outcome.fail v m c k a).Like V (.fail w m' c' k' a') := ⟨h, rfl, rfl⟩

theorem Outcome.Like.failures {V : Value → Value → Prop} {o p : Outcome} (h : o.Like V p) :
    o.failures = [] ↔ p.failures = [] := by rw [← isOk_iff, ← isOk_iff, h.isOk]

/-- The two constraints answer alike on related values. -/
def Constraint.Like (hooks : Hooks) (V : Value → Value → Prop) (c d : Constraint) : Prop :=
  ∀ v w, V v w → Agree (fun e f => (Fault.check e).Akin (.check f)) (fun a b => a.isValid = b.isValid)
    (c.check hooks v) (d.check hooks w)

namespace Check

/-- The two checks answer alike on related values. -/
def Like (V : Value → Value → Prop) (c d : Check) : Prop :=
  ∀ visit v w, V v w → Agree Fault.Akin (Outcome.Like V) (c visit v) (d visit w)

variable {V : Value → Value → Prop} {hooks : Hooks}

theorem Like.inside {c d : Check} (h : c.Like V d) (s t : Segment) {visit : Visit} {v w : Value} (hv : V v w) :
    Agree Fault.Akin (Outcome.Like V) (c.inside s visit v) (d.inside t visit w) :=
  (h visit.renewed v w hv).map fun _ _ ho => ho.within s t

theorem constraintFailures_like {cs ds : List Constraint} (h : List.Forall₂ (Constraint.Like hooks V) cs ds)
    {v w : Value} (hv : V v w) : Agree Fault.Akin (fun fs gs => fs = [] ↔ gs = []) (constraintFailures hooks v cs)
      (constraintFailures hooks w ds) := by
  induction h with
  | nil => exact Iff.rfl
  | cons hc _ ih =>
    refine ((hc v w hv).mapError fun _ _ he => he).bind fun a b hab => ih.bind fun fs gs hfs => ?_
    show _ ++ _ = [] ↔ _ ++ _ = []
    rw [List.append_eq_nil_iff, List.append_eq_nil_iff, Failure.ofVerdict_eq_nil, Failure.ofVerdict_eq_nil, hab, hfs]

theorem Like.constrained {c d : Check} (h : c.Like V d) {cs ds : List Constraint}
    (hcs : List.Forall₂ (Constraint.Like hooks V) cs ds) :
    (Check.constrained hooks c cs).Like V (.constrained hooks d ds) := by
  intro visit v w hv
  refine (h visit v w hv).bind fun o p ho => ?_
  rw [← ho.isOk]
  split_ifs
  · refine (constraintFailures_like hcs ho.output).bind fun fs gs hfs => ⟨ho.output, ho.rebuilt, ?_⟩
    rw [Bool.eq_iff_iff, Outcome.isOk_iff, Outcome.isOk_iff]
    exact hfs
  · exact ho

theorem conjunction_like {cs ds : List Check} (h : List.Forall₂ (Like V) cs ds) :
    (conjunction cs).Like V (conjunction ds) := by
  induction h with
  | nil => exact fun _ _ _ hv => ⟨hv, rfl, rfl⟩
  | cons hc _ ih =>
    intro visit v w hv
    refine (hc visit v w hv).bind fun o p ho => ?_
    rw [← ho.rebuilt]
    refine (ih _ _ _ ho.output).bind fun o' p' ho' => ⟨ho'.output, ?_, ?_⟩
    · simp [ho'.rebuilt]
    · rw [Bool.eq_iff_iff, Outcome.isOk_iff, Outcome.isOk_iff, List.append_eq_nil_iff, List.append_eq_nil_iff,
        ho.failures, ho'.failures]

section Union

variable {domains : Schema → Except Fault (Option DomainSet)} {bs cs : List (Schema × Check)}

/-- Two branches of the same domains whose checks answer alike. -/
def Branch (domains : Schema → Except Fault (Option DomainSet)) (V : Value → Value → Prop)
    (b c : Schema × Check) : Prop := domains b.1 = domains c.1 ∧ b.2.Like V c.2

/-- Failures of two branches of the same domains. -/
def Attempt (domains : Schema → Except Fault (Option DomainSet)) (a b : Schema × List Failure) : Prop :=
  domains a.1 = domains b.1 ∧ a.2 ≠ [] ∧ b.2 ≠ []

theorem firstAccepting_like (h : List.Forall₂ (Branch domains V) bs cs) (visit : Visit) {v w : Value} (hv : V v w) :
    Agree Fault.Akin (fun a b => match a, b with
      | .inl o, .inl p => o.Like V p
      | .inr as, .inr bs => List.Forall₂ (Attempt domains) as bs
      | _, _ => False) (firstAccepting visit v bs) (firstAccepting visit w cs) := by
  induction h with
  | nil => exact .nil
  | @cons b c bs cs hbc _ ih =>
    obtain ⟨s, c₁⟩ := b
    obtain ⟨t, c₂⟩ := c
    refine (hbc.2 visit v w hv).bind fun o p ho => ?_
    have hok := ho.isOk
    cases hp : p.isOk with
    | true =>
      rw [hp] at hok
      rw [hok]
      exact ho
    | false =>
      rw [hp] at hok
      rw [hok]
      refine ih.bind fun a b hab => ?_
      cases a <;> cases b <;> dsimp only at hab ⊢
      · exact hab
      · refine .cons ⟨hbc.1, fun hnil => ?_, fun hnil => ?_⟩ hab
        · simp [Outcome.isOk_iff.mpr hnil] at hok
        · simp [Outcome.isOk_iff.mpr hnil] at hp

theorem matching_like (hquiet : ∀ s, Quiet (domains s)) (d : Domain) {as bs : List (Schema × List Failure)}
    (h : List.Forall₂ (Attempt domains) as bs) :
    Agree Fault.Akin (List.Forall₂ fun fs gs => fs ≠ [] ∧ gs ≠ []) (matching domains d as) (matching domains d bs) := by
  induction h with
  | nil => exact .nil
  | @cons a b as bs hab _ ih =>
    obtain ⟨s, fs⟩ := a
    obtain ⟨t, gs⟩ := b
    unfold matching
    rw [← show domains s = domains t from hab.1]
    refine (hquiet s).akin.bind fun ds _ hds => ?_
    subst hds
    refine ih.bind fun fss gss hfss => ?_
    show List.Forall₂ _ (if _ then _ else _) (if _ then _ else _)
    split_ifs
    · exact .cons hab.2 hfss
    · exact hfss

theorem union_like (hquiet : ∀ s, Quiet (domains s)) (h : List.Forall₂ (Branch domains V) bs cs)
    (hdomain : ∀ v w, V v w → v.domain = w.domain) :
    (union domains bs).Like V (union domains cs) := by
  intro visit v w hv
  refine (firstAccepting_like h visit hv).bind fun a b hab => ?_
  cases a <;> cases b <;> dsimp only at hab ⊢
  · exact hab
  · rw [hdomain v w hv]
    refine (matching_like hquiet _ hab).bind fun fss gss hfss => ?_
    cases hfss with
    | nil => exact ⟨hv, rfl, rfl⟩
    | cons hfg hrest =>
      cases hrest with
      | nil => exact ⟨hv, rfl, by rw [Bool.eq_iff_iff]; simp [Outcome.isOk, hfg.1, hfg.2]⟩
      | cons _ _ => exact ⟨hv, rfl, rfl⟩

end Union

section Containers

variable {config : Config} {es : List Entry}

/-- Two outputs under construction with the same entries, with or without failures. -/
def SameRebuilt (r s : Rebuilt) : Prop := r.entries = s.entries ∧ (r.failures = [] ↔ s.failures = [])

theorem SameRebuilt.append {r r' s s' : Rebuilt} (h : SameRebuilt r s) (h' : SameRebuilt r' s') :
    SameRebuilt (r.append r') (s.append s') := by
  refine ⟨?_, ?_⟩
  · show _ ++ _ = _ ++ _
    rw [h.1, h'.1]
  · show _ ++ _ = [] ↔ _ ++ _ = []
    rw [List.append_eq_nil_iff, List.append_eq_nil_iff, h.2, h'.2]

theorem sameRebuilt_item (key : Key) {o p : Outcome} (h : o.Like (· = ·) p) :
    SameRebuilt (.item key o) (.item key p) :=
  ⟨by simp [Rebuilt.item, h.output], h.failures⟩

/-- Two properties of one key and presence whose checks answer alike. -/
def SameProperty (p q : Property Check) : Prop :=
  p.key = q.key ∧ p.presence = q.presence ∧ p.value.Like (· = ·) q.value

theorem property_like {p q : Property Check} (h : SameProperty p q) (visit : Visit) :
    Agree Fault.Akin SameRebuilt (property config hooks visit es p) (property config hooks visit es q) := by
  obtain ⟨key, c, presence⟩ := p
  obtain ⟨key', d, presence'⟩ := q
  obtain ⟨rfl, rfl, hlike⟩ : key = key' ∧ presence = presence' ∧ c.Like (· = ·) d := h
  unfold property
  rw [show given? config es ⟨key, d, presence⟩ = given? config es ⟨key, c, presence⟩ from rfl]
  cases given? config es ⟨key, c, presence⟩ with
  | some e => exact (hlike.inside _ _ rfl).map fun _ _ ho => sameRebuilt_item key ho
  | none =>
    cases presence with
    | required => exact ⟨rfl, Iff.rfl⟩
    | optional => exact ⟨rfl, Iff.rfl⟩
    | defaultable producer =>
      refine Agree.map (R := Outcome.Like (· = ·)) ?_ fun _ _ ho => sameRebuilt_item key ho
      refine (producer.produce_quiet hooks (visit.depth + 1)).akin.bind fun v _ hv => ?_
      subst hv
      dsimp only
      split_ifs
      · exact hlike.inside _ _ rfl
      · exact ⟨rfl, rfl, rfl⟩

theorem properties_like {ps qs : List (Property Check)} (h : List.Forall₂ SameProperty ps qs) (visit : Visit) :
    Agree Fault.Akin SameRebuilt (properties config hooks visit es ps) (properties config hooks visit es qs) := by
  induction h with
  | nil => exact ⟨rfl, Iff.rfl⟩
  | cons hpq _ ih => exact (property_like hpq visit).bind fun _ _ hr => ih.bind fun _ _ hs => hr.append hs

/-- Two shapes of the same keys whose checks answer alike. -/
structure SameShape (s t : ObjectShape Check) : Prop where
  properties : List.Forall₂ SameProperty s.properties t.properties
  index : Option.Rel (fun i j : IndexSignature Check => i.key.Like (· = ·) j.key ∧ i.value.Like (· = ·) j.value)
    s.index t.index
  undeclared : s.undeclared = t.undeclared

theorem SameShape.declares {s t : ObjectShape Check} (h : SameShape s t) (key : Key) :
    s.declares key = t.declares key := by
  have any_eq : ∀ {ps qs : List (Property Check)}, List.Forall₂ SameProperty ps qs →
      (ps.any fun p => p.key == key) = qs.any fun q => q.key == key := by
    intro ps qs hpq
    induction hpq with
    | nil => rfl
    | cons hpq _ ih => simp only [List.any_cons, hpq.1, ih]
  exact any_eq h.properties

theorem undeclared_like {s t : ObjectShape Check} (h : SameShape s t) (visit : Visit) (e : Entry) :
    Agree Fault.Akin SameRebuilt (undeclared s visit e) (undeclared t visit e) := by
  have taken : Agree Fault.Akin (Option.Rel (Like (· = ·))) (indexTakes s.index visit e.key)
      (indexTakes t.index visit e.key) := by
    have hindex := h.index
    unfold indexTakes
    generalize s.index = i at hindex ⊢
    generalize t.index = j at hindex ⊢
    cases hindex with
    | none => exact .none
    | some hij =>
      refine ((hij.1 visit.renewed _ _ rfl).map fun _ _ ho => ho.isOk).bind fun a b hab => ?_
      subst hab
      cases a
      · exact .none
      · exact .some hij.2
  refine taken.bind fun i j hij => ?_
  cases hij with
  | some hlike => exact (hlike.inside _ _ rfl).map fun _ _ ho => sameRebuilt_item e.key ho
  | none =>
    dsimp only
    rw [← h.undeclared]
    cases s.undeclared <;> exact ⟨rfl, Iff.rfl⟩

theorem undeclaredAll_like {s t : ObjectShape Check} (h : SameShape s t) (visit : Visit) :
    Agree Fault.Akin SameRebuilt (undeclaredAll s visit es) (undeclaredAll t visit es) := by
  induction es with
  | nil => exact ⟨rfl, Iff.rfl⟩
  | cons e es ih =>
    unfold undeclaredAll
    rw [← h.declares]
    split_ifs
    · exact ih.bind fun _ _ hs => SameRebuilt.append ⟨rfl, Iff.rfl⟩ hs
    · exact (undeclared_like h visit e).bind fun _ _ hr => ih.bind fun _ _ hs => hr.append hs

theorem object_like {s t : ObjectShape Check} (h : SameShape s t) :
    (object config hooks s).Like (· = ·) (object config hooks t) := by
  rintro visit v _ rfl
  unfold object
  cases v.entries? with
  | none => exact ⟨rfl, rfl, rfl⟩
  | some raw =>
    dsimp only
    refine (properties_like h.properties visit).bind fun r r' hr => ?_
    refine (undeclaredAll_like h visit).bind fun u u' hu => ?_
    obtain ⟨hentries, hfailures⟩ := hr.append hu
    refine ⟨congrArg Value.mapping hentries, rfl, ?_⟩
    rw [Bool.eq_iff_iff, Outcome.isOk_iff, Outcome.isOk_iff, List.append_eq_nil_iff, List.append_eq_nil_iff, hfailures]

/-- Two elements of one role whose checks answer alike. -/
def SameElement (e f : Element Check) : Prop := e.role = f.role ∧ e.value.Like (· = ·) f.value

theorem fixedElements_like {es fs : List (Element Check)} (h : List.Forall₂ SameElement es fs) (visit : Visit)
    (i : Nat) (items : List Value) :
    Agree Fault.Akin (List.Forall₂ (Outcome.Like (· = ·))) (fixedElements config hooks visit i es items)
      (fixedElements config hooks visit i fs items) := by
  induction h generalizing i items with
  | nil => cases items <;> exact .nil
  | @cons e f es fs hef _ ih =>
    cases items with
    | cons v vs =>
      exact (hef.2.inside _ _ rfl).bind fun _ _ ho => (ih (i + 1) vs).bind fun _ _ hos => .cons ho hos
    | nil =>
      unfold fixedElements
      rw [← hef.1]
      cases e.role with
      | defaultable producer =>
        refine Agree.bind (R := Outcome.Like (· = ·)) ?_ fun _ _ ho => (ih (i + 1) []).bind fun _ _ hos => .cons ho hos
        refine (producer.produce_quiet hooks (visit.depth + 1)).akin.bind
          fun v _ hv => ?_
        subst hv
        split_ifs
        · exact hef.2.inside _ _ rfl
        · exact ⟨rfl, rfl, rfl⟩
      | _ => exact .nil

theorem repeatedElement_like {c d : Check} (h : c.Like (· = ·) d) (visit : Visit) (i : Nat) (items : List Value) :
    Agree Fault.Akin (List.Forall₂ (Outcome.Like (· = ·))) (repeatedElement c visit i items)
      (repeatedElement d visit i items) := by
  induction items generalizing i with
  | nil => exact .nil
  | cons v vs ih => exact (h.inside _ _ rfl).bind fun _ _ ho => (ih (i + 1)).bind fun _ _ hos => .cons ho hos

theorem trailingElements_like {es fs : List (Element Check)} (h : List.Forall₂ SameElement es fs) (visit : Visit)
    (i : Nat) (items : List Value) :
    Agree Fault.Akin (List.Forall₂ (Outcome.Like (· = ·))) (trailingElements visit i es items)
      (trailingElements visit i fs items) := by
  induction h generalizing i items with
  | nil => cases items <;> exact .nil
  | cons hef _ ih =>
    cases items with
    | nil => exact .nil
    | cons v vs =>
      exact (hef.2.inside _ _ rfl).bind fun _ _ ho => (ih (i + 1) vs).bind fun _ _ hos => .cons ho hos

section Parts

variable {es fs : List (Element Check)} (h : List.Forall₂ SameElement es fs)
include h

theorem filter_like (p : Nat → Bool) :
    List.Forall₂ SameElement (es.filter fun e => p e.role.rank) (fs.filter fun f => p f.role.rank) := by
  refine List.rel_filter (R := SameElement) ?_ h
  intro e f hef
  simp [hef.1]

theorem variadic?_like : Option.Rel SameElement (Element.variadic? es) (Element.variadic? fs) := by
  induction h with
  | nil => exact .none
  | @cons e f es fs hef _ ih =>
    simp only [Element.variadic?, List.find?_cons] at ih ⊢
    rw [hef.1]
    cases f.role.isVariadic
    · exact ih
    · exact .some hef

theorem elements_like (visit : Visit) (items : List Value) :
    Agree Fault.Akin (List.Forall₂ (Outcome.Like (· = ·))) (elements config hooks es visit items)
      (elements config hooks fs visit items) := by
  have hfixed : List.Forall₂ SameElement (Element.fixed es) (Element.fixed fs) := filter_like h fun n => n < 3
  have htrailing : List.Forall₂ SameElement (Element.trailing es) (Element.trailing fs) :=
    filter_like h fun n => n == 4
  have hvariadic := variadic?_like h
  unfold elements
  dsimp only
  rw [← hfixed.length_eq, ← htrailing.length_eq]
  refine (fixedElements_like hfixed visit 0 _).bind fun head head' hhead => ?_
  generalize Element.variadic? es = e at hvariadic ⊢
  generalize Element.variadic? fs = f at hvariadic ⊢
  cases hvariadic with
  | none => exact hhead
  | some hef =>
    refine (repeatedElement_like hef.2 visit _ _).bind fun middle middle' hmiddle => ?_
    exact (trailingElements_like htrailing visit _ _).bind fun tail tail' htail =>
      List.rel_append (List.rel_append hhead hmiddle) htail

theorem tuple_like (shape shape' : List (Element Schema)) :
    (tuple config hooks shape es).Like (· = ·) (tuple config hooks shape' fs) := by
  rintro visit v _ rfl
  have hlike : List.Forall₂ (Element.Like fun _ _ => True) es fs := h.imp fun e f hef => ⟨by rw [hef.1], trivial⟩
  unfold tuple
  cases v.items? with
  | none => exact .fail rfl _ _ _ _ _ _ _ _
  | some pair =>
    obtain ⟨q, items⟩ := pair
    have hfits : lengthFits es items.length = lengthFits fs items.length := by
      rw [Bool.eq_iff_iff, lengthFits_iff, lengthFits_iff]
      exact Element.admits_like hlike
    dsimp only
    rw [← hfits]
    split_ifs
    · refine (elements_like h visit items).bind fun os ps hos => ?_
      have houtputs : Outcome.outputs os = Outcome.outputs ps := by
        rw [Outcome.outputs, Outcome.outputs, ← List.forall₂_eq_eq_eq, List.forall₂_map_left_iff,
          List.forall₂_map_right_iff]
        exact hos.imp fun _ _ ho => ho.output
      have hempty : os.isEmpty = ps.isEmpty := by cases hos <;> rfl
      refine ⟨congrArg q.make houtputs, by rw [hempty], ?_⟩
      rw [Bool.eq_iff_iff, Outcome.isOk_iff, Outcome.isOk_iff, Outcome.allFailures_eq_nil, Outcome.allFailures_eq_nil]
      exact forall₂_all_iff hos fun o _ p _ hop => by rw [hop.isOk]
    · exact Outcome.Like.fail rfl _ _ _ _ _ _ _ _

end Parts

end Containers

end Check

/-- Schemas that are alike answer alike on values that `V` relates: nothing in them tells such values apart, and
containers are related only to themselves, and only under one configuration. -/
structure Likeness.Suits (l : Likeness) (env : Env) (config config' : Config) (V : Value → Value → Prop) : Prop where
  keyword : ∀ v w, V v w → ∀ k : Keyword, k.holds v = k.holds w
  domain : ∀ v w, V v w → v.domain = w.domain
  literal : ∀ a b, l.literal a b → ∀ v w, V v w →
    ((v.domain = a.domain ∧ a.literalEqual v = true) ↔ (w.domain = b.domain ∧ b.literalEqual w = true))
  literals : ∀ a b, l.literal a b → a.domain = b.domain
  constraint : ∀ c d, l.constraint c d → c.Like env.hooks V d
  containers : (∀ v w, V v w → v.isScalar = true ∧ w.isScalar = true) ∨
    V = (· = ·) ∧ config = config' ∧ ∀ p q, l.default p q → p = q

namespace Schema

variable {l : Likeness} {env : Env} {config config' : Config} {V : Value → Value → Prop} {s t : Schema}

theorem domainsWith_alike (hl : ∀ a b, l.literal a b → a.domain = b.domain)
    (follow : Ref → Except Fault (Option DomainSet)) (h : Alike l s t) :
    s.domainsWith follow = t.domainsWith follow := by
  refine Alike.induct (P := fun s t => s.domainsWith follow = t.domainsWith follow) (fun s t hf hparts => ?_) h
  have union : ∀ {bs cs : List Schema},
      List.Forall₂ (fun a b => Alike l a b ∧ a.domainsWith follow = b.domainsWith follow) bs cs →
      unionDomains follow bs = unionDomains follow cs := by
    intro bs cs h
    induction h with
    | nil => rfl
    | cons hbc _ ih => rw [unionDomains, unionDomains, hbc.2, ih]
  have members : ∀ {bs cs : List Schema},
      List.Forall₂ (fun a b => Alike l a b ∧ a.domainsWith follow = b.domainsWith follow) bs cs →
      memberDomains follow bs = memberDomains follow cs := by
    intro bs cs h
    induction h with
    | nil => rfl
    | cons hbc _ ih => rw [memberDomains, memberDomains, hbc.2, ih]
  cases s <;> cases t <;> simp only [Form] at hf
  case keyword.keyword => rw [hf]
  case literal.literal => rw [domainsWith, domainsWith, hl _ _ hf]
  case constrained.constrained => exact (List.forall₂_cons.mp hparts).1.2
  case union.union => exact union hparts
  case intersection.intersection ms ns =>
    have hmembers : memberDomains follow ms = memberDomains follow ns := members hparts
    rw [domainsWith, domainsWith, hmembers]
  case ref.ref => rw [hf.1]
  case object.object => rfl
  case tuple.tuple => rfl

theorem domains?_alike (hl : ∀ a b, l.literal a b → a.domain = b.domain) (h : Alike l s t) :
    env.domains? s = env.domains? t := domainsWith_alike hl _ h

/-- What follows references alike checks schemas alike that are alike. -/
theorem checkWith_alike (hl : l.Suits env config config' V) {follow follow' : Ref → Check}
    (hfollow : ∀ r, l.named r → (follow r).Like V (follow' r)) (h : Alike l s t) :
    (s.checkWith env config follow).Like V (t.checkWith env config' follow') := by
  refine Alike.induct (P := fun s t => (s.checkWith env config follow).Like V (t.checkWith env config' follow'))
    (fun s t hf hparts => ?_) h
  cases s <;> cases t <;> simp only [Form] at hf
  case keyword.keyword k k' =>
    subst hf
    intro visit v w hv
    refine ⟨hv, rfl, ?_⟩
    rw [Bool.eq_iff_iff, Check.keyword_isOk, Check.keyword_isOk, hl.keyword v w hv]
  case literal.literal a b =>
    intro visit v w hv
    have hiff := hl.literal a b hf v w hv
    unfold checkWith Check.literal
    by_cases hyes : v.domain = a.domain ∧ a.literalEqual v = true
    · rw [if_pos hyes, if_pos (hiff.mp hyes)]
      exact ⟨hv, rfl, rfl⟩
    · rw [if_neg hyes, if_neg (fun h => hyes (hiff.mpr h))]
      exact ⟨hv, rfl, rfl⟩
  case constrained.constrained a cs b ds =>
    exact (List.forall₂_cons.mp hparts).1.2.constrained (hf.imp fun c d => hl.constraint c d)
  case union.union bs cs =>
    rw [checkWith, checkWith, branchChecks_eq, branchChecks_eq]
    refine Check.union_like env.domains?_quiet ?_ hl.domain
    rw [List.forall₂_map_left_iff, List.forall₂_map_right_iff]
    exact hparts.imp fun a b hab => ⟨domains?_alike hl.literals hab.1, hab.2⟩
  case intersection.intersection bs cs =>
    rw [checkWith, checkWith, memberChecks_eq, memberChecks_eq]
    refine Check.conjunction_like ?_
    rw [List.forall₂_map_left_iff, List.forall₂_map_right_iff]
    exact hparts.imp fun a b hab => hab.2
  case ref.ref r q =>
    obtain ⟨rfl, hr⟩ := hf
    exact hfollow r hr
  case object.object o q =>
    obtain ⟨ps, i, u⟩ := o
    obtain ⟨qs, j, w⟩ := q
    rcases hl.containers with hscalar | ⟨rfl, rfl, hdefault⟩
    · intro visit v w hv
      obtain ⟨hv', hw'⟩ := hscalar v w hv
      rw [checkWith, checkWith, Check.object, Check.object, Value.entries_of_scalar hv', Value.entries_of_scalar hw']
      exact ⟨hv, rfl, rfl⟩
    · obtain ⟨hprops, hindex, hpolicy⟩ := hf
      obtain ⟨hvalues, hsignature⟩ := (forall₂_object_parts hprops.length_eq hindex).mp hparts
      rw [checkWith, checkWith, propertyChecks_eq, propertyChecks_eq]
      refine Check.object_like ⟨?_, ?_, hpolicy⟩
      · rw [List.forall₂_map_left_iff, List.forall₂_map_right_iff]
        exact (forall₂_and hprops hvalues).imp fun p q h =>
          ⟨h.1.1, Likeness.presence_eq hdefault h.1.2, h.2.2⟩
      · cases hsignature with
        | none => exact .none
        | some h => exact .some ⟨h.1.2, h.2.2⟩
  case tuple.tuple es fs =>
    rcases hl.containers with hscalar | ⟨rfl, rfl, hdefault⟩
    · intro visit v w hv
      obtain ⟨hv', hw'⟩ := hscalar v w hv
      rw [checkWith, checkWith, Check.tuple, Check.tuple, Value.items_of_scalar hv', Value.items_of_scalar hw']
      exact ⟨hv, rfl, rfl⟩
    · rw [checkWith, checkWith, elementChecks_eq, elementChecks_eq]
      refine Check.tuple_like ?_ _ _
      rw [List.forall₂_map_left_iff, List.forall₂_map_right_iff]
      have hvalues := List.forall₂_map_left_iff.mp (List.forall₂_map_right_iff.mp hparts)
      exact (forall₂_and hf hvalues).imp fun e f h => ⟨Likeness.role_eq hdefault h.1, h.2.2⟩

end Schema

namespace Env

variable {l : Likeness} {env : Env} {config config' : Config} {V : Value → Value → Prop} {s t : Schema}

theorem identity_of_suits (hl : l.Suits env config config' V) {v w : Value} (h : V v w) :
    v.identity? = w.identity? := by
  rcases hl.containers with hscalar | ⟨rfl, -⟩
  · obtain ⟨hv, hw⟩ := hscalar v w h
    have none : ∀ {x : Value}, x.isScalar = true → x.identity? = none := by
      intro x hx
      cases x <;> simp [Value.isScalar, Value.identity?] at hx ⊢
    rw [none hv, none hw]
  · rw [h]

theorem enter?_alike {v w : Value} (h : v.identity? = w.identity?) (visit : Visit) (r : Ref) :
    visit.enter? r v = visit.enter? r w := by
  unfold Visit.enter?
  rw [h]

/-- Schemas that are alike are checked alike through references, when what stands behind the references is alike
itself. -/
theorem checkWithin_alike (hl : l.Suits env config config' V)
    (hstored : ∀ r t, l.named r → env.resolve r = .ok t → Schema.Alike l t t) (n : Nat) (h : Schema.Alike l s t) :
    (env.checkWithin config n s).Like V (env.checkWithin config' n t) := by
  induction n generalizing s t with
  | zero => exact Schema.checkWith_alike hl (fun r _ visit v w hv => ⟨hv, rfl, rfl⟩) h
  | succ n ih =>
    refine Schema.checkWith_alike hl (fun r hr visit v w hv => ?_) h
    cases hres : env.resolve r with
    | error e => exact Fault.Akin.refl ((env.resolve_quiet r).isUnsatisfiable hres)
    | ok t =>
      simp only [bind, Except.bind, enter?_alike (identity_of_suits hl hv)]
      cases visit.enter? r w with
      | none => exact ⟨hv, rfl, rfl⟩
      | some inner => exact ih (hstored r t hr hres) inner v w hv

/-- Schemas that are alike are checked alike. Where references may stand in them, as many are followed on both
sides. -/
theorem check_alike (hl : l.Suits env config config' V)
    (hnamed : ∀ r, l.named r → config.maxDepth = config'.maxDepth ∧ ∀ t, env.resolve r = .ok t → Schema.Alike l t t)
    (h : Schema.Alike l s t) : (env.check config s).Like V (env.check config' t) := by
  rw [check_eq, check_eq]
  refine Schema.checkWith_alike hl (fun r hr => ?_) h
  have hstored : ∀ r t, l.named r → env.resolve r = .ok t → Schema.Alike l t t := fun r t hr => (hnamed r hr).2 t
  have hself : (env.checkWithin config config.maxDepth (.ref r)).Like V
      (env.checkWithin config' config.maxDepth (.ref r)) :=
    checkWithin_alike hl hstored _ (.of_parts ⟨rfl, hr⟩ .nil)
  unfold follow
  rw [← (hnamed r hr).1]
  cases hdepth : config.maxDepth with
  | zero => rwa [hdepth] at hself
  | succ n => rwa [hdepth] at hself

/-- Schemas that are alike accept alike. -/
theorem accepts_alike (hl : l.Suits env config config' V)
    (hnamed : ∀ r, l.named r → config.maxDepth = config'.maxDepth ∧ ∀ t, env.resolve r = .ok t → Schema.Alike l t t)
    (h : Schema.Alike l s t) {v w : Value} (hv : V v w) :
    Agree Fault.Akin (· = ·) (env.accepts config s v) (env.accepts config' t w) :=
  (check_alike hl hnamed h .root v w hv).map fun _ _ ho => ho.isOk

end Env

end Schemata
