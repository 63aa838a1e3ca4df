import Schemata.Proofs.Algebra.SpelledMeets

/-! What results have in common with the results that they are put together from. A property `P` of schemas and a property
`D` of defaults are followed through the intersection of two objects, of two tuples, and of any two schemas that are no
references or unions. Mismatches are among the errors of `Q`, with whatever trial runs, domains and subset tests stop
with. -/
namespace Schemata

/-- A result, if there is one, satisfies `P`. -/
theorem Except.ends_ok {α : Type} (x : Except Fault α) : Ends x (fun a => x = .ok a) fun _ => True := by
  cases x with
  | ok a => exact rfl
  | error e => trivial

/-- Nothing is asked of results and errors. -/
theorem Except.ends_any {α : Type} (x : Except Fault α) : Ends x (fun _ => True) fun _ => True :=
  (Except.ends_ok x).mono (fun _ _ => trivial) fun _ h => h

/-- The error is that of two schemas that do not go together, or have no value in common. -/
def SchemaError.isMismatch : SchemaError → Bool
  | .conflict _ => true
  | .unsatisfiable _ _ _ => true
  | _ => false

/-- The property's schema satisfies `P` and its default, if it has one, `D`. -/
structure Property.Made (P : Schema → Prop) (D : Producer → Prop) (p : Property Schema) : Prop where
  value : P p.value
  default : ∀ d, p.presence.default? = some d → D d

/-- The element's schema satisfies `P` and its default, if it has one, `D`. -/
structure Element.Made (P : Schema → Prop) (D : Producer → Prop) (e : Element Schema) : Prop where
  value : P e.value
  default : ∀ d, e.role.default? = some d → D d

/-- A default that two properties agree on is that of one of them. -/
theorem Presence.default_of_meet {p q r : Presence} {d : Producer} (h : p.meet? q = some r) (hd : r.default? = some d) :
    p.default? = some d ∨ q.default? = some d := by
  cases p <;> cases q <;> simp only [meet?, Option.some.injEq, Option.ite_none_right_eq_some] at h
  case defaultable.defaultable => exact Or.inl (h.2 ▸ hd)
  all_goals subst h
  all_goals first | exact Or.inl hd | exact Or.inr hd

variable {admits : Schema → Value → Except Fault Bool} {meet : Schema → Schema → Compose Schema} {P : Schema → Prop}
  {D : Producer → Prop} {Q : Fault → Prop}

theorem Compose.Yields.kept {s t : Schema} {optional : Bool} (hnever : P .never) (h : (meet s t).Yields P Q) :
    (Compose.place meet s t optional).Yields P Q :=
  Compose.Yields.place h (fun _ h => h) (fun _ _ _ _ => hnever) fun _ he _ => he

variable (hmismatch : ∀ e, e.isMismatch = true → Q (.schema e)) (hnever : P .never)

include hmismatch

namespace ObjectShape

variable {a b : ObjectShape Schema} {p q : Property Schema}

/-- Two index signatures of one key keep it, and their schemas meet. -/
theorem meetIndex_made {I : IndexSignature Schema → Prop} {i j : Option (IndexSignature Schema)}
    (hi : ∀ k, i = some k → I k) (hj : ∀ k, j = some k → I k)
    (hmeet : ∀ k l, i = some k → j = some l → (meet k.value l.value).Yields (fun s => I ⟨k.key, s⟩) Q) :
    (meetIndex meet i j).Yields (fun o => ∀ k, o = some k → I k) Q := by
  cases i with
  | none => exact .pure hj
  | some i =>
    cases j with
    | none => exact .pure hi
    | some j =>
      unfold meetIndex
      dsimp only
      split_ifs
      · refine (hmeet i j rfl rfl).bind fun s hs => .pure fun k hk => ?_
        obtain rfl := Option.some.inj hk
        exact hs
      · exact .throw (hmismatch _ rfl)

include hnever

theorem meetUndeclared_made (hadmits : ∀ i, b.index = some i → Ends (admits i.key p.key.toValue) (fun _ => True) Q)
    (hp : p.Made P D) (hmeet : ∀ i, b.index = some i → (meet p.value i.value).Yields P Q) :
    (meetUndeclared admits meet a b p).Yields (Property.Made P D) Q := by
  have indexed : ∀ value : Schema, (meet p.value value).Yields P Q → Compose.Yields (do
      let met ← Compose.place meet p.value value p.presence.isOptional
      pure (if met.same p.value then p else { p with value := met })) (Property.Made P D) Q := by
    refine fun value hvalue => (Compose.Yields.kept hnever hvalue).bind fun met hmet => .pure ?_
    split_ifs
    · exact hp
    · exact ⟨hmet, hp.default⟩
  have unindexed : Compose.Yields (if b.undeclared = .reject then
        if p.presence.isRequired then Compose.unsatisfiable (.object a) (.object b) (.rejectedRequired p.key)
        else pure (if Schema.never.same p.value then p else { p with value := .never })
      else pure p) (Property.Made P D) Q := by
    split_ifs
    · exact .throw (hmismatch _ rfl)
    · exact .pure hp
    · exact .pure ⟨hnever, hp.default⟩
    · exact .pure hp
  unfold meetUndeclared
  cases hi : b.index with
  | none => exact unindexed
  | some i =>
    refine Compose.Yields.bind (.lift (hadmits i hi)) fun taken _ => ?_
    cases taken with
    | false => exact unindexed
    | true => exact indexed i.value (hmeet i hi)

theorem meetDeclared_made (hp : p.Made P D) (hq : q.Made P D) (hmeet : (meet p.value q.value).Yields P Q) :
    (meetDeclared meet p q).Yields (Property.Made P D) Q := by
  unfold meetDeclared
  split_ifs
  · exact .pure hp
  · cases hpresence : p.presence.meet? q.presence with
    | none => exact .throw (hmismatch _ rfl)
    | some presence =>
      refine (Compose.Yields.kept hnever hmeet).bind fun met hmet => .pure ⟨hmet, fun d hd => ?_⟩
      rcases Presence.default_of_meet hpresence hd with hd | hd
      · exact hp.default d hd
      · exact hq.default d hd

/-- The objects' properties meet or stay. -/
theorem meetShapes_made {I : Option (IndexSignature Schema) → Prop} (hindex : (meetIndex meet a.index b.index).Yields I Q)
    (ha : ∀ p ∈ a.properties, p.Made P D) (hb : ∀ q ∈ b.properties, q.Made P D)
    (hadmits : ∀ i, a.index = some i ∨ b.index = some i → ∀ v, Ends (admits i.key v) (fun _ => True) Q)
    (hboth : ∀ p ∈ a.properties, ∀ q ∈ b.properties, (meet p.value q.value).Yields P Q)
    (hfirst : ∀ p ∈ a.properties, ∀ i, b.index = some i → (meet p.value i.value).Yields P Q)
    (hsecond : ∀ q ∈ b.properties, ∀ i, a.index = some i → (meet q.value i.value).Yields P Q) :
    (meetShapes admits meet a b).Yields (fun o => I o.index ∧ (∀ r ∈ o.properties, r.Made P D) ∧
      o.properties.length ≤ a.properties.length + b.properties.length) Q := by
  refine (meetShapes_yields (R := fun _ => Property.Made P D) hindex
    (fun p hp _ => meetUndeclared_made hmismatch hnever (fun i hi => hadmits i (Or.inr hi) _) (ha p hp) (hfirst p hp))
    (fun p hp q hq _ => meetDeclared_made hmismatch hnever (ha p hp) (hb q hq) (hboth p hp q hq))
    fun q hq _ => meetUndeclared_made hmismatch hnever (fun i hi => hadmits i (Or.inl hi) _) (hb q hq) (hsecond q hq)).mono
      ?_ fun _ h => h
  rintro o ⟨hI, -, hproperties⟩
  refine ⟨hI, fun r hr => ?_, ?_⟩
  · obtain ⟨p, -, h⟩ := forall₂_exists_right hproperties hr
    exact h
  · rw [← hproperties.length_eq, List.length_append]
    exact Nat.add_le_add_left (List.length_filter_le _ _) _

end ObjectShape

namespace Element

variable {es fs : List (Element Schema)}

omit hmismatch in
include hnever in
theorem meetAs_made {e : Element Schema} {s t : Schema} (he : ∀ d, e.role.default? = some d → D d)
    (h : (meet s t).Yields P Q) : (meetAs meet e s t).Yields (Element.Made P D) Q :=
  (Compose.Yields.kept hnever h).bind fun _ h => .pure ⟨h, he⟩

include hnever

theorem meetPairwise_made (hes : ∀ e ∈ es, ∀ d, e.role.default? = some d → D d)
    (hmeet : ∀ e ∈ es, ∀ f ∈ fs, (meet e.value f.value).Yields P Q) :
    (meetPairwise meet es fs).Yields (fun gs => (∀ g ∈ gs, g.Made P D) ∧ gs.length ≤ es.length) Q := by
  induction es generalizing fs with
  | nil => exact .pure (by simp)
  | cons e es ih =>
    cases fs with
    | nil => exact .pure (by simp)
    | cons f fs =>
      rw [List.forall_mem_cons] at hes
      unfold meetPairwise
      split_ifs
      · refine (meetAs_made hnever hes.1 (hmeet e (by simp) f (by simp))).bind fun g hg => ?_
        refine (ih hes.2 fun e he f hf => hmeet e (by simp [he]) f (by simp [hf])).bind fun gs hgs => .pure ?_
        exact ⟨List.forall_mem_cons.mpr ⟨hg, hgs.1⟩, by simpa using hgs.2⟩
      · exact .throw (hmismatch _ rfl)

/-- Tuples meet in one with no more elements, or stay apart. -/
theorem meetTuples_made (hes : ∀ e ∈ es, ∀ d, e.role.default? = some d → D d)
    (hfs : ∀ f ∈ fs, ∀ d, f.role.default? = some d → D d)
    (hmeet : ∀ e ∈ es, ∀ f ∈ fs, (meet e.value f.value).Yields P Q) :
    (meetTuples meet es fs).Yields (fun c => c = .intersection [.tuple es, .tuple fs] ∨
      ∃ gs, c = .tuple gs ∧ (∀ g ∈ gs, g.Made P D) ∧ gs.length ≤ es.length + fs.length) Q := by
  have each : ∀ (left right : Element Schema → Schema) (gs : List (Element Schema)), gs.length ≤ es.length + fs.length →
      (∀ g ∈ gs, (∀ d, g.role.default? = some d → D d) ∧ (meet (left g) (right g)).Yields P Q) →
      Compose.Yields (do pure (Schema.tuple (← gs.mapM fun g => meetAs meet g (left g) (right g)))) (fun c =>
        c = .intersection [.tuple es, .tuple fs] ∨
          ∃ gs, c = .tuple gs ∧ (∀ g ∈ gs, g.Made P D) ∧ gs.length ≤ es.length + fs.length) Q := by
    intro left right gs hlength hgs
    refine (Compose.Yields.mapM (R := fun _ => Element.Made P D) fun g hg =>
      meetAs_made hnever (hgs g hg).1 (hgs g hg).2).bind
      fun hs h => .pure (Or.inr ⟨hs, rfl, fun e he => ?_, h.length_eq ▸ hlength⟩)
    obtain ⟨_, -, h⟩ := forall₂_exists_right h he
    exact h
  have element : ∀ {gs : List (Element Schema)} {g : Element Schema}, array? gs = some g → gs = [g] := fun h =>
    (array?_eq_some h).1
  unfold meetTuples
  by_cases hlengths : disjointLengths es fs = true
  · rw [if_pos hlengths]
    exact .throw (hmismatch _ rfl)
  · rw [if_neg hlengths]
    cases he : array? es with
    | some e =>
      obtain rfl := element he
      cases hf : array? fs with
      | some f =>
        obtain rfl := element hf
        refine (hmeet e (by simp) f (by simp)).bind fun s hs => .pure (Or.inr ⟨_, rfl, ?_, by simp⟩)
        exact List.forall_mem_singleton.mpr ⟨hs, nofun⟩
      | none =>
        exact each (fun _ => e.value) (·.value) fs (by simp) fun f hf => ⟨hfs f hf, hmeet e (by simp) f hf⟩
    | none =>
      cases hf : array? fs with
      | some f =>
        obtain rfl := element hf
        exact each (·.value) (fun _ => f.value) es (by simp) fun e he => ⟨hes e he, hmeet e he f (by simp)⟩
      | none =>
        dsimp only
        split_ifs
        · refine (meetPairwise_made hmismatch hnever hes hmeet).bind fun gs hgs => .pure (Or.inr ⟨gs, rfl, hgs.1, ?_⟩)
          exact hgs.2.trans (Nat.le_add_right _ _)
        · exact .pure (Or.inl rfl)

end Element

namespace Env

variable {env : Env} {a b : Schema}

theorem unlessDisjoint_made {x : Compose Schema} (hdomains : ∀ s, Ends (env.domains? s) (fun _ => True) Q)
    (hx : x.Yields P Q) : (env.unlessDisjoint a b x).Yields P Q := by
  unfold unlessDisjoint
  refine Compose.Yields.bind (.lift (hdomains a)) fun left _ => ?_
  refine Compose.Yields.bind (.lift (hdomains b)) fun right _ => ?_
  dsimp only
  split_ifs
  · exact .throw (hmismatch _ rfl)
  · exact hx

theorem meetLiteral_made {v : Value} (ha : P a) (hadmits : Ends (env.admits b v) (fun _ => True) Q) :
    (env.meetLiteral a v b).Yields P Q := by
  unfold meetLiteral
  refine Compose.Yields.bind (.lift hadmits) fun passes _ => ?_
  cases passes with
  | true => exact .pure ha
  | false => exact .throw (hmismatch _ rfl)

omit hmismatch in
/-- One of two keywords is the result, or both are. -/
theorem meetKeywords_made {k l : Keyword}
    (hsubset : ∀ k j, Ends (env.isSubset (.keyword k) (.keyword j)) (fun _ => True) Q) (hk : P (.keyword k))
    (hl : P (.keyword l)) (hboth : P (.intersection [.keyword k, .keyword l])) :
    Compose.Yields (do
      if ← env.isSubset (.keyword k) (.keyword l) then pure (.keyword k)
      else if ← env.isSubset (.keyword l) (.keyword k) then pure (.keyword l)
      else pure (.intersection [.keyword k, .keyword l])) P Q := by
  refine Compose.Yields.bind (.lift (hsubset k l)) fun below _ => ?_
  cases below with
  | true => exact .pure hk
  | false =>
    refine Compose.Yields.bind (.lift (hsubset l k)) fun above _ => ?_
    cases above with
    | true => exact .pure hl
    | false => exact .pure hboth

/-- A property of all the forms that the intersection of two schemas can take, if neither is a reference or a union. -/
theorem meetPlain_made (ha : P a) (hb : P b) (hapart : P (.intersection [a, b]))
    (hgathered : P (.intersection (Schema.distinct (a.members ++ b.members))))
    (hdomains : ∀ s, Ends (env.domains? s) (fun _ => True) Q)
    (hadmits : ∀ v, Ends (env.admits a v) (fun _ => True) Q ∧ Ends (env.admits b v) (fun _ => True) Q)
    (hsubset : ∀ k j, Ends (env.isSubset (.keyword k) (.keyword j)) (fun _ => True) Q)
    (hconstrained : (meetConstrained meet a b).Yields P Q)
    (hobject : ∀ o u, a = .object o → b = .object u →
      Compose.Yields (do env.makeObject (← ObjectShape.meetShapes env.admits meet o u)) P Q)
    (htuple : ∀ es fs, a = .tuple es → b = .tuple fs → (Element.meetTuples meet es fs).Yields P Q) :
    (env.meetPlain meet a b).Yields P Q := by
  have step : ∀ {x : Compose Schema}, x.Yields P Q → (env.unlessDisjoint a b x).Yields P Q :=
    unlessDisjoint_made hmismatch hdomains
  have literal : ∀ {s t : Schema} {v : Value}, P s → Ends (env.admits t v) (fun _ => True) Q →
      (env.meetLiteral s v t).Yields P Q := meetLiteral_made hmismatch
  cases a with
  | intersection ms => exact step (.pure hgathered)
  | literal v =>
    cases b with
    | intersection ms => exact step (.pure hgathered)
    | _ => exact step (literal ha (hadmits v).2)
  | constrained base cs =>
    cases b with
    | intersection ms => exact step (.pure hgathered)
    | literal v => exact step (literal hb (hadmits v).1)
    | _ => exact step hconstrained
  | object o =>
    cases b with
    | intersection ms => exact step (.pure hgathered)
    | literal v => exact step (literal hb (hadmits v).1)
    | constrained base cs => exact step hconstrained
    | object u => exact step (hobject o u rfl rfl)
    | keyword k => exact step (.pure ha)
    | _ => exact step (.pure hapart)
  | tuple es =>
    cases b with
    | intersection ms => exact step (.pure hgathered)
    | literal v => exact step (literal hb (hadmits v).1)
    | constrained base cs => exact step hconstrained
    | tuple fs => exact step (htuple es fs rfl rfl)
    | keyword k => exact step (.pure ha)
    | _ => exact step (.pure hapart)
  | keyword k =>
    cases b with
    | intersection ms => exact step (.pure hgathered)
    | literal v => exact step (literal hb (hadmits v).1)
    | constrained base cs => exact step hconstrained
    | keyword j => exact step (meetKeywords_made hsubset ha hb hapart)
    | _ => exact step (.pure hb)
  | _ =>
    cases b with
    | intersection ms => exact step (.pure hgathered)
    | literal v => exact step (literal hb (hadmits v).1)
    | constrained base cs => exact step hconstrained
    | keyword k => exact step (.pure ha)
    | _ => exact step (.pure hapart)

end Env
end Schemata
