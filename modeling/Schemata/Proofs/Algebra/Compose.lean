import Mathlib.Data.List.Forall2
import Schemata.Algebra.Intersection
import Schemata.Proofs.Algebra.Shapes
import Schemata.Proofs.Runs

/-! Rules for computations that compose schemas: what their results satisfy and what their errors satisfy,
whatever was noted before. -/
namespace Schemata
namespace Compose

variable {α β : Type} {P P' : α → Prop} {Q Q' : Fault → Prop}

/-- Every result satisfies `P` and every error `Q`. -/
def Yields (x : Compose α) (P : α → Prop) (Q : Fault → Prop) : Prop := ∀ met, Ends (x.run met).1 P Q

theorem bind_run (x : StateM Bool α) (g : α → StateM Bool β) (met : Bool) :
    (x >>= g) met = g (x met).1 (x met).2 := rfl

namespace Yields

theorem pure {a : α} (h : P a) : Yields (Pure.pure a) P Q := fun _ => h

theorem throw {e : Fault} (h : Q e) : Yields (MonadExcept.throw e) P Q := fun _ => h

theorem mono {x : Compose α} (h : x.Yields P Q) (hP : ∀ a, P a → P' a) (hQ : ∀ e, Q e → Q' e) :
    x.Yields P' Q' := fun met => (h met).mono hP hQ

theorem and {x : Compose α} (h : x.Yields P Q) (h' : x.Yields P' Q') :
    x.Yields (fun a => P a ∧ P' a) fun e => Q e ∧ Q' e := by
  intro met
  have h := h met
  have h' := h' met
  cases hrun : (x.run met).1 with
  | ok a =>
    rw [hrun] at h h'
    exact ⟨h, h'⟩
  | error e =>
    rw [hrun] at h h'
    exact ⟨h, h'⟩

theorem bind {x : Compose α} {f : α → Compose β} {R : β → Prop} (hx : x.Yields P Q)
    (hf : ∀ a, P a → (f a).Yields R Q) : (x >>= f).Yields R Q := by
  intro met
  have hx := hx met
  rw [ExceptT.run_bind, bind_run]
  cases hrun : (x.run met).1 with
  | ok a =>
    rw [hrun] at hx
    exact hf a hx _
  | error e =>
    rw [hrun] at hx
    exact hx

theorem lift {x : Except Fault α} (h : Ends x P Q) : Yields (liftM x : Compose α) P Q := fun _ => h

theorem map {x : Compose α} {f : α → β} {R : β → Prop} (h : x.Yields (fun a => R (f a)) Q) :
    (f <$> x).Yields R Q := by
  rw [map_eq_pure_bind]
  exact h.bind fun a ha => .pure ha

theorem tryCatch {x : Compose α} {handle : Fault → Compose α} (hx : x.Yields P Q')
    (hh : ∀ e, Q' e → (handle e).Yields P Q) : Yields (MonadExcept.tryCatch x handle) P Q := by
  intro met
  have hx := hx met
  show Ends ((ExceptT.tryCatch x handle).run met).1 P Q
  unfold ExceptT.tryCatch
  rw [ExceptT.run_mk, bind_run]
  change Ends (x met).1 P Q' at hx
  cases hrun : (x met).1 with
  | ok a =>
    rw [hrun] at hx
    exact hx
  | error e =>
    rw [hrun] at hx
    exact hh e hx _

theorem defer {R : Unit → Prop} (h : R ()) : Yields Compose.defer R Q := fun _ => h

/-- What is not empty for sure, or nothing. Errors of emptiness do not get out. -/
theorem unlessEmpty {x : Compose Schema} {P : Schema → Prop} (h : x.Yields P Q) :
    (Compose.unlessEmpty x).Yields
      (fun o => match o with
        | some s => P s
        | none => ∃ e, e.isUnsatisfiable = true ∧ Q e)
      fun e => e.isUnsatisfiable = false ∧ Q e := by
  refine Yields.tryCatch (Yields.map h) fun e he => ?_
  cases hempty : e.isUnsatisfiable with
  | true =>
    rw [if_pos rfl]
    exact .pure ⟨e, hempty, he⟩
  | false =>
    rw [if_neg (by simp)]
    exact .throw ⟨hempty, he⟩

/-- A place has what its schemas meet in. Where they conflict an optional one stays empty, and any other fails. -/
theorem place {meet : Schema → Schema → Compose Schema} {s t : Schema} {optional : Bool} {P P' : Schema → Prop}
    (h : (meet s t).Yields P Q) (hmet : ∀ c, P c → P' c)
    (hempty : ∀ e, optional = true → e.isUnsatisfiable = true → Q e → P' .never)
    (herror : ∀ e, Q e → optional = false ∨ e.isUnsatisfiable = false → Q' e) :
    (Compose.place meet s t optional).Yields P' Q' := by
  unfold Compose.place
  cases optional with
  | false => exact Yields.mono h hmet fun e he => herror e he (Or.inl rfl)
  | true =>
    rw [if_pos rfl]
    refine Yields.bind (Yields.mono (Yields.unlessEmpty h) (fun _ h => h) fun e he => herror e he.2 (Or.inr he.1))
      fun o ho => .pure ?_
    cases o with
    | some c => exact hmet c ho
    | none =>
      obtain ⟨e, hunsat, he⟩ := ho
      exact hempty e rfl hunsat he

/-- The branches that meet, where `R` relates each to its result and `N` says of a branch that it falls away. -/
theorem compatible {one : Schema → Compose Schema} {bs : List Schema} {R : Schema → Schema → Prop}
    {N : Schema → Prop} (h : ∀ s ∈ bs, (one s).Yields (R s) fun e =>
      (e.isUnsatisfiable = true → N s) ∧ (e.isUnsatisfiable = false → Q e)) :
    (Env.compatible one bs).Yields
      (fun cs => (∀ c ∈ cs, ∃ s ∈ bs, R s c) ∧ ∀ s ∈ bs, (∃ c ∈ cs, R s c) ∨ N s) Q := by
  induction bs with
  | nil => exact .pure ⟨by simp, by simp⟩
  | cons s bs ih =>
    obtain ⟨hs, hbs⟩ := List.forall_mem_cons.mp h
    unfold Env.compatible
    refine ((Yields.unlessEmpty hs).mono (fun _ h => h) fun e he => he.2.2 he.1).bind fun met hmet => ?_
    refine (ih hbs).bind fun cs hcs => .pure ?_
    have hsource : ∀ c ∈ cs, ∃ t ∈ s :: bs, R t c := fun c hc => by
      obtain ⟨t, ht, h⟩ := hcs.1 c hc
      exact ⟨t, by simp [ht], h⟩
    cases met with
    | some c =>
      have hc : R s c := hmet
      refine ⟨List.forall_mem_cons.mpr ⟨⟨s, by simp, hc⟩, hsource⟩,
        List.forall_mem_cons.mpr ⟨Or.inl ⟨c, by simp, hc⟩, fun t ht => ?_⟩⟩
      rcases hcs.2 t ht with ⟨c, hc, h⟩ | h
      · exact Or.inl ⟨c, by simp [hc], h⟩
      · exact Or.inr h
    | none =>
      obtain ⟨e, hunsat, he⟩ := hmet
      exact ⟨hsource, List.forall_mem_cons.mpr ⟨Or.inr (he.1 hunsat), hcs.2⟩⟩

theorem mapM {f : α → Compose β} {R : α → β → Prop} {l : List α} (h : ∀ a ∈ l, (f a).Yields (R a) Q) :
    (l.mapM f).Yields (fun bs => List.Forall₂ R l bs) Q := by
  induction l with
  | nil => exact .pure .nil
  | cons a l ih =>
    rw [List.mapM_cons]
    refine (h a (by simp)).bind fun b hb => ?_
    exact (ih fun a ha => h a (by simp [ha])).bind fun bs hbs => .pure (.cons hb hbs)

end Yields

end Compose

theorem Schema.eq_never_of_same {s : Schema} (h : Schema.never.same s = true) : s = never := by
  cases s with
  | union bs => cases bs <;> simp [never, same, sameAll] at h ⊢
  | _ => simp [never, same] at h

/-- Beside an object without an index signature a property that it does not declare stays as it is, stays empty or
is refused. -/
theorem ObjectShape.meetUndeclared_yields {admits : Schema → Value → Except Fault Bool}
    {meet : Schema → Schema → Compose Schema} {a b : ObjectShape Schema} {p : Property Schema}
    {R : Property Schema → Prop} {Q : Fault → Prop} (hb : b.index = none)
    (hempty : b.undeclared = .reject → p.presence.isRequired = false → R { p with value := .never })
    (hkept : b.undeclared ≠ .reject → R p)
    (hrefused : b.undeclared = .reject → p.presence.isRequired = true →
      Q (.schema (.unsatisfiable (.object a) (.object b) (.rejectedRequired p.key)))) :
    (meetUndeclared admits meet a b p).Yields R Q := by
  unfold meetUndeclared
  rw [hb]
  dsimp only
  rw [pure_bind]
  dsimp only
  split_ifs with hreject hrequired hsame
  · exact .throw (hrefused hreject hrequired)
  · refine .pure ?_
    have hp : p = { p with value := .never } := by rw [← Schema.eq_never_of_same hsame]
    exact hp ▸ hempty hreject (by simpa using hrequired)
  · exact .pure (hempty hreject (by simpa using hrequired))
  · exact .pure (hkept hreject)

/-- An intersection has one property for each of the first object and for each further one of the second. -/
theorem ObjectShape.meetShapes_yields {admits : Schema → Value → Except Fault Bool}
    {meet : Schema → Schema → Compose Schema} {a b : ObjectShape Schema} {Q : Fault → Prop}
    {I : Option (IndexSignature Schema) → Prop} {R : Property Schema → Property Schema → Prop}
    (hindex : (meetIndex meet a.index b.index).Yields I Q)
    (hfirst : ∀ p ∈ a.properties, b.property? p.key = none → (meetUndeclared admits meet a b p).Yields (R p) Q)
    (hboth : ∀ p ∈ a.properties, ∀ q ∈ b.properties, b.property? p.key = some q →
      (meetDeclared meet p q).Yields (R p) Q)
    (hsecond : ∀ q ∈ b.properties, a.property? q.key = none → (meetUndeclared admits meet b a q).Yields (R q) Q) :
    (meetShapes admits meet a b).Yields (fun o => I o.index ∧ o.undeclared = a.undeclared.stricter b.undeclared ∧
      List.Forall₂ R (a.properties ++ b.properties.filter fun q => !a.declares q.key) o.properties) Q := by
  unfold meetShapes
  refine hindex.bind fun index hi => ?_
  refine (Compose.Yields.mapM (R := R) fun p hp => ?_).bind fun first hps => ?_
  · cases hq : b.property? p.key with
    | none => exact hfirst p hp hq
    | some q => exact hboth p hp q (property?_mem hq).1 hq
  · refine (Compose.Yields.mapM (R := R) fun q hq => ?_).bind fun second hqs =>
      .pure ⟨hi, rfl, List.rel_append hps hqs⟩
    obtain ⟨hq, hno⟩ := List.mem_filter.mp hq
    exact hsecond q hq (declares_eq_false.mp (by simpa using hno))

/-- A made object is the object as it was given. It is made where nothing conflicts. -/
theorem Env.makeObject_stops {env : Env} {Q : Fault → Prop} {o : ObjectShape Schema}
    (hdomains : ∀ i, o.index = some i → Ends (env.domains? i.key) (fun _ => True) Q)
    (hconflict : ∀ e, Q (.conflict e)) : Ends (env.makeObject o) (· = .object o) Q := by
  unfold makeObject
  cases ObjectShape.repeatedKey? [] o.keys with
  | some k => exact hconflict _
  | none =>
    cases hi : o.index with
    | none => exact rfl
    | some i =>
      refine (hdomains i hi).bind fun d _ => ?_
      cases d with
      | none => exact rfl
      | some d =>
        dsimp only
        split_ifs
        · exact rfl
        · exact hconflict _

theorem Env.makeObject_ends {env : Env} (o : ObjectShape Schema) :
    Ends (env.makeObject o) (· = .object o) fun _ => True := by
  refine makeObject_stops (fun i _ => ?_) fun _ => trivial
  cases env.domains? i.key <;> trivial

end Schemata
