import Schemata.Proofs.Algebra.Compose
import Schemata.Proofs.Algebra.SpelledSubset

/-! Intersections of schemas that differ in the spelling of numbers differ in it only, and they are empty alike. -/
namespace Schemata
namespace Compose

variable {α β γ δ : Type} {R : α → β → Prop} {S : γ → δ → Prop}

/-- Two computations end alike, with results that `R` relates or errors of one class, whatever was noted before. -/
def Relates (R : α → β → Prop) (x : Compose α) (y : Compose β) : Prop :=
  ∀ met met', Agree Fault.Kin R (x.run met).1 (y.run met').1

namespace Relates

theorem pure {a : α} {b : β} (h : R a b) : Relates R (Pure.pure a) (Pure.pure b) := fun _ _ => h

theorem throw {e f : Fault} (h : e.Kin f) : Relates R (MonadExcept.throw e) (MonadExcept.throw f) := fun _ _ => h

theorem lift {x : Except Fault α} {y : Except Fault β} (h : Agree Fault.Kin R x y) :
    Relates R (liftM x : Compose α) (liftM y : Compose β) := fun _ _ => h

theorem defer : Relates (· = ·) Compose.defer Compose.defer := fun _ _ => rfl

theorem bind {x : Compose α} {y : Compose β} {f : α → Compose γ} {g : β → Compose δ} (h : Relates R x y)
    (hf : ∀ a b, R a b → Relates S (f a) (g b)) : Relates S (x >>= f) (y >>= g) := by
  intro met met'
  have h := h met met'
  rw [ExceptT.run_bind, ExceptT.run_bind, bind_run, bind_run]
  cases hx : (x.run met).1 <;> cases hy : (y.run met').1 <;> rw [hx, hy] at h
  · exact h
  · exact h.elim
  · exact h.elim
  · exact hf _ _ h _ _

theorem map {x : Compose α} {y : Compose β} {f : α → γ} {g : β → δ} (h : Relates R x y)
    (hf : ∀ a b, R a b → S (f a) (g b)) : Relates S (f <$> x) (g <$> y) := by
  rw [map_eq_pure_bind, map_eq_pure_bind]
  exact h.bind fun a b hab => .pure (hf a b hab)

theorem tryCatch {x : Compose α} {y : Compose β} {handle : Fault → Compose α} {handle' : Fault → Compose β}
    (h : Relates R x y) (hh : ∀ e f, e.Kin f → Relates R (handle e) (handle' f)) :
    Relates R (MonadExcept.tryCatch x handle) (MonadExcept.tryCatch y handle') := by
  intro met met'
  have h := h met met'
  show Agree Fault.Kin R ((ExceptT.tryCatch x handle).run met).1 ((ExceptT.tryCatch y handle').run met').1
  unfold ExceptT.tryCatch
  rw [ExceptT.run_mk, ExceptT.run_mk, bind_run, bind_run]
  change Agree Fault.Kin R (x met).1 (y met').1 at h
  cases hx : (x met).1 <;> cases hy : (y met').1 <;> rw [hx, hy] at h
  · exact hh _ _ h _ _
  · exact h.elim
  · exact h.elim
  · exact h

theorem unlessEmpty {R : Schema → Schema → Prop} {x y : Compose Schema} (h : Relates R x y) :
    Relates (Option.Rel R) (Compose.unlessEmpty x) (Compose.unlessEmpty y) := by
  refine tryCatch (h.map fun a b => .some) fun e f hef => ?_
  rw [hef.2]
  split_ifs
  · exact .pure .none
  · exact .throw hef

theorem mapM {T : α → β → Prop} {f : α → Compose γ} {g : β → Compose δ} {as : List α} {bs : List β}
    (h : List.Forall₂ T as bs) (hf : ∀ a b, T a b → Relates S (f a) (g b)) :
    Relates (List.Forall₂ S) (as.mapM f) (bs.mapM g) := by
  induction h with
  | nil => exact .pure .nil
  | cons hab _ ih =>
    rw [List.mapM_cons, List.mapM_cons]
    exact (hf _ _ hab).bind fun c d hcd => ih.bind fun cs ds hcds => .pure (.cons hcd hcds)

end Relates

theorem unsatisfiable_respelled {R : α → β → Prop} (a b : Schema) (r : Emptiness) (a' b' : Schema) (r' : Emptiness) :
    Relates R (unsatisfiable a b r) (unsatisfiable a' b' r') := .throw ⟨rfl, rfl⟩

end Compose

open Compose (Relates)

section Shapes

variable {blind : Prop} {meet meet' : Schema → Schema → Compose Schema} {admits : Schema → Value → Except Fault Bool}
  {o q o' q' : ObjectShape Schema} {p p' r r' : Property Schema} {es fs es' fs' : List (Element Schema)}
  {s t s' t' : Schema}

/-- Intersections of schemas that differ in spellings only differ so too. -/
def Conforming (blind : Prop) (meet meet' : Schema → Schema → Compose Schema) : Prop :=
  ∀ s t s' t', Schema.Alike (.spelling blind) s s' → Schema.Alike (.spelling blind) t t' →
    Relates (Schema.Alike (.spelling blind)) (meet s t) (meet' s' t')

theorem never_respelled : Schema.Alike (.spelling blind) .never .never := Schema.Respells.alike (.union .nil)

variable (hmeet : Conforming blind meet meet')
include hmeet

theorem place_respelled (hs : Schema.Alike (.spelling blind) s s') (ht : Schema.Alike (.spelling blind) t t')
    (optional : Bool) :
    Relates (Schema.Alike (.spelling blind)) (Compose.place meet s t optional) (Compose.place meet' s' t' optional) := by
  unfold Compose.place
  cases optional with
  | true =>
    refine (hmeet _ _ _ _ hs ht).unlessEmpty.bind fun x y hxy => .pure ?_
    cases hxy with
    | none => exact never_respelled
    | some hxy => exact hxy
  | false => exact hmeet _ _ _ _ hs ht

theorem meetIndex_respelled (h : o.Respells blind o') (k : q.Respells blind q') :
    Relates (Option.Rel (IndexSignature.Respells blind)) (ObjectShape.meetIndex meet o.index q.index)
      (ObjectShape.meetIndex meet' o'.index q'.index) := by
  have hi := h.index
  have hj := k.index
  generalize o.index = i at hi ⊢
  generalize o'.index = i' at hi ⊢
  generalize q.index = j at hj ⊢
  generalize q'.index = j' at hj ⊢
  cases hi with
  | none => exact .pure hj
  | some hi =>
    cases hj with
    | none => exact .pure (.some hi)
    | some hj =>
      unfold ObjectShape.meetIndex
      dsimp only
      rw [Schema.same_alike hi.key hj.key]
      split_ifs
      · exact (hmeet _ _ _ _ hi.value hj.value).bind fun c c' hc => .pure (.some ⟨hi.key, hc⟩)
      · exact .throw ⟨rfl, rfl⟩

theorem meetDeclared_respelled (hp : p.Respells blind p') (hr : r.Respells blind r') :
    Relates (Property.Respells blind) (ObjectShape.meetDeclared meet p r) (ObjectShape.meetDeclared meet' p' r') := by
  have same : p.same r = p'.same r' := by
    unfold Property.same
    rw [hp.key, hr.key, hp.presence, hr.presence, Schema.same_alike hp.value hr.value]
  unfold ObjectShape.meetDeclared
  rw [same, hp.presence, hr.presence, hp.key]
  split_ifs
  · exact .pure hp
  · cases p'.presence.meet? r'.presence with
    | none => exact .throw ⟨rfl, rfl⟩
    | some presence =>
      exact (place_respelled hmeet hp.value hr.value presence.isOptional).bind fun c c' hc => .pure ⟨rfl, rfl, hc⟩

variable (hadmits : ∀ s s' v, Schema.Alike (.spelling blind) s s' → Agree Fault.Kin (· = ·) (admits s v) (admits s' v))
include hadmits

theorem meetUndeclared_respelled (hq : q.Respells blind q') (hp : p.Respells blind p') :
    Relates (Property.Respells blind) (ObjectShape.meetUndeclared admits meet o q p)
      (ObjectShape.meetUndeclared admits meet' o' q' p') := by
  obtain ⟨key, value, presence⟩ := p
  obtain ⟨_, value', _⟩ := p'
  obtain ⟨rfl, rfl, hvalue⟩ := hp
  have with_value : ∀ {c c' : Schema}, Schema.Alike (.spelling blind) c c' →
      Property.Respells blind ⟨key, c, presence⟩ ⟨key, c', presence⟩ := fun h => ⟨rfl, rfl, h⟩
  have bare : Relates (Property.Respells blind)
      (if q.undeclared = .reject then
        if presence.isRequired then Compose.unsatisfiable (.object o) (.object q) (.rejectedRequired key)
        else pure (if Schema.never.same value then ⟨key, value, presence⟩ else ⟨key, .never, presence⟩)
      else pure ⟨key, value, presence⟩)
      (if q'.undeclared = .reject then
        if presence.isRequired then Compose.unsatisfiable (.object o') (.object q') (.rejectedRequired key)
        else pure (if Schema.never.same value' then ⟨key, value', presence⟩ else ⟨key, .never, presence⟩)
      else pure ⟨key, value', presence⟩) := by
    rw [hq.undeclared, Schema.same_alike never_respelled hvalue]
    split_ifs
    · exact Compose.unsatisfiable_respelled _ _ _ _ _ _
    · exact .pure (with_value hvalue)
    · exact .pure (with_value never_respelled)
    · exact .pure (with_value hvalue)
  have hindex := hq.index
  unfold ObjectShape.meetUndeclared
  generalize q.index = i at hindex ⊢
  generalize q'.index = j at hindex ⊢
  cases hindex with
  | none => exact bare
  | some hi =>
    refine (Relates.lift (hadmits _ _ _ hi.key)).bind ?_
    rintro taken _ rfl
    cases taken with
    | true =>
      refine (place_respelled hmeet hvalue hi.value _).bind fun c c' hc => ?_
      rw [Schema.same_alike hc hvalue]
      split_ifs
      · exact .pure (with_value hvalue)
      · exact .pure (with_value hc)
    | false => exact bare

theorem meetShapes_respelled (h : o.Respells blind o') (k : q.Respells blind q') :
    Relates (ObjectShape.Respells blind) (ObjectShape.meetShapes admits meet o q)
      (ObjectShape.meetShapes admits meet' o' q') := by
  have extra : List.Forall₂ (Property.Respells blind) (q.properties.filter fun p => !o.declares p.key)
      (q'.properties.filter fun p => !o'.declares p.key) := by
    refine List.rel_filter (R := Property.Respells blind) ?_ k.properties
    intro p p' hp
    simp [hp.key, h.declares]
  unfold ObjectShape.meetShapes
  rw [h.undeclared, k.undeclared]
  refine (meetIndex_respelled hmeet h k).bind fun i i' hi => ?_
  refine Relates.bind (R := List.Forall₂ (Property.Respells blind))
    (.mapM h.properties fun p p' hp => ?_) fun ps ps' hps => ?_
  · have hfound := k.property? p'.key
    rw [hp.key]
    generalize q.property? p'.key = x at hfound ⊢
    generalize q'.property? p'.key = y at hfound ⊢
    cases hfound with
    | none => exact meetUndeclared_respelled hmeet hadmits k hp
    | some hr => exact meetDeclared_respelled hmeet hp hr
  · refine (Relates.mapM extra fun p p' hp => meetUndeclared_respelled hmeet hadmits h hp).bind fun qs qs' hqs => ?_
    exact .pure ⟨List.rel_append hps hqs, hi, rfl⟩

omit hadmits

theorem meetAs_respelled {e e' : Element Schema} (he : e.role = e'.role) (hs : Schema.Alike (.spelling blind) s s')
    (ht : Schema.Alike (.spelling blind) t t') :
    Relates (Element.Respells blind) (Element.meetAs meet e s t) (Element.meetAs meet' e' s' t') := by
  unfold Element.meetAs
  rw [he]
  exact (place_respelled hmeet hs ht _).bind fun c c' hc => .pure ⟨rfl, hc⟩

theorem meetPairwise_respelled (h : List.Forall₂ (Element.Respells blind) es es')
    (k : List.Forall₂ (Element.Respells blind) fs fs') :
    Relates (List.Forall₂ (Element.Respells blind)) (Element.meetPairwise meet es fs)
      (Element.meetPairwise meet' es' fs') := by
  induction h generalizing fs fs' with
  | nil => cases k <;> exact .pure .nil
  | cons he _ ih =>
    cases k with
    | nil => exact .pure .nil
    | cons hf k =>
      unfold Element.meetPairwise
      rw [he.role, hf.role]
      split_ifs
      · refine (meetAs_respelled hmeet he.role he.value hf.value).bind fun g g' hg => ?_
        exact (ih k).bind fun gs gs' hgs => .pure (.cons hg hgs)
      · exact .throw ⟨rfl, rfl⟩

omit hmeet in
theorem disjointLengths_respelled (h : List.Forall₂ (Element.Respells blind) es es')
    (k : List.Forall₂ (Element.Respells blind) fs fs') :
    Element.disjointLengths es fs = Element.disjointLengths es' fs' := by
  have hes := Element.ranks_like (elements_like h)
  have hfs := Element.ranks_like (elements_like k)
  simp only [Element.disjointLengths, Element.leastLength_eq, Element.greatestLength?_eq, hes, hfs]

omit hmeet in
theorem sameKinds_respelled (h : List.Forall₂ (Element.Respells blind) es es')
    (k : List.Forall₂ (Element.Respells blind) fs fs') : Element.sameKinds es fs = Element.sameKinds es' fs' := by
  unfold Element.sameKinds
  rw [Element.ranks_like (elements_like h), Element.ranks_like (elements_like k)]

theorem meetTuples_respelled (h : List.Forall₂ (Element.Respells blind) es es')
    (k : List.Forall₂ (Element.Respells blind) fs fs') :
    Relates (Schema.Alike (.spelling blind)) (Element.meetTuples meet es fs) (Element.meetTuples meet' es' fs') := by
  have tuple : ∀ {gs gs' : List (Element Schema)}, List.Forall₂ (Element.Respells blind) gs gs' →
      Schema.Alike (.spelling blind) (.tuple gs) (.tuple gs') := fun h => Schema.Respells.alike (.tuple h)
  have hes := array?_respelled h
  have hfs := array?_respelled k
  unfold Element.meetTuples
  rw [disjointLengths_respelled h k, sameKinds_respelled h k]
  split_ifs
  · exact Compose.unsatisfiable_respelled _ _ _ _ _ _
  all_goals
    generalize Element.array? es = x at hes ⊢
    generalize Element.array? es' = x' at hes ⊢
    generalize Element.array? fs = y at hfs ⊢
    generalize Element.array? fs' = y' at hfs ⊢
    cases hes with
    | none =>
      cases hfs with
      | none => first
        | exact (meetPairwise_respelled hmeet h k).bind fun gs gs' hgs => .pure (tuple hgs)
        | exact .pure (Schema.Respells.alike (.intersection (.cons (tuple h) (.cons (tuple k) .nil))))
      | some hf =>
        refine (Relates.mapM h fun e e' he => meetAs_respelled hmeet he.role he.value hf.value).bind ?_
        exact fun gs gs' hgs => .pure (tuple hgs)
    | some he =>
      cases hfs with
      | none =>
        refine (Relates.mapM k fun f f' hf => meetAs_respelled hmeet hf.role he.value hf.value).bind ?_
        exact fun gs gs' hgs => .pure (tuple hgs)
      | some hf =>
        exact (hmeet _ _ _ _ he.value hf.value).bind fun c c' hc => .pure (tuple (.cons ⟨rfl, hc⟩ .nil))

end Shapes

namespace Env

open Schema (AllAlike PairsAlike)

variable {env : Env} {blind : Prop} {a b a' b' s t : Schema} {meet meet' : Schema → Schema → Compose Schema}

theorem meetLiteral_respelled (hstored : env.Spelled blind) (hs : Schema.Alike (.spelling blind) s t) {v w : Value}
    (hvw : v.Passes blind w) (hb : Schema.Alike (.spelling blind) b b') :
    Relates (Schema.Alike (.spelling blind)) (env.meetLiteral s v b) (env.meetLiteral t w b') := by
  refine (Relates.lift (admits_respelled hstored hb hvw)).bind ?_
  rintro taken _ rfl
  cases taken with
  | true => exact .pure hs
  | false => exact Compose.unsatisfiable_respelled _ _ _ _ _ _

theorem meetConstrained_respelled (hmeet : Conforming blind meet meet') (ha : Schema.Alike (.spelling blind) a a')
    (hb : Schema.Alike (.spelling blind) b b') :
    Relates (Schema.Alike (.spelling blind)) (meetConstrained meet a b) (meetConstrained meet' a' b') := by
  obtain ⟨hleft, hcs⟩ := Schema.split_alike ha
  obtain ⟨hright, hds⟩ := Schema.split_alike hb
  unfold meetConstrained
  refine (hmeet _ _ _ _ hleft hright).bind fun base base' hbase => ?_
  refine (Relates.lift (Agree.foldlM (List.rel_append hcs hds) (fun known known' c c' hknown hc =>
    Constraint.gather_respells (fun _ _ => ⟨rfl, rfl⟩) (fun _ _ _ _ => ⟨rfl, rfl⟩) hknown hc) .nil)).bind ?_
  exact fun cs cs' hcs => .pure (Schema.constrain_alike hbase hcs)

theorem compatible_respelled {one one' : Schema → Compose Schema}
    (hone : ∀ s t, Schema.Alike (.spelling blind) s t → Relates (Schema.Alike (.spelling blind)) (one s) (one' t))
    {ss ts : List Schema} (h : AllAlike blind ss ts) :
    Relates (AllAlike blind) (compatible one ss) (compatible one' ts) := by
  induction h with
  | nil => exact .pure .nil
  | cons hst _ ih =>
    refine (hone _ _ hst).unlessEmpty.bind fun x y hxy => ih.bind fun met met' hmet => .pure ?_
    cases hxy with
    | none => exact hmet
    | some hxy => exact .cons hxy hmet

theorem meetBranches_respelled (hstored : env.Spelled blind) {one one' : Schema → Compose Schema}
    (hone : ∀ s t, Schema.Alike (.spelling blind) s t → Relates (Schema.Alike (.spelling blind)) (one s) (one' t))
    (u other u' other' : Schema) {ss ts : List Schema} (h : AllAlike blind ss ts) :
    Relates (Schema.Alike (.spelling blind)) (env.meetBranches u other ss one)
      (env.meetBranches u' other' ts one') := by
  refine (compatible_respelled hone h).bind fun met met' hmet => ?_
  cases hmet with
  | nil => exact Compose.unsatisfiable_respelled _ _ _ _ _ _
  | cons hst hrest => exact .lift (union_respelled hstored (.cons hst hrest))

/-- Members gather to those of one intersection. -/
theorem gathered_respelled {ms ns ms' ns' : List Schema} (h : AllAlike blind ms ms') (k : AllAlike blind ns ns') :
    Relates (Schema.Alike (.spelling blind)) (pure (.intersection (Schema.distinct (ms ++ ns))))
      (pure (.intersection (Schema.distinct (ms' ++ ns')))) :=
  .pure (Schema.Respells.alike (.intersection (Schema.distinct_alike (List.rel_append h k))))

theorem keywords_respelled (k l : Keyword) :
    Relates (Schema.Alike (.spelling blind))
      (do
        if ← env.isSubset (.keyword k) (.keyword l) then pure (.keyword k)
        else if ← env.isSubset (.keyword l) (.keyword k) then pure (.keyword l)
        else pure (.intersection [.keyword k, .keyword l]))
      (do
        if ← env.isSubset (.keyword k) (.keyword l) then pure (.keyword k)
        else if ← env.isSubset (.keyword l) (.keyword k) then pure (.keyword l)
        else pure (.intersection [.keyword k, .keyword l])) := by
  have self : ∀ k : Keyword, Schema.Alike (.spelling blind) (.keyword k) (.keyword k) := fun k =>
    Schema.Respells.alike (.keyword k)
  refine (Relates.lift (Agree.kin _)).bind ?_
  rintro yes _ rfl
  cases yes with
  | true => exact .pure (self k)
  | false =>
    refine (Relates.lift (Agree.kin _)).bind ?_
    rintro yes _ rfl
    cases yes with
    | true => exact .pure (self l)
    | false => exact .pure (Schema.Respells.alike (.intersection (.cons (self k) (.cons (self l) .nil))))

/-- What is done with two schemas whose domains are not disjoint. -/
def unlessDisjoint (env : Env) (a b : Schema) (meet : Compose Schema) : Compose Schema := do
  let left ← env.domains? a
  let right ← env.domains? b
  let disjoint := match left, right with
    | some d, some e => (d.inter e).isEmpty
    | _, _ => false
  if disjoint then Compose.unsatisfiable a b .disjointDomains else meet

theorem unlessDisjoint_respelled (ha : Schema.Alike (.spelling blind) a a') (hb : Schema.Alike (.spelling blind) b b')
    {x y : Compose Schema} (h : Relates (Schema.Alike (.spelling blind)) x y) :
    Relates (Schema.Alike (.spelling blind)) (env.unlessDisjoint a b x) (env.unlessDisjoint a' b' y) := by
  have hdomains : ∀ {s t : Schema}, Schema.Alike (.spelling blind) s t → env.domains? s = env.domains? t :=
    fun h => Schema.domains?_alike (l := .spelling blind) (fun v w h => h.1.domain) h
  unfold unlessDisjoint
  rw [hdomains ha, hdomains hb]
  refine (Relates.lift (Agree.kin _)).bind ?_
  rintro left _ rfl
  refine (Relates.lift (Agree.kin _)).bind ?_
  rintro right _ rfl
  dsimp only
  split_ifs
  · exact Compose.unsatisfiable_respelled _ _ _ _ _ _
  · exact h

theorem meetPlain_respelled (hstored : env.Spelled blind) (hmeet : Conforming blind meet meet')
    (ha : Schema.Alike (.spelling blind) a a') (hb : Schema.Alike (.spelling blind) b b') :
    Relates (Schema.Alike (.spelling blind)) (env.meetPlain meet a b) (env.meetPlain meet' a' b') := by
  have literal : ∀ {v w : Value}, v.Respells w → v = w ∨ blind → v.Passes blind w := by
    intro v w hv hvw
    rcases hvw with rfl | hblind
    · exact Or.inl rfl
    · exact hv.imp And.left fun h => ⟨hblind, h⟩
  have apart : Relates (Schema.Alike (.spelling blind)) (pure (.intersection [a, b])) (pure (.intersection [a', b'])) :=
    .pure (Schema.Respells.alike (.intersection (.cons ha (.cons hb .nil))))
  have constrained := meetConstrained_respelled hmeet ha hb
  have step : ∀ {x y : Compose Schema}, Relates (Schema.Alike (.spelling blind)) x y →
      Relates (Schema.Alike (.spelling blind)) (env.unlessDisjoint a b x) (env.unlessDisjoint a' b' y) :=
    unlessDisjoint_respelled ha hb
  cases ha.nodes with
  | intersection hms => exact step (gathered_respelled hms (Schema.members_alike hb))
  | literal hv hvw =>
    cases hb.nodes with
    | intersection hms => exact step (gathered_respelled (Schema.members_alike ha) hms)
    | _ => exact step (meetLiteral_respelled hstored ha (literal hv hvw) hb)
  | constrained hs hcs =>
    cases hb.nodes with
    | intersection hms => exact step (gathered_respelled (Schema.members_alike ha) hms)
    | literal hv hvw => exact step (meetLiteral_respelled hstored hb (literal hv hvw) ha)
    | _ => exact step constrained
  | object ho =>
    cases hb.nodes with
    | intersection hms => exact step (gathered_respelled (Schema.members_alike ha) hms)
    | literal hv hvw => exact step (meetLiteral_respelled hstored hb (literal hv hvw) ha)
    | constrained hs hcs => exact step constrained
    | object hq =>
      refine step ((meetShapes_respelled hmeet ?_ ho hq).bind fun _ _ h => .lift (makeObject_respelled h))
      exact fun s s' v h => admits_respelled hstored h (Or.inl rfl)
    | keyword k => exact step (.pure ha)
    | _ => exact step apart
  | tuple hes =>
    cases hb.nodes with
    | intersection hms => exact step (gathered_respelled (Schema.members_alike ha) hms)
    | literal hv hvw => exact step (meetLiteral_respelled hstored hb (literal hv hvw) ha)
    | constrained hs hcs => exact step constrained
    | tuple hfs => exact step (meetTuples_respelled hmeet hes hfs)
    | keyword k => exact step (.pure ha)
    | _ => exact step apart
  | keyword k =>
    cases hb.nodes with
    | intersection hms => exact step (gathered_respelled (Schema.members_alike ha) hms)
    | literal hv hvw => exact step (meetLiteral_respelled hstored hb (literal hv hvw) ha)
    | constrained hs hcs => exact step constrained
    | keyword l => exact step (keywords_respelled k l)
    | _ => exact step (.pure hb)
  | _ =>
    cases hb.nodes with
    | intersection hms => exact step (gathered_respelled (Schema.members_alike ha) hms)
    | literal hv hvw => exact step (meetLiteral_respelled hstored hb (literal hv hvw) ha)
    | constrained hs hcs => exact step constrained
    | keyword k => exact step (.pure ha)
    | _ => exact step apart

theorem meetWithin_respelled (hstored : env.Spelled blind) (fuel : Nat) {expanding expanding' : List (Schema × Schema)}
    (hexpanding : PairsAlike blind expanding expanding') :
    Conforming blind (env.meetWithin fuel expanding) (env.meetWithin fuel expanding') := by
  induction fuel generalizing expanding expanding' with
  | zero =>
    exact fun a b a' b' ha hb => .pure (Schema.Respells.alike (.intersection (.cons ha (.cons hb .nil))))
  | succ fuel ih =>
    intro a b a' b' ha hb
    have hmeet := ih hexpanding
    have hplain := meetPlain_respelled hstored hmeet ha hb
    have apart : Relates (Schema.Alike (.spelling blind)) (pure (.intersection [a, b]))
        (pure (.intersection [a', b'])) :=
      .pure (Schema.Respells.alike (.intersection (.cons ha (.cons hb .nil))))
    unfold meetWithin
    dsimp only
    rw [Schema.same_alike ha hb, Schema.isUnknown_alike ha, Schema.isUnknown_alike hb, Schema.isNever_alike ha,
      Schema.isNever_alike hb, Schema.isRef_alike ha, Schema.isRef_alike hb, Schema.hashable_alike ha hb,
      Schema.pairIn_alike ha hb hexpanding]
    split_ifs
    · exact .pure ha
    · exact .pure hb
    · exact .pure ha
    · exact Compose.unsatisfiable_respelled _ _ _ _ _ _
    · exact (Relates.lift (Agree.kin _)).bind fun _ _ _ => apart
    · refine (Relates.lift (Agree.kin _)).bind fun _ _ _ => ?_
      refine (Relates.lift (behind?_respelled hstored ha)).bind fun s s' hs => ?_
      refine (Relates.lift (behind?_respelled hstored hb)).bind fun t t' ht => ?_
      have put_off : Relates (Schema.Alike (.spelling blind)) (do Compose.defer; pure (.intersection [a, b]))
          (do Compose.defer; pure (.intersection [a', b'])) := Relates.defer.bind fun _ _ _ => apart
      cases hs with
      | none => exact put_off
      | some hs =>
        cases ht with
        | none => exact put_off
        | some ht => exact ih (.cons ⟨ha, hb⟩ hexpanding) _ _ _ _ hs ht
    · cases ha.nodes with
      | union hbranches =>
        exact meetBranches_respelled hstored (fun s t hst => hmeet _ _ _ _ hst hb) _ _ _ _ hbranches
      | _ =>
        cases hb.nodes with
        | union hbranches =>
          exact meetBranches_respelled hstored (fun s t hst => hmeet _ _ _ _ ha hst) _ _ _ _ hbranches
        | _ => exact hplain

/-- The intersections of schemas that differ in spellings only differ so too, or both are empty, or both fail with
errors of one class. -/
theorem intersect_respelled (hstored : env.Spelled blind) (ha : Schema.Alike (.spelling blind) a a')
    (hb : Schema.Alike (.spelling blind) b b') :
    Agree Fault.Kin (Schema.Alike (.spelling blind)) (env.intersect a b).1 (env.intersect a' b').1 := by
  unfold intersect
  rw [pairFuel_alike ha hb]
  exact meetWithin_respelled hstored _ .nil _ _ _ _ ha hb false false

end Env
end Schemata
