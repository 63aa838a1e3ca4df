import Schemata.Proofs.Validation.Spelling

/-! The subset test and the union do not look at the spelling of numbers, apart from their class. -/
namespace Schemata

/-- Two errors of one class, both of emptiness or neither. -/
def Fault.Kin (e f : Fault) : Prop := e.className = f.className ∧ e.isUnsatisfiable = f.isUnsatisfiable

theorem Fault.Kin.refl (e : Fault) : e.Kin e := ⟨rfl, rfl⟩

theorem Fault.Akin.kin {e f : Fault} (h : e.Akin f) : e.Kin f := ⟨h.1, h.2.1.trans h.2.2.symm⟩

theorem Agree.kin {α : Type} (x : Except Fault α) : Agree Fault.Kin (· = ·) x x := by
  apply Agree.refl
  · exact fun e _ => .refl e
  · exact fun _ => rfl

section Objects

variable {blind : Prop} {o q o' q' : ObjectShape Schema} {p p' : Property Schema} {es fs es' fs' : List (Element Schema)}

theorem ObjectShape.Respells.declares (h : o.Respells blind o') (key : Key) : o.declares key = o'.declares key :=
  Schema.declares_of_keys (Schema.keys_of_forall₂ (fun _ _ h => Property.Respells.key h) h.properties) key

theorem ObjectShape.Respells.property? (h : o.Respells blind o') (key : Key) :
    Option.Rel (Property.Respells blind) (o.property? key) (o'.property? key) := by
  have found : ∀ {ps qs : List (Property Schema)}, List.Forall₂ (Property.Respells blind) ps qs →
      Option.Rel (Property.Respells blind) (ps.find? fun p => p.key == key) (qs.find? fun q => q.key == key) := by
    intro ps qs h
    induction h with
    | nil => exact .none
    | cons hpq _ ih =>
      rw [List.find?_cons, List.find?_cons, hpq.key]
      split
      · exact .some hpq
      · exact ih
  exact found h.properties

theorem ObjectShape.Respells.looserThan (ho : o.Respells blind o') (hq : q.Respells blind q') :
    o.looserThan q = o'.looserThan q' := by
  have some : ∀ {i j : Option (IndexSignature Schema)}, Option.Rel (IndexSignature.Respells blind) i j →
      i.isSome = j.isSome ∧ i.isNone = j.isNone := by
    intro i j h
    cases h <;> exact ⟨rfl, rfl⟩
  unfold ObjectShape.looserThan
  rw [ho.undeclared, hq.undeclared, (some hq.index).1, (some ho.index).2]

/-- Runs of a test on schemas agree where the schemas differ in spellings only. -/
def Respecting (blind : Prop) (sub : Schema → Schema → Except Fault Bool) (sub' : Schema → Schema → Except Fault Bool) :
    Prop :=
  ∀ s t s' t', Schema.Alike (.spelling blind) s s' → Schema.Alike (.spelling blind) t t' →
    Agree Fault.Kin (· = ·) (sub s t) (sub' s' t')

variable {admits : Schema → Value → Except Fault Bool} {sub sub' : Schema → Schema → Except Fault Bool}
  (hadmits : ∀ s s' v, Schema.Alike (.spelling blind) s s' → Agree Fault.Kin (· = ·) (admits s v) (admits s' v))
  (hsub : Respecting blind sub sub')
include hadmits

include hsub

theorem absentWithin_respelled (h : o.Respells blind o') (hp : p.Respells blind p') :
    Agree Fault.Kin (· = ·) (ObjectShape.absentWithin admits sub o p) (ObjectShape.absentWithin admits sub' o' p') := by
  unfold ObjectShape.absentWithin
  rw [hp.presence, hp.key, h.undeclared]
  split_ifs
  · exact rfl
  · have hindex := h.index
    generalize o.index = i at hindex ⊢
    generalize o'.index = j at hindex ⊢
    cases hindex with
    | none => exact rfl
    | some hi =>
      refine (hadmits _ _ _ hi.key).bind ?_
      rintro taken _ rfl
      cases taken with
      | true => exact hsub _ _ _ _ hi.value hp.value
      | false => exact rfl

theorem extraWithin_respelled (h : q.Respells blind q') (hp : p.Respells blind p') :
    Agree Fault.Kin (· = ·) (ObjectShape.extraWithin admits sub q p) (ObjectShape.extraWithin admits sub' q' p') := by
  unfold ObjectShape.extraWithin
  rw [hp.key, h.undeclared]
  have hindex := h.index
  generalize q.index = i at hindex ⊢
  generalize q'.index = j at hindex ⊢
  cases hindex with
  | none => exact rfl
  | some hi =>
    refine (hadmits _ _ _ hi.key).bind ?_
    rintro taken _ rfl
    cases taken with
    | true => exact hsub _ _ _ _ hp.value hi.value
    | false => exact rfl

theorem coversProperty_respelled (h : o.Respells blind o') (hp : p.Respells blind p') :
    Agree Fault.Kin (· = ·) (ObjectShape.coversProperty admits sub o p)
      (ObjectShape.coversProperty admits sub' o' p') := by
  have hfound := h.property? p'.key
  unfold ObjectShape.coversProperty
  rw [hp.key]
  generalize o.property? p'.key = x at hfound ⊢
  generalize o'.property? p'.key = y at hfound ⊢
  cases hfound with
  | none => exact absentWithin_respelled hadmits hsub h hp
  | some hxy =>
    dsimp only
    rw [hp.presence, hxy.presence]
    split_ifs
    · exact rfl
    · exact hsub _ _ _ _ hxy.value hp.value

omit hadmits in
theorem indexWithin_respelled (h : o.Respells blind o') (k : q.Respells blind q') :
    Agree Fault.Kin (· = ·) (ObjectShape.indexWithin sub o.index q.index)
      (ObjectShape.indexWithin sub' o'.index q'.index) := by
  have hi := h.index
  have hj := k.index
  generalize o.index = i at hi ⊢
  generalize o'.index = i' at hi ⊢
  generalize q.index = j at hj ⊢
  generalize q'.index = j' at hj ⊢
  unfold ObjectShape.indexWithin
  cases hi <;> cases hj <;> first | exact rfl | skip
  rename_i i i' hi j j' hj
  dsimp only
  rw [Schema.same_alike hi.key hj.key]
  split_ifs
  · exact hsub _ _ _ _ hi.value hj.value
  · exact rfl

/-- The subset test of two objects does not look at spellings where those of their values do not. -/
theorem objects_respelled (h : o.Respells blind o') (k : q.Respells blind q') :
    Agree Fault.Kin (· = ·) (ObjectShape.within admits sub o q) (ObjectShape.within admits sub' o' q') := by
  have extra : List.Forall₂ (Property.Respells blind) (o.properties.filter fun p => !q.declares p.key)
      (o'.properties.filter fun p => !q'.declares p.key) := by
    refine List.rel_filter (R := Property.Respells blind) ?_ h.properties
    intro p p' hp
    simp [hp.key, k.declares]
  unfold ObjectShape.within
  rw [h.looserThan k]
  split_ifs
  · exact rfl
  · refine Agree.bind (.allM (k.properties.imp fun p p' hp => coversProperty_respelled hadmits hsub h hp)) ?_
    rintro all _ rfl
    cases all with
    | false => exact rfl
    | true =>
      refine Agree.bind (.allM (extra.imp fun p p' hp => extraWithin_respelled hadmits hsub k hp)) ?_
      rintro all _ rfl
      cases all with
      | false => exact rfl
      | true => exact indexWithin_respelled hsub h k

omit hadmits in
theorem pairwiseWithin_respelled (h : List.Forall₂ (Element.Respells blind) es es')
    (k : List.Forall₂ (Element.Respells blind) fs fs') :
    Agree Fault.Kin (· = ·) (Element.pairwiseWithin sub es fs) (Element.pairwiseWithin sub' es' fs') := by
  induction h generalizing fs fs' with
  | nil => cases k <;> exact rfl
  | cons he _ ih =>
    cases k with
    | nil => exact rfl
    | cons hf k =>
      unfold Element.pairwiseWithin
      rw [he.role, hf.role]
      split_ifs
      · exact rfl
      · refine (hsub _ _ _ _ he.value hf.value).bind ?_
        rintro yes _ rfl
        cases yes with
        | true => exact ih k
        | false => exact rfl

omit hadmits hsub in
theorem array?_respelled (h : List.Forall₂ (Element.Respells blind) es es') :
    Option.Rel (Element.Respells blind) (Element.array? es) (Element.array? es') := by
  cases h with
  | nil => exact .none
  | cons he h =>
    cases h with
    | nil =>
      unfold Element.array?
      dsimp only
      rw [he.role]
      split_ifs
      · exact .some he
      · exact .none
    | cons _ _ => exact .none

omit hadmits hsub in
/-- Elements that differ in spellings have the same places. -/
theorem elements_like (h : List.Forall₂ (Element.Respells blind) es es') :
    List.Forall₂ (Element.Like (Schema.Alike (.spelling blind))) es es' :=
  h.imp fun _ _ he => ⟨congrArg Role.rank he.role, he.value⟩

omit hadmits hsub in
theorem variadic?_respelled (h : List.Forall₂ (Element.Respells blind) es es') :
    (Element.variadic? es).isSome = (Element.variadic? es').isSome := by
  have hvariadic := Element.variadic?_like (elements_like h)
  generalize Element.variadic? es = e at hvariadic ⊢
  generalize Element.variadic? es' = e' at hvariadic ⊢
  cases hvariadic <;> rfl

omit hadmits in
/-- The subset test of two tuples does not look at spellings where those of their elements do not. -/
theorem tuples_respelled (h : List.Forall₂ (Element.Respells blind) es es')
    (k : List.Forall₂ (Element.Respells blind) fs fs') :
    Agree Fault.Kin (· = ·) (Element.within sub es fs) (Element.within sub' es' fs') := by
  have harray := array?_respelled k
  unfold Element.within
  rw [variadic?_respelled h, variadic?_respelled k, h.length_eq, k.length_eq]
  generalize Element.array? fs = x at harray ⊢
  generalize Element.array? fs' = y at harray ⊢
  cases harray with
  | none =>
    dsimp only
    split_ifs
    · exact rfl
    · exact pairwiseWithin_respelled hsub h k
  | some hxy => exact .allM (h.imp fun e e' he => hsub _ _ _ _ he.value hxy.value)

end Objects

namespace Env

variable {env : Env} {blind : Prop} {a b a' b' s t : Schema}

theorem resolve?_respelled (hstored : env.Spelled blind) (r : Ref) :
    Agree Fault.Kin (Option.Rel (Schema.Alike (.spelling blind))) (env.resolve? r) (env.resolve? r) := by
  cases hrun : env.resolve? r with
  | error e => exact Fault.Kin.refl e
  | ok found =>
    cases found with
    | none => exact .none
    | some t => exact .some (hstored r t hrun)

theorem behind?_respelled (hstored : env.Spelled blind) (h : Schema.Alike (.spelling blind) s t) :
    Agree Fault.Kin (Option.Rel (Schema.Alike (.spelling blind))) (env.behind? s) (env.behind? t) := by
  cases h.nodes with
  | ref r => exact resolve?_respelled hstored r
  | _ => exact .some h

/-- A trial run does not look at spellings, not even of the value where nothing asks for a class of numbers. -/
theorem admits_respelled (hstored : env.Spelled blind) (h : Schema.Alike (.spelling blind) s t) {v w : Value}
    (hvw : v.Passes blind w) : Agree Fault.Kin (· = ·) (env.admits s v) (env.admits t w) := by
  refine (Agree.kin env.trial).bind ?_
  rintro config _ rfl
  refine Agree.monoError ?_ fun _ _ => Fault.Akin.kin
  rcases hvw with rfl | ⟨hblind, hvw⟩
  · exact accepts_respelled hstored config h v
  · exact accepts_renumbered hstored config h hblind hvw

theorem allAccept_respelled {v w : Value} (hvw : v.Passes blind w) {cs ds : List Constraint}
    (h : List.Forall₂ (Constraint.Respells blind) cs ds) :
    Agree Fault.Kin (· = ·) (Constraint.allAccept env.hooks v cs) (Constraint.allAccept env.hooks w ds) := by
  refine .allM (h.imp fun c d hcd => ?_)
  refine ((hcd.like (fun _ _ h => h) v w hvw).mapError fun _ _ he => Fault.Akin.kin he).bind fun x y hxy => ?_
  exact hxy

theorem plainWithin_respelled (hstored : env.Spelled blind) {sub sub' : Schema → Schema → Except Fault Bool}
    (hsub : Respecting blind sub sub') (ha : Schema.Alike (.spelling blind) a a')
    (hb : Schema.Alike (.spelling blind) b b') :
    Agree Fault.Kin (· = ·) (env.plainWithin sub a b) (env.plainWithin sub' a' b') := by
  have hdomains : env.domains? a = env.domains? a' :=
    Schema.domains?_alike (l := .spelling blind) (fun v w h => h.1.domain) ha
  cases ha.nodes with
  | constrained hs hcs =>
    cases hb.nodes with
    | constrained ht hds =>
      refine (hsub _ _ _ _ hs ht).bind ?_
      rintro yes _ rfl
      cases yes with
      | true => exact .allM (hds.imp fun c d hcd => Constraint.impliedBy_respells (fun _ _ => ⟨rfl, rfl⟩) hcs hcd)
      | false => exact rfl
    | _ => exact hsub _ _ _ _ hs hb
  | literal hv hvw =>
    rename_i v w
    have hpasses : v.Passes blind w := by
      rcases hvw with rfl | hblind
      · exact Or.inl rfl
      · exact hv.imp And.left fun h => ⟨hblind, h⟩
    cases hb.nodes with
    | constrained ht hds =>
      refine (hsub _ _ _ _ ha ht).bind ?_
      rintro yes _ rfl
      cases yes with
      | true => exact allAccept_respelled hpasses hds
      | false => exact rfl
    | keyword k =>
      cases k with
      | integer => exact hv.holds .integer
      | _ =>
        simp only [plainWithin, hdomains]
        exact .kin _
    | literal hw =>
      show (_ && _) = (_ && _)
      rw [hv.domain, hw.domain, hv.literalEqual (hw.imp And.left id)]
    | _ => exact rfl
  | object ho =>
    cases hb.nodes with
    | keyword k => cases k <;> exact rfl
    | object hq => exact objects_respelled (fun s s' v h => admits_respelled hstored h (Or.inl rfl)) hsub ho hq
    | _ => exact rfl
  | tuple hes =>
    cases hb.nodes with
    | keyword k => cases k <;> exact rfl
    | tuple hfs => exact tuples_respelled hsub hes hfs
    | _ => exact rfl
  | _ =>
    cases hb.nodes with
    | keyword k => cases k <;> (simp only [plainWithin, hdomains]; exact .kin _)
    | _ => exact rfl

open Schema (AllAlike PairsAlike)

theorem subsetWithin_respelled (hstored : env.Spelled blind) (fuel : Nat) {seen seen' : List (Schema × Schema)}
    (hseen : PairsAlike blind seen seen') (ha : Schema.Alike (.spelling blind) a a')
    (hb : Schema.Alike (.spelling blind) b b') :
    Agree Fault.Kin (· = ·) (env.subsetWithin fuel seen a b) (env.subsetWithin fuel seen' a' b') := by
  induction fuel generalizing seen seen' a a' b b' with
  | zero => exact rfl
  | succ fuel ih =>
    have hsub : Respecting blind (env.subsetWithin fuel seen) (env.subsetWithin fuel seen') :=
      fun s t s' t' hs ht => ih hseen hs ht
    have hall : ∀ {ss ss' : List Schema}, AllAlike blind ss ss' →
        Agree Fault.Kin (· = ·) (ss.anyM fun s => env.subsetWithin fuel seen s b)
          (ss'.anyM fun s => env.subsetWithin fuel seen' s b') := fun h => .anyM (h.imp fun s s' hs => hsub _ _ _ _ hs hb)
    have hany : ∀ {ts ts' : List Schema}, AllAlike blind ts ts' →
        Agree Fault.Kin (· = ·) (ts.anyM fun t => env.subsetWithin fuel seen a t)
          (ts'.anyM fun t => env.subsetWithin fuel seen' a' t) := fun h => .anyM (h.imp fun t t' ht => hsub _ _ _ _ ha ht)
    have hplain := plainWithin_respelled hstored hsub ha hb
    unfold subsetWithin
    dsimp only
    rw [Schema.same_alike ha hb, Schema.isUnknown_alike hb, Schema.isNever_alike ha, Schema.isRef_alike ha,
      Schema.isRef_alike hb, Schema.hashable_alike ha hb, Schema.pairIn_alike ha hb hseen]
    split_ifs
    · exact rfl
    · exact .kin _
    · refine (Agree.kin (a'.hashable b')).bind fun _ _ _ => ?_
      refine (behind?_respelled hstored ha).bind fun s s' hs => ?_
      refine (behind?_respelled hstored hb).bind fun t t' ht => ?_
      cases hs with
      | none => exact rfl
      | some hs =>
        cases ht with
        | none => exact rfl
        | some ht => exact ih (.cons ⟨ha, hb⟩ hseen) hs ht
    · cases ha.nodes with
      | union hbranches => exact .allM (hbranches.imp fun s s' hs => hsub _ _ _ _ hs hb)
      | intersection hmembers =>
        cases hb.nodes with
        | intersection hmembers' => exact .allM (hmembers'.imp fun t t' ht => hsub _ _ _ _ ha ht)
        | union hbranches =>
          refine (hall hmembers).bind ?_
          rintro yes _ rfl
          cases yes with
          | true => exact rfl
          | false => exact hany hbranches
        | _ =>
          refine (hall hmembers).bind ?_
          rintro yes _ rfl
          cases yes with
          | true => exact rfl
          | false => exact hplain
      | _ =>
        cases hb.nodes with
        | intersection hmembers => exact .allM (hmembers.imp fun t t' ht => hsub _ _ _ _ ha ht)
        | union hbranches => exact hany hbranches
        | _ => exact hplain

theorem pairFuel_alike (ha : Schema.Alike (.spelling blind) a a') (hb : Schema.Alike (.spelling blind) b b') :
    env.pairFuel a b = env.pairFuel a' b' := by
  unfold pairFuel reach
  rw [Schema.size_alike ha, Schema.size_alike hb]

/-- The subset test does not look at spellings. -/
theorem isSubset_respelled (hstored : env.Spelled blind) : Respecting blind env.isSubset env.isSubset := by
  intro s t s' t' hs ht
  unfold isSubset
  rw [pairFuel_alike hs ht]
  exact subsetWithin_respelled hstored _ .nil hs ht

variable {ss ts : List Schema}

theorem isRedundant_respelled (hstored : env.Spelled blind) {before before' behind behind' : List Schema}
    (hbefore : AllAlike blind before before') (hs : Schema.Alike (.spelling blind) s t)
    (hbehind : AllAlike blind behind behind') :
    Agree Fault.Kin (· = ·) (env.isRedundant before s behind) (env.isRedundant before' t behind') := by
  have hsub := isSubset_respelled hstored
  unfold isRedundant
  rw [Schema.isPlain_alike hs]
  split_ifs
  · exact rfl
  · refine Agree.bind (.anyM (hbefore.imp fun u u' hu => hsub _ _ _ _ hs hu)) ?_
    rintro inside _ rfl
    cases inside with
    | true => exact rfl
    | false =>
      refine .anyM (hbehind.imp fun u u' hu => (hsub _ _ _ _ hs hu).bind ?_)
      rintro inside _ rfl
      cases inside with
      | true =>
        refine (hsub _ _ _ _ hu hs).bind ?_
        rintro back _ rfl
        exact rfl
      | false => exact rfl

theorem pruned_respelled (hstored : env.Spelled blind) {before before' : List Schema}
    (hbefore : AllAlike blind before before') (h : AllAlike blind ss ts) :
    Agree Fault.Kin (AllAlike blind) (env.pruned before ss) (env.pruned before' ts) := by
  induction h generalizing before before' with
  | nil => exact .nil
  | cons hst hrest ih =>
    refine (isRedundant_respelled hstored hbefore hst hrest).bind ?_
    rintro redundant _ rfl
    refine (ih (List.rel_append hbefore (.cons hst .nil))).bind fun kept kept' hkept => ?_
    cases redundant with
    | true => exact hkept
    | false => exact .cons hst hkept

/-- Unions of schemas that differ in spellings only differ so too. -/
theorem union_respelled (hstored : env.Spelled blind) (h : AllAlike blind ss ts) :
    Agree Fault.Kin (Schema.Alike (.spelling blind)) (env.union ss) (env.union ts) := by
  have flat := Schema.collapseBooleans_alike (Schema.distinct_alike (Schema.flatMap_branches_alike h))
  exact (pruned_respelled hstored .nil flat).bind fun _ _ hkept => Schema.ofBranches_alike hkept

/-- Objects over shapes that differ in spellings only are legal alike. -/
theorem makeObject_respelled {o q : ObjectShape Schema} (h : o.Respells blind q) :
    Agree Fault.Kin (Schema.Alike (.spelling blind)) (env.makeObject o) (env.makeObject q) := by
  have hkeys : o.keys = q.keys := Schema.keys_of_forall₂ (fun _ _ h => Property.Respells.key h) h.properties
  have made := Schema.Respells.alike (.object h)
  unfold makeObject
  rw [hkeys]
  cases ObjectShape.repeatedKey? [] q.keys with
  | some k => exact ⟨rfl, rfl⟩
  | none =>
    have hindex := h.index
    dsimp only
    generalize o.index = i at hindex ⊢
    generalize q.index = j at hindex ⊢
    cases hindex with
    | none => exact made
    | some hi =>
      dsimp only
      rw [Schema.domains?_alike (l := .spelling blind) (fun v w h => h.1.domain) hi.key]
      refine (Agree.kin _).bind ?_
      rintro d _ rfl
      cases d with
      | none => exact made
      | some d =>
        dsimp only
        split_ifs
        · exact made
        · exact ⟨rfl, rfl⟩

end Env
end Schemata
