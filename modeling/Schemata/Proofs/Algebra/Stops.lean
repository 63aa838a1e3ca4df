import Schemata.Proofs.Algebra.Compose
import Schemata.Proofs.Algebra.Shapes
import Schemata.Proofs.Algebra.Union
import Schemata.Proofs.Validation.Faults

/-! What the subset test and unions stop with. Beside its recursive calls the test looks behind names, hashes pairs,
tells domains, runs trials and compares constraints; all of its errors come from there. So they find nothing out about
schemas: no error of theirs says that an intersection is empty or that a key is not found. -/
namespace Schemata

/-- What is asked of schemas of a class `P` stops with errors of `Q` only, and leads to schemas of the class. -/
structure Env.StopsOn (env : Env) (P : Schema → Prop) (Q : Fault → Prop) : Prop where
  part : ∀ s t, P s → t ∈ s.parts → P t
  behind : ∀ s, P s → Ends (env.behind? s) (fun o => ∀ t, o = some t → P t) Q
  hashable : ∀ s t, P s → P t → (s.isRef || t.isRef) = true → Ends (s.hashable t) (fun _ => True) Q
  domains : ∀ s, P s → Ends (env.domains? s) (fun _ => True) Q
  admits : ∀ s v, P s → Ends (env.admits s v) (fun _ => True) Q
  implied : ∀ s t cs ds, P (.constrained s cs) → P (.constrained t ds) → ∀ d ∈ ds,
    Ends (d.impliedBy cs) (fun _ => True) Q
  accepted : ∀ t ds v, P (.constrained t ds) → Ends (Constraint.allAccept env.hooks v ds) (fun _ => True) Q

section Parts

variable {admits : Schema → Value → Except Fault Bool} {sub : Schema → Schema → Except Fault Bool} {Q : Fault → Prop}

theorem ObjectShape.within_ends {a b : ObjectShape Schema}
    (hadmits : ∀ i, a.index = some i ∨ b.index = some i → ∀ v, Ends (admits i.key v) (fun _ => True) Q)
    (hsub : ∀ s ∈ (Schema.object a).parts, ∀ t ∈ (Schema.object b).parts, Ends (sub s t) (fun _ => True) Q) :
    Ends (within admits sub a b) (fun _ => True) Q := by
  have property : ∀ {x : ObjectShape Schema} {p : Property Schema}, p ∈ x.properties → p.value ∈ (Schema.object x).parts :=
    fun hp => List.mem_append_left _ (List.mem_map_of_mem hp)
  have index : ∀ {x : ObjectShape Schema} {i : IndexSignature Schema}, x.index = some i →
      i.value ∈ (Schema.object x).parts := fun hi => List.mem_append_right _ (by simp [hi, IndexSignature.parts])
  have covers : ∀ p ∈ b.properties, Ends (coversProperty admits sub a p) (fun _ => True) Q := by
    intro p hp
    unfold coversProperty
    cases hq : a.property? p.key with
    | none =>
      unfold absentWithin
      split_ifs
      · trivial
      · cases hi : a.index with
        | none => trivial
        | some i =>
          refine (hadmits i (Or.inl hi) _).bind fun taken _ => ?_
          cases taken with
          | false => trivial
          | true => exact hsub _ (index hi) _ (property hp)
    | some q =>
      dsimp only
      split_ifs
      · trivial
      · exact hsub _ (property (property?_mem hq).1) _ (property hp)
  have extra : ∀ p ∈ a.properties, Ends (extraWithin admits sub b p) (fun _ => True) Q := by
    intro p hp
    unfold extraWithin
    cases hi : b.index with
    | none => trivial
    | some i =>
      refine (hadmits i (Or.inr hi) _).bind fun taken _ => ?_
      cases taken with
      | false => trivial
      | true => exact hsub _ (property hp) _ (index hi)
  have signature : Ends (indexWithin sub a.index b.index) (fun _ => True) Q := by
    cases hi : a.index with
    | none => trivial
    | some i =>
      cases hj : b.index with
      | none => trivial
      | some j =>
        unfold indexWithin
        dsimp only
        split_ifs
        · exact hsub _ (index hi) _ (index hj)
        · trivial
  unfold within
  split_ifs
  · trivial
  · refine (Ends.allM covers).bind fun all _ => ?_
    split_ifs
    · trivial
    · refine (Ends.allM fun p hp => extra p (List.mem_filter.mp hp).1).bind fun all _ => ?_
      split_ifs
      · trivial
      · exact signature

theorem Element.within_ends {es fs : List (Element Schema)}
    (hsub : ∀ e ∈ es, ∀ f ∈ fs, Ends (sub e.value f.value) (fun _ => True) Q) :
    Ends (within sub es fs) (fun _ => True) Q := by
  have pairwise : Ends (pairwiseWithin sub es fs) (fun _ => True) Q := by
    induction es generalizing fs with
    | nil => cases fs <;> trivial
    | cons e es ih =>
      cases fs with
      | nil => trivial
      | cons f fs =>
        unfold pairwiseWithin
        split_ifs
        · trivial
        · refine (hsub e (by simp) f (by simp)).bind fun below _ => ?_
          split_ifs
          · exact ih fun e he f hf => hsub e (by simp [he]) f (by simp [hf])
          · trivial
  unfold within
  cases hf : array? fs with
  | some f =>
    obtain rfl := (array?_eq_some hf).1
    exact Ends.allM fun e he => hsub e he f (by simp)
  | none =>
    dsimp only
    split_ifs
    · trivial
    · exact pairwise

end Parts

namespace Env.StopsOn

variable {env : Env} {P : Schema → Prop} {Q : Fault → Prop} (h : env.StopsOn P Q) {a b : Schema}
include h

theorem plainWithin {sub : Schema → Schema → Except Fault Bool}
    (hsub : ∀ s t, P s → P t → Ends (sub s t) (fun _ => True) Q) (ha : P a) (hb : P b) :
    Ends (env.plainWithin sub a b) (fun _ => True) Q := by
  have domains := h.domains a ha
  have base : ∀ {s t : Schema} {cs : List Constraint}, P (.constrained s cs) → t ∈ (Schema.constrained s cs).parts → P t :=
    fun hs ht => h.part _ _ hs ht
  cases a with
  | constrained s cs =>
    have hs : P s := base ha (by simp [Schema.parts])
    cases b with
    | constrained t ds =>
      refine (hsub s t hs (base hb (by simp [Schema.parts]))).bind fun below _ => ?_
      split_ifs
      · exact Ends.allM fun d hd => h.implied s t cs ds ha hb d hd
      · trivial
    | _ => exact hsub s _ hs hb
  | literal v =>
    cases b with
    | constrained t ds =>
      refine (hsub _ t ha (base hb (by simp [Schema.parts]))).bind fun below _ => ?_
      split_ifs
      · exact h.accepted t ds v hb
      · trivial
    | keyword k => cases k <;> trivial
    | _ => trivial
  | object o =>
    cases b with
    | keyword k => cases k <;> trivial
    | object u =>
      refine ObjectShape.within_ends (fun i hi v => h.admits i.key v ?_) fun s hs t ht =>
        hsub s t (h.part _ s ha hs) (h.part _ t hb ht)
      rcases hi with hi | hi
      · exact h.part _ _ ha (List.mem_append_right _ (by simp [hi, IndexSignature.parts]))
      · exact h.part _ _ hb (List.mem_append_right _ (by simp [hi, IndexSignature.parts]))
    | _ => trivial
  | tuple es =>
    cases b with
    | keyword k => cases k <;> trivial
    | tuple fs =>
      exact Element.within_ends fun e he f hf =>
        hsub _ _ (h.part _ _ ha (List.mem_map_of_mem he)) (h.part _ _ hb (List.mem_map_of_mem hf))
    | _ => trivial
  | _ =>
    cases b with
    | keyword k => cases k <;> first | trivial | exact domains.bind fun d _ => by cases d <;> trivial
    | _ => trivial

theorem subsetWithin (fuel : Nat) (seen : List (Schema × Schema)) (ha : P a) (hb : P b) :
    Ends (env.subsetWithin fuel seen a b) (fun _ => True) Q := by
  induction fuel generalizing seen a b with
  | zero => trivial
  | succ fuel ih =>
    have left : ∀ s ∈ a.parts, Ends (env.subsetWithin fuel seen s b) (fun _ => True) Q := fun s hs =>
      ih seen (h.part a s ha hs) hb
    have right : ∀ t ∈ b.parts, Ends (env.subsetWithin fuel seen a t) (fun _ => True) Q := fun t ht =>
      ih seen ha (h.part b t hb ht)
    have plain : Ends (env.plainWithin (env.subsetWithin fuel seen) a b) (fun _ => True) Q :=
      h.plainWithin (fun s t hs ht => ih seen hs ht) ha hb
    unfold Env.subsetWithin
    dsimp only
    split_ifs with hshort href hseen
    · trivial
    · exact (h.hashable a b ha hb href).bind fun _ _ => trivial
    · refine (h.hashable a b ha hb href).bind fun _ _ => (h.behind a ha).bind fun s hs => (h.behind b hb).bind fun t ht => ?_
      cases s with
      | none => trivial
      | some s =>
        cases t with
        | none => trivial
        | some t => exact ih _ (hs s rfl) (ht t rfl)
    · have orElse : ∀ {x y : Except Fault Bool}, Ends x (fun _ => True) Q → Ends y (fun _ => True) Q →
          Ends (do if ← x then pure true else y) (fun _ => True) Q := by
        refine fun hx hy => hx.bind fun found _ => ?_
        cases found with
        | true => trivial
        | false => exact hy
      cases a with
      | union bs => exact Ends.allM left
      | intersection ms =>
        cases b with
        | intersection ns => exact Ends.allM right
        | union bs => exact orElse (Ends.anyM left) (Ends.anyM right)
        | _ => exact orElse (Ends.anyM left) plain
      | _ =>
        cases b with
        | intersection ns => exact Ends.allM right
        | union bs => exact Ends.anyM right
        | _ => exact plain

theorem isSubset (ha : P a) (hb : P b) : Ends (env.isSubset a b) (fun _ => True) Q := h.subsetWithin _ _ ha hb

theorem pruned {ss : List Schema} (hss : ∀ s ∈ ss, P s) : Ends (env.pruned [] ss) (fun _ => True) Q := by
  have redundant : ∀ before s behind, P s → (∀ t ∈ before ++ behind, P t) →
      Ends (env.isRedundant before s behind) (fun _ => True) Q := by
    intro before s behind hs hothers
    rw [List.forall_mem_append] at hothers
    unfold isRedundant
    split_ifs
    · trivial
    · refine (Ends.anyM fun t ht => h.isSubset hs (hothers.1 t ht)).bind fun covered _ => ?_
      cases covered with
      | true => trivial
      | false =>
        refine Ends.anyM fun t ht => (h.isSubset hs (hothers.2 t ht)).bind fun below _ => ?_
        cases below with
        | true => exact (h.isSubset (hothers.2 t ht) hs).bind fun _ _ => trivial
        | false => trivial
  have run : ∀ behind before, (∀ t ∈ before ++ behind, P t) → Ends (env.pruned before behind) (fun _ => True) Q := by
    intro behind
    induction behind with
    | nil => exact fun _ _ => trivial
    | cons s behind ih =>
      intro before hall
      have hs : P s := hall s (by simp)
      have hothers : ∀ t ∈ before ++ behind, P t := fun t ht => by
        rcases List.mem_append.mp ht with ht | ht <;> exact hall t (by simp [ht])
      exact (redundant before s behind hs hothers).bind fun _ _ =>
        (ih (before ++ [s]) (by simpa using hall)).bind fun _ _ => trivial
  exact run ss [] (by simpa using hss)

theorem union {ss : List Schema} (hss : ∀ s ∈ Schema.flat ss, P s) : Ends (env.union ss) (fun _ => True) Q :=
  (h.pruned hss).bind fun _ _ => trivial

end Env.StopsOn

namespace Env

variable {env : Env}

theorem makeObject_quiet (o : ObjectShape Schema) : Quiet (env.makeObject o) :=
  .of_ends ((makeObject_stops (fun i _ => (env.domains?_quiet i.key).ends) fun _ => rfl).mono (fun _ _ => trivial)
    fun _ h => h)

variable (htrial : Quiet env.trial)
include htrial

theorem admits_quiet (s : Schema) (v : Value) : Quiet (env.admits s v) :=
  htrial.bind fun config => env.accepts_quiet config s v

theorem stopsOn_quiet : env.StopsOn (fun _ => True) fun e => e.isFinding = false where
  part _ _ _ _ := trivial
  behind s _ := by
    cases s <;> first | exact (env.resolve?_quiet _).ends.mono (fun _ _ _ _ => trivial) fun _ h => h | exact fun _ _ => trivial
  hashable a b _ _ _ := by
    unfold Schema.hashable
    cases a.changeable?.or b.changeable? <;> trivial
  domains s _ := (env.domains?_quiet s).ends
  admits s v _ := (admits_quiet htrial s v).ends
  implied _ _ cs _ _ _ d _ := by
    refine Ends.anyM fun c _ => ?_
    split_ifs
    · trivial
    · cases d.covers c <;> trivial
  accepted _ ds v _ := by
    refine Ends.allM fun c _ => ?_
    cases c.check env.hooks v <;> trivial

theorem isSubset_quiet (a b : Schema) : Quiet (env.isSubset a b) :=
  .of_ends ((stopsOn_quiet htrial).isSubset trivial trivial)

theorem union_quiet (ss : List Schema) : Quiet (env.union ss) :=
  .of_ends ((stopsOn_quiet htrial).union fun _ _ => trivial)

end Env
end Schemata
