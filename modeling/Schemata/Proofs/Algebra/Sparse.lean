import Schemata.Proofs.Algebra.Union

/-! Unions of unions. What pruning keeps it keeps a second time, and so does any part of it in the same order: the
branches that remain stand side by side, and there they are not redundant. -/
namespace Schemata

namespace Schema

variable {R : Schema → Schema → Prop} {before behind bs cs ss : List Schema} {s t : Schema}

/-- Neither of two branches gives way to the other, the first standing before the second. -/
def BothStay (R : Schema → Schema → Prop) (s t : Schema) : Prop :=
  (t.isPlain = true → ¬ R t s) ∧ (s.isPlain = true → R s t → R t s)

/-- Branches that a union leaves as they are, up to repetitions. -/
structure Sparse (R : Schema → Schema → Prop) (bs : List Schema) : Prop where
  flat : ∀ s ∈ bs, s.isUnion = false
  booleans : ¬ (trueLiteral.isIn bs && falseLiteral.isIn bs) = true
  stay : bs.Pairwise (BothStay R)

theorem isIn_mono (h : bs ⊆ cs) (hs : s.isIn bs = true) : s.isIn cs = true := by
  obtain ⟨t, ht, hsame⟩ := List.any_eq_true.mp hs
  exact List.any_eq_true.mpr ⟨t, h ht, hsame⟩

theorem Sparse.sublist (h : Sparse R cs) (hbs : bs.Sublist cs) : Sparse R bs where
  flat s hs := h.flat s (hbs.subset hs)
  booleans hboth := by
    rw [Bool.and_eq_true] at hboth
    exact h.booleans (Bool.and_eq_true_iff.mpr ⟨isIn_mono hbs.subset hboth.1, isIn_mono hbs.subset hboth.2⟩)
  stay := h.stay.sublist hbs

theorem branches_of_not_isUnion (hs : s.isUnion = false) : s.branches = [s] := by
  cases s <;> first | rfl | simp [isUnion] at hs

theorem flatMap_branches (h : ∀ s ∈ ss, s.isUnion = false) : ss.flatMap branches = ss := by
  induction ss with
  | nil => rfl
  | cons s ss ih =>
    obtain ⟨hs, hss⟩ := List.forall_mem_cons.mp h
    rw [List.flatMap_cons, branches_of_not_isUnion hs, ih hss, List.singleton_append]

theorem branches_ofBranches (h : ∀ s ∈ bs, s.isUnion = false) : (ofBranches bs).branches = bs := by
  unfold ofBranches
  split
  · exact branches_of_not_isUnion (h _ (by simp))
  · rfl

theorem distinct_eq_self (h : ss.Pairwise fun s t => s.same t = false) : distinct ss = ss := by
  induction ss using List.reverseRecOn with
  | nil => rfl
  | append_singleton ss s ih =>
    obtain ⟨hss, -, hlast⟩ := List.pairwise_append.mp h
    have hno : s.isIn ss = false := List.any_eq_false.mpr fun t ht => by simp [hlast t ht s]
    rw [distinct_append, ih hss, hno]
    rfl

/-- After both truth values have been replaced by their keyword neither of them is left. -/
theorem flat_booleans : ¬ (trueLiteral.isIn (flat ss) && falseLiteral.isIn (flat ss)) = true := by
  intro h
  by_cases hboth : (trueLiteral.isIn (distinct (ss.flatMap branches)) &&
      falseLiteral.isIn (distinct (ss.flatMap branches))) = true
  · rw [Bool.and_eq_true] at h
    obtain ⟨t, ht, hsame⟩ := List.any_eq_true.mp h.1
    rcases (mem_collapseBooleans hboth).mp ht with rfl | ⟨-, hno, -⟩
    · simp [same, trueLiteral] at hsame
    · rw [hno] at hsame
      exact Bool.noConfusion hsame
  · exact hboth (by rwa [flat, collapseBooleans_of_not hboth] at h)

end Schema

namespace Env

open Schema (BothStay Sparse)

variable {env : Env} {R : Schema → Schema → Prop} {before behind bs kept ss : List Schema} {s t u : Schema}

/-- The subset test answers that neither of two branches gives way to the other, the first standing before the
second. -/
def Abreast (env : Env) (s t : Schema) : Prop :=
  (t.isPlain = true → env.isSubset t s = .ok false) ∧
    (s.isPlain = true → env.isSubset s t = .ok false ∨ env.isSubset s t = .ok true ∧ env.isSubset t s = .ok true)

/-- Of two plain branches that stand side by side neither lies inside the other. -/
theorem Abreast.apart (h : env.Abreast s t) (hs : s.isPlain = true) (ht : t.isPlain = true) :
    env.isSubset s t = .ok false ∧ env.isSubset t s = .ok false := by
  have hback := h.1 ht
  refine ⟨(h.2 hs).resolve_right fun ⟨_, hyes⟩ => ?_, hback⟩
  exact Bool.noConfusion (Except.ok.inj (hback.symm.trans hyes))

/-- What lies behind a branch makes it redundant unless the subset test refuses it or goes both ways. -/
theorem behind_ok_false_iff : (do if ← env.isSubset s t then pure (!(← env.isSubset t s)) else pure false) =
    Except.ok false ↔ env.isSubset s t = .ok false ∨ env.isSubset s t = .ok true ∧ env.isSubset t s = .ok true := by
  cases env.isSubset s t with
  | error e => simp [bind, Except.bind]
  | ok below =>
    cases below with
    | false => simp [bind, Except.bind, pure, Except.pure]
    | true => cases env.isSubset t s <;> simp [bind, Except.bind, pure, Except.pure]

theorem isRedundant_ok_false_iff : env.isRedundant before s behind = .ok false ↔ (s.isPlain = true →
    (∀ t ∈ before, env.isSubset s t = .ok false) ∧
      ∀ t ∈ behind, env.isSubset s t = .ok false ∨ env.isSubset s t = .ok true ∧ env.isSubset t s = .ok true) := by
  have none_iff : ∀ {p : Schema → Except Fault Bool} {l : List Schema}, l.anyM p = .ok false ↔ ∀ t ∈ l, p t = .ok false :=
    ⟨anyM_ok_false, fun h => (Decides.any (P := fun _ => False) fun t ht => h t ht ▸ .of_false id).eq_false (by simp)⟩
  unfold isRedundant
  cases hplain : s.isPlain with
  | false => simp
  | true =>
    simp only [Bool.not_true, Bool.false_eq_true, if_false, forall_const, ← behind_ok_false_iff, ← none_iff]
    cases before.anyM fun t => env.isSubset s t with
    | error e => simp [bind, Except.bind]
    | ok found => cases found <;> simp [bind, Except.bind, pure, Except.pure]

/-- What pruning keeps stands side by side, and none of it that is plain lies inside what stood before. -/
theorem pruned_abreast (h : env.pruned before ss = .ok kept) :
    kept.Pairwise env.Abreast ∧ ∀ t ∈ kept, t.isPlain = true → ∀ s ∈ before, env.isSubset t s = .ok false := by
  induction ss generalizing before kept with
  | nil =>
    obtain rfl := Except.ok.inj h
    exact ⟨.nil, nofun⟩
  | cons s ss ih =>
    obtain ⟨r, rest, hr, hrest, rfl⟩ := combine_ok h
    obtain ⟨habreast, hbefore⟩ := ih hrest
    have rest_before : ∀ t ∈ rest, t.isPlain = true → ∀ u ∈ before, env.isSubset t u = .ok false :=
      fun t ht hplain u hu => hbefore t ht hplain u (List.mem_append_left _ hu)
    cases r with
    | true => exact ⟨habreast, rest_before⟩
    | false =>
      have hstay := isRedundant_ok_false_iff.mp hr
      refine ⟨List.pairwise_cons.mpr ⟨fun t ht => ⟨?_, ?_⟩, habreast⟩,
        List.forall_mem_cons.mpr ⟨fun hplain => (hstay hplain).1, rest_before⟩⟩
      · exact fun hplain => hbefore t ht hplain s (by simp)
      · exact fun hplain => (hstay hplain).2 t (pruned_subset hrest ht)

/-- Pruning keeps all that stands side by side. -/
theorem pruned_of_abreast (h : (before ++ ss).Pairwise env.Abreast) : env.pruned before ss = .ok ss := by
  induction ss generalizing before with
  | nil => rfl
  | cons s ss ih =>
    have hno : env.isRedundant before s ss = .ok false := by
      obtain ⟨-, hafter, hacross⟩ := List.pairwise_append.mp h
      refine isRedundant_ok_false_iff.mpr fun hplain => ⟨fun t ht => (hacross t ht s (by simp)).1 hplain, fun t ht => ?_⟩
      exact ((List.pairwise_cons.mp hafter).1 t ht).2 hplain
    have hrest : env.pruned (before ++ [s]) ss = .ok ss := ih (by simpa using h)
    unfold pruned
    rw [hno, hrest]
    rfl

/-- Where the subset test answers, branches stand side by side when neither gives way to the other. -/
theorem abreast_iff (hst : Decides (env.isSubset s t) (R s t)) (hts : Decides (env.isSubset t s) (R t s)) :
    env.Abreast s t ↔ BothStay R s t := by
  obtain ⟨below, hbelow, hst⟩ := hst
  obtain ⟨above, habove, hts⟩ := hts
  unfold Abreast BothStay
  rw [hbelow, habove, ← hst, ← hts]
  cases below <;> cases above <;> simp

/-- Where the subset test answers, what pruning keeps is apart, and nothing of it lies inside what stood before. -/
theorem pruned_stay (hR : ∀ a ∈ before ++ ss, ∀ b ∈ before ++ ss, Decides (env.isSubset a b) (R a b))
    (h : env.pruned before ss = .ok kept) :
    kept.Pairwise (BothStay R) ∧ ∀ t ∈ kept, t.isPlain = true → ∀ s ∈ before, ¬ R t s := by
  obtain ⟨habreast, hbefore⟩ := pruned_abreast h
  have here : ∀ t ∈ kept, t ∈ before ++ ss := fun t ht => List.mem_append_right _ (pruned_subset h ht)
  refine ⟨habreast.imp_of_mem fun {s t} hs ht hst => ?_, fun t ht hplain s hs hRts => ?_⟩
  · exact (abreast_iff (hR s (here s hs) t (here t ht)) (hR t (here t ht) s (here s hs))).mp hst
  · have hyes := (hR t (here t ht) s (List.mem_append_left _ hs)).eq_true hRts
    exact Bool.noConfusion (Except.ok.inj (hyes.symm.trans (hbefore t ht hplain s hs)))

/-- Pruning keeps all that is apart. -/
theorem pruned_of_stay (hR : ∀ a ∈ before ++ ss, ∀ b ∈ before ++ ss, Decides (env.isSubset a b) (R a b))
    (h : (before ++ ss).Pairwise (BothStay R)) : env.pruned before ss = .ok ss :=
  pruned_of_abreast (h.imp_of_mem fun {s t} hs ht hst => (abreast_iff (hR s hs t ht) (hR t ht s hs)).mpr hst)

theorem pruned_of_bare (h : ∀ s ∈ ss, s.isPlain = false) : env.pruned before ss = .ok ss := by
  induction ss generalizing before with
  | nil => rfl
  | cons s ss ih =>
    obtain ⟨hs, hss⟩ := List.forall_mem_cons.mp h
    simp only [pruned, isRedundant, hs, ih hss]
    rfl

/-- A union of different objects is made of just these. -/
theorem union_objects {os : List (ObjectShape Schema)} (hlength : 2 ≤ os.length)
    (h : (os.map Schema.object).Pairwise fun s t => s.same t = false) :
    env.union (os.map .object) = .ok (.union (os.map .object)) := by
  have bare : ∀ s ∈ os.map Schema.object, ∃ o, s = .object o := by simp
  have hflat : Schema.flat (os.map .object) = os.map .object := by
    have hno : Schema.trueLiteral.isIn (os.map .object) = false := List.any_eq_false.mpr fun s hs => by
      obtain ⟨o, rfl⟩ := bare s hs
      simp [Schema.trueLiteral, Schema.same]
    rw [Schema.flat, Schema.flatMap_branches, Schema.distinct_eq_self h, Schema.collapseBooleans_of_not]
    · simp [hno]
    · intro s hs
      obtain ⟨o, rfl⟩ := bare s hs
      rfl
  have hkept : env.pruned [] (Schema.flat (os.map .object)) = .ok (os.map .object) := by
    rw [hflat]
    refine pruned_of_bare fun s hs => ?_
    obtain ⟨o, rfl⟩ := bare s hs
    rfl
  rw [union_of_pruned hkept]
  rcases os with - | ⟨o, - | ⟨p, os⟩⟩
  · simp at hlength
  · simp at hlength
  · rfl

/-- The branches of a union are sparse. -/
theorem union_sparse (hR : ∀ a ∈ Schema.flat ss, ∀ b ∈ Schema.flat ss, Decides (env.isSubset a b) (R a b))
    (hss : ∀ s ∈ ss, s.isUnion = false) (h : env.union ss = .ok u) :
    Sparse R u.branches ∧ u.branches ⊆ Schema.flat ss := by
  have hflat : ∀ t ∈ Schema.flat ss, t.isUnion = false := by
    intro t ht
    rcases Schema.mem_flat ht with ⟨s, hs, ht⟩ | ⟨rfl, -⟩
    · rw [Schema.branches_of_not_isUnion (hss s hs), List.mem_singleton] at ht
      exact ht ▸ hss s hs
    · rfl
  obtain ⟨kept, hkept, h⟩ := bind_ok h
  obtain rfl := Except.ok.inj h
  have hkept : env.pruned [] (Schema.flat ss) = .ok kept := hkept
  have hsub : kept ⊆ Schema.flat ss := pruned_subset hkept
  rw [Schema.branches_ofBranches fun s hs => hflat s (hsub hs)]
  refine ⟨⟨fun s hs => hflat s (hsub hs), fun hboth => ?_, (pruned_stay (by simpa using hR) hkept).1⟩, hsub⟩
  rw [Bool.and_eq_true] at hboth
  exact Schema.flat_booleans (Bool.and_eq_true_iff.mpr ⟨Schema.isIn_mono hsub hboth.1, Schema.isIn_mono hsub hboth.2⟩)

/-- A union of sparse branches drops repetitions only. -/
theorem union_of_sparse (hR : ∀ a ∈ bs, ∀ b ∈ bs, Decides (env.isSubset a b) (R a b)) (h : Sparse R bs) :
    env.union bs = .ok (.ofBranches (Schema.distinct bs)) := by
  have hsub := Schema.distinct_sublist bs
  have hsparse := h.sublist hsub
  have hflat : Schema.flat bs = Schema.distinct bs := by
    rw [Schema.flat, Schema.flatMap_branches h.flat, Schema.collapseBooleans_of_not hsparse.booleans]
  refine union_of_pruned ?_
  rw [hflat]
  exact pruned_of_stay (fun a ha b hb => hR a (hsub.subset ha) b (hsub.subset hb)) hsparse.stay

end Env
end Schemata
