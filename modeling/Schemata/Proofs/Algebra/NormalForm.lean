import Schemata.Proofs.Algebra.Sparse

/-! The normal form of a union. Its branches are no unions, do not repeat and stand side by side, so the union of them
is the same union again. The subset test need not answer for every two schemas: where it answers all that a union asks,
it has answered all that the union of the branches will ask. -/
namespace Schemata

namespace Schema

variable {s : Schema}

theorem keyword_of_same {k : Keyword} (h : s.same (.keyword k) = true) : s = .keyword k := by
  cases s <;> simp_all [same]

theorem keyword_of_same_left {k : Keyword} (h : (keyword k).same s = true) : s = .keyword k := by
  cases s <;> simp_all [same]

theorem distinct_pairwise (ss : List Schema) : (distinct ss).Pairwise fun s t => s.same t = false := by
  induction ss using List.reverseRecOn with
  | nil => exact .nil
  | append_singleton ss s ih =>
    rw [distinct_append]
    cases hin : s.isIn (distinct ss) with
    | true => exact ih
    | false =>
      refine List.pairwise_append.mpr ⟨ih, List.pairwise_singleton _ _, fun t ht u hu => ?_⟩
      obtain rfl := List.mem_singleton.mp hu
      simpa using List.any_eq_false.mp hin t ht

/-- Before pruning nothing but the keyword of the truth values may stand twice. -/
theorem flat_pairwise (ss : List Schema) :
    (flat ss).Pairwise fun s t => s.same t = true → s = .keyword .boolean ∧ t = .keyword .boolean := by
  have hdistinct : (distinct (ss.flatMap branches)).Pairwise fun s t =>
      s.same t = true → s = .keyword .boolean ∧ t = .keyword .boolean :=
    (distinct_pairwise _).imp fun hno hsame => absurd hsame (by simp [hno])
  unfold flat collapseBooleans
  split_ifs
  · generalize distinct (ss.flatMap branches) = l at hdistinct
    -- The keyword is put between two parts of the list.
    rw [← List.takeWhile_append_dropWhile (p := fun s => !(s.same trueLiteral || s.same falseLiteral)) (l := l)]
      at hdistinct
    obtain ⟨hfront, hback, hacross⟩ := List.pairwise_append.mp hdistinct
    refine List.pairwise_append.mpr ⟨hfront, List.pairwise_cons.mpr ⟨fun t _ hsame => ?_, hback.filter _⟩,
      fun s hs t ht hsame => ?_⟩
    · exact ⟨rfl, keyword_of_same_left hsame⟩
    · rcases List.mem_cons.mp ht with rfl | ht
      · exact ⟨keyword_of_same hsame, rfl⟩
      · exact hacross s hs t (List.mem_of_mem_filter ht) hsame
  · exact hdistinct

end Schema

namespace Env

variable {env : Env} {before ss : List Schema}

/-- Pruning stops with nothing but what a subset test stops with. -/
theorem pruned_ends : Ends (env.pruned before ss) (fun _ => True) fun e =>
    ∃ a ∈ before ++ ss, ∃ b ∈ before ++ ss, env.isSubset a b = .error e := by
  induction ss generalizing before with
  | nil => trivial
  | cons s ss ih =>
    have asked : ∀ a ∈ before ++ s :: ss, ∀ b ∈ before ++ s :: ss, Ends (env.isSubset a b) (fun _ => True) fun e =>
        ∃ a ∈ before ++ s :: ss, ∃ b ∈ before ++ s :: ss, env.isSubset a b = .error e := by
      intro a ha b hb
      cases hab : env.isSubset a b with
      | ok _ => trivial
      | error e => exact ⟨a, ha, b, hb, hab⟩
    have here : s ∈ before ++ s :: ss := by simp
    have redundant : Ends (env.isRedundant before s ss) (fun _ => True) fun e =>
        ∃ a ∈ before ++ s :: ss, ∃ b ∈ before ++ s :: ss, env.isSubset a b = .error e := by
      unfold isRedundant
      split_ifs
      · trivial
      · refine (Ends.anyM fun t ht => asked s here t (by simp [ht])).bind fun found _ => ?_
        split_ifs
        · trivial
        · refine Ends.anyM fun t ht => (asked s here t (by simp [ht])).bind fun below _ => ?_
          split_ifs
          · exact (asked t (by simp [ht]) s here).bind fun _ _ => trivial
          · trivial
    refine redundant.bind fun _ _ => (@ih (before ++ [s])).mono (fun _ h => h) (fun e he => ?_) |>.bind
      fun _ _ => trivial
    simpa using he

/-- A union in normal form. Its branches make the same union again. No branch is repeated, none is the empty union, and
they do not hold both truth values; of two plain branches neither lies inside the other. -/
structure Normal (env : Env) (u : Schema) : Prop where
  union_branches : env.union u.branches = .ok u
  distinct : u.branches.Pairwise fun s t => s.same t = false
  inhabited : ∀ s ∈ u.branches, s.isNever = false
  booleans : ¬ (Schema.trueLiteral.isIn u.branches = true ∧ Schema.falseLiteral.isIn u.branches = true)
  apart : u.branches.Pairwise fun s t => s.isPlain = true → t.isPlain = true →
    env.isSubset s t = .ok false ∧ env.isSubset t s = .ok false

/-- Branches that are no unions, do not repeat, do not hold both truth values and stand side by side are those of
their union. -/
theorem union_of_abreast (hflat : ∀ s ∈ ss, s.isUnion = false) (hdistinct : ss.Pairwise fun s t => s.same t = false)
    (hbooleans : ¬ (Schema.trueLiteral.isIn ss && Schema.falseLiteral.isIn ss) = true)
    (habreast : ss.Pairwise env.Abreast) : env.union ss = .ok (.ofBranches ss) := by
  have hself : Schema.flat ss = ss := by
    rw [Schema.flat, Schema.flatMap_branches hflat, Schema.distinct_eq_self hdistinct,
      Schema.collapseBooleans_of_not hbooleans]
  exact union_of_pruned (by rw [hself]; exact pruned_of_abreast habreast)

/-- Branches that stand side by side do not repeat the keyword of the truth values, as it lies inside itself. -/
theorem distinct_of_abreast
    (hflat : ss.Pairwise fun s t => s.same t = true → s = .keyword .boolean ∧ t = .keyword .boolean)
    (habreast : ss.Pairwise env.Abreast) : ss.Pairwise fun s t => s.same t = false := by
  refine (hflat.and habreast).imp fun ⟨hsame, hst⟩ => Bool.eq_false_iff.mpr fun h => ?_
  obtain ⟨rfl, rfl⟩ := hsame h
  have hself : env.isSubset (.keyword .boolean) (.keyword .boolean) = .ok true := by
    rfl
  exact Bool.noConfusion (Except.ok.inj (hself.symm.trans (hst.1 rfl)))

/-- A union of schemas of which no union has a union for a branch is in normal form. It stops only where the subset
test of two of its branches stops. -/
theorem union_normal (hss : ∀ bs, .union bs ∈ ss → ∀ cs, Schema.union cs ∉ bs) :
    Ends (env.union ss) env.Normal fun e =>
      ∃ a ∈ Schema.flat ss, ∃ b ∈ Schema.flat ss, env.isSubset a b = .error e := by
  have hflat : ∀ t ∈ Schema.flat ss, t.isUnion = false := by
    intro t ht
    rcases Schema.mem_flat ht with ⟨s, hs, ht⟩ | ⟨rfl, -⟩
    · cases hunion : t with
      | union cs =>
        cases s with
        | union bs => exact absurd (hunion ▸ ht) (hss bs hs cs)
        | _ => simp [Schema.branches, hunion] at ht
      | _ => rfl
    · rfl
  have hends : Ends (env.pruned [] (Schema.flat ss)) (fun kept => env.pruned [] (Schema.flat ss) = .ok kept) fun e =>
      ∃ a ∈ Schema.flat ss, ∃ b ∈ Schema.flat ss, env.isSubset a b = .error e := pruned_ends.self
  refine hends.bind fun kept hkept => ?_
  have hsub : kept.Sublist (Schema.flat ss) := pruned_sublist hkept
  have habreast : kept.Pairwise env.Abreast := (pruned_abreast hkept).1
  have hdistinct := distinct_of_abreast ((Schema.flat_pairwise ss).sublist hsub) habreast
  have hbranches : (Schema.ofBranches kept).branches = kept :=
    Schema.branches_ofBranches fun s hs => hflat s (hsub.subset hs)
  have hbooleans : ¬ (Schema.trueLiteral.isIn kept && Schema.falseLiteral.isIn kept) = true := by
    intro hboth
    rw [Bool.and_eq_true] at hboth
    exact Schema.flat_booleans (Bool.and_eq_true_iff.mpr
      ⟨Schema.isIn_mono hsub.subset hboth.1, Schema.isIn_mono hsub.subset hboth.2⟩)
  show env.Normal (.ofBranches kept)
  constructor
  · rw [hbranches]
    exact union_of_abreast (fun s hs => hflat s (hsub.subset hs)) hdistinct hbooleans habreast
  · exact hbranches.symm ▸ hdistinct
  · rw [hbranches]
    intro s hs
    have hs := hflat s (hsub.subset hs)
    cases s <;> first | rfl | simp [Schema.isUnion] at hs
  · rwa [hbranches, ← Bool.and_eq_true]
  · rw [hbranches]
    exact habreast.imp fun h hs ht => h.apart hs ht

/-- Truth values beside their keyword, a text beside all texts, and an empty union. -/
def answers : List Schema :=
  [.keyword .boolean, .literal (.bool true), .union [.literal (.bool false), .keyword .string], .never,
    .literal (.string "unsure")]

theorem union_normal_answers : (∀ bs, .union bs ∈ answers → ∀ cs, Schema.union cs ∉ bs) ∧
    bare.union answers = .ok (.union [.keyword .boolean, .keyword .string]) ∧
    bare.Normal (.union [.keyword .boolean, .keyword .string]) := by
  have hanswers : ∀ bs, .union bs ∈ answers → ∀ cs, Schema.union cs ∉ bs := by
    simp [answers, Schema.never]
  have hunion : bare.union answers = .ok (.union [.keyword .boolean, .keyword .string]) := rfl
  have hends : Ends (bare.union answers) bare.Normal _ := union_normal hanswers
  rw [hunion] at hends
  exact ⟨hanswers, hunion, hends⟩

end Env
end Schemata
