import Mathlib.Data.List.TakeWhile
import Schemata.Proofs.Algebra.Containment
import Schemata.Proofs.Algebra.Pruning

/-! The normal form of a union has the values of the schemas it is made of: flattening, dropping repetitions
and collapsing the truth values change nothing, and pruning only ever drops. -/
namespace Schemata

namespace Schema

/-- The branches of a union before pruning. -/
def flat (ss : List Schema) : List Schema := collapseBooleans (distinct (ss.flatMap branches))

section Branches

variable {env : Env} {exact : Bool} {d : Dialect} {v : Value} {p : Schema → Prop} {ss : List Schema}

theorem member_branches {s : Schema} : (∃ t ∈ s.branches, Member env exact t v) ↔ Member env exact s v := by
  cases s <;> simp [branches]

theorem every_branches {s : Schema} (hs : s.Every p) : ∀ t ∈ s.branches, t.Every p := by
  intro t ht
  cases s with
  | union bs => exact hs.branch ht
  | _ =>
    obtain rfl := List.mem_singleton.mp ht
    exact hs

theorem distinct_append (ss : List Schema) (s : Schema) :
    distinct (ss ++ [s]) = if s.isIn (distinct ss) then distinct ss else distinct ss ++ [s] := by
  simp only [distinct, List.foldl_append, List.foldl_cons, List.foldl_nil]
  rfl

theorem distinct_sublist (ss : List Schema) : (distinct ss).Sublist ss := by
  induction ss using List.reverseRecOn with
  | nil => exact .slnil
  | append_singleton ss t ih =>
    rw [distinct_append]
    split
    · exact ih.trans (List.sublist_append_left _ _)
    · exact ih.append_right _

theorem mem_of_mem_distinct {s : Schema} (hs : s ∈ distinct ss) : s ∈ ss := (distinct_sublist ss).subset hs

/-- Every schema of a list is equal to one that stays. -/
theorem distinct_covers {s : Schema} (hs : s ∈ ss) : ∃ t ∈ distinct ss, t = s ∨ t.same s = true := by
  induction ss using List.reverseRecOn with
  | nil => simp at hs
  | append_singleton ss u ih =>
    rw [distinct_append]
    rcases List.mem_append.mp hs with hs | hs
    · obtain ⟨t, ht, h⟩ := ih hs
      refine ⟨t, ?_, h⟩
      split
      · exact ht
      · exact List.mem_append_left _ ht
    · obtain rfl := List.mem_singleton.mp hs
      split
      · rename_i hin
        obtain ⟨t, ht, hsame⟩ := List.any_eq_true.mp hin
        exact ⟨t, ht, Or.inr hsame⟩
      · exact ⟨s, by simp, Or.inl rfl⟩

theorem member_distinct (hss : ∀ s ∈ ss, s.Every (Fits d)) :
    (∃ t ∈ distinct ss, Member env exact t v) ↔ ∃ s ∈ ss, Member env exact s v := by
  constructor
  · rintro ⟨t, ht, h⟩
    exact ⟨t, mem_of_mem_distinct ht, h⟩
  · rintro ⟨s, hs, h⟩
    obtain ⟨t, ht, rfl | hsame⟩ := distinct_covers hs
    · exact ⟨_, ht, h⟩
    · exact ⟨t, ht, (member_of_same (hss t (mem_of_mem_distinct ht)) (hss s hs) hsame v).mpr h⟩

theorem every_distinct (hss : ∀ s ∈ ss, s.Every p) : ∀ t ∈ distinct ss, t.Every p :=
  fun t ht => hss t (mem_of_mem_distinct ht)

/-- Where both truth values stand in a list the keyword takes their place. -/
theorem mem_collapseBooleans {t : Schema} (hboth : (trueLiteral.isIn ss && falseLiteral.isIn ss) = true) :
    t ∈ collapseBooleans ss ↔ t = .keyword .boolean ∨
      t ∈ ss ∧ t.same trueLiteral = false ∧ t.same falseLiteral = false := by
  have hsplit : t ∈ ss ↔ t ∈ ss.takeWhile (fun s => !(s.same trueLiteral || s.same falseLiteral)) ∨
      t ∈ ss.dropWhile (fun s => !(s.same trueLiteral || s.same falseLiteral)) := by
    rw [← List.mem_append, List.takeWhile_append_dropWhile]
  have htake : t ∈ ss.takeWhile (fun s => !(s.same trueLiteral || s.same falseLiteral)) →
      t.same trueLiteral = false ∧ t.same falseLiteral = false := by
    intro h
    simpa using List.mem_takeWhile_imp h
  unfold collapseBooleans
  rw [if_pos hboth]
  simp only [List.mem_append, List.mem_cons, List.mem_filter, hsplit, Bool.not_eq_true', Bool.or_eq_false_iff]
  tauto

theorem collapseBooleans_of_not (hboth : ¬ (trueLiteral.isIn ss && falseLiteral.isIn ss) = true) :
    collapseBooleans ss = ss := by
  unfold collapseBooleans
  rw [if_neg hboth]

theorem every_collapseBooleans (hp : p (.keyword .boolean)) (hss : ∀ s ∈ ss, s.Every p) :
    ∀ t ∈ collapseBooleans ss, t.Every p := by
  intro t ht
  by_cases hboth : (trueLiteral.isIn ss && falseLiteral.isIn ss) = true
  · rcases (mem_collapseBooleans hboth).mp ht with rfl | ⟨ht, -⟩
    · exact .intro hp (by simp [parts])
    · exact hss t ht
  · rw [collapseBooleans_of_not hboth] at ht
    exact hss t ht

theorem member_boolLiteral {b : Bool} : Member env exact (.literal (.bool b)) v ↔ v = .bool b := by
  rw [member_literal_iff rfl, Value.Twin.of_ne (by simp)]

theorem member_collapseBooleans (hss : ∀ s ∈ ss, s.Every (Fits d)) (hv : v.Tied) :
    (∃ t ∈ collapseBooleans ss, Member env exact t v) ↔ ∃ s ∈ ss, Member env exact s v := by
  have literal_fits : ∀ b, (literal (.bool b)).Every (Fits d) := fun b => .intro rfl (by simp [parts])
  by_cases hboth : (trueLiteral.isIn ss && falseLiteral.isIn ss) = true
  · have holds : ∀ {b : Bool}, v = .bool b → Keyword.holds .boolean v = true := by
      rintro b rfl
      rfl
    constructor
    · rintro ⟨t, ht, h⟩
      rcases (mem_collapseBooleans hboth).mp ht with rfl | ⟨ht, -⟩
      · have hdomain : v.domain = .boolean := by
          simpa [Keyword.holds, Keyword.domains, DomainSet.of] using member_keyword.mp h
        obtain ⟨b, rfl⟩ := Value.bool_of_domain hv hdomain
        rw [Bool.and_eq_true] at hboth
        have hin : (literal (.bool b)).isIn ss = true := by
          cases b
          · exact hboth.2
          · exact hboth.1
        obtain ⟨s, hs, hsame⟩ := List.any_eq_true.mp hin
        exact ⟨s, hs, (member_of_same (hss s hs) (literal_fits b) hsame _).mpr (member_boolLiteral.mpr rfl)⟩
      · exact ⟨t, ht, h⟩
    · rintro ⟨s, hs, h⟩
      have truth : ∀ b, s.same (.literal (.bool b)) = true →
          ∃ t ∈ collapseBooleans ss, Member env exact t v := by
        intro b hsame
        have hv := member_boolLiteral.mp ((member_of_same (hss s hs) (literal_fits b) hsame v).mp h)
        exact ⟨_, (mem_collapseBooleans hboth).mpr (Or.inl rfl), .keyword (holds hv)⟩
      cases htrue : s.same trueLiteral with
      | true => exact truth true htrue
      | false =>
      cases hfalse : s.same falseLiteral with
      | true => exact truth false hfalse
      | false => exact ⟨s, (mem_collapseBooleans hboth).mpr (Or.inr ⟨hs, htrue, hfalse⟩), h⟩
  · rw [collapseBooleans_of_not hboth]

/-- The branches of a union come from its operands, but for the keyword of the two truth values. -/
theorem mem_flat {t : Schema} (h : t ∈ flat ss) : (∃ s ∈ ss, t ∈ s.branches) ∨
    t = .keyword .boolean ∧ ∃ s ∈ ss, ∃ b ∈ s.branches, b.isPlain = true := by
  by_cases hboth : (trueLiteral.isIn (distinct (ss.flatMap branches)) &&
      falseLiteral.isIn (distinct (ss.flatMap branches))) = true
  · rcases (mem_collapseBooleans hboth).mp h with rfl | ⟨ht, -⟩
    · obtain ⟨b, hb, hsame⟩ := List.any_eq_true.mp (Bool.and_eq_true_iff.mp hboth).1
      obtain ⟨s, hs, hb⟩ := List.mem_flatMap.mp (mem_of_mem_distinct hb)
      refine Or.inr ⟨rfl, s, hs, b, hb, ?_⟩
      cases b <;> simp_all [same, trueLiteral, isPlain]
    · exact Or.inl (List.mem_flatMap.mp (mem_of_mem_distinct ht))
  · unfold flat at h
    rw [collapseBooleans_of_not hboth] at h
    exact Or.inl (List.mem_flatMap.mp (mem_of_mem_distinct h))

theorem every_flat (hp : p (.keyword .boolean)) (hss : ∀ s ∈ ss, s.Every p) : ∀ t ∈ flat ss, t.Every p := by
  refine every_collapseBooleans hp (every_distinct fun t ht => ?_)
  obtain ⟨s, hs, ht⟩ := List.mem_flatMap.mp ht
  exact every_branches (hss s hs) t ht

/-- Flattening, dropping repetitions and collapsing the truth values keep the values. -/
theorem member_flat (hss : ∀ s ∈ ss, s.Every (Fits d)) (hv : v.Tied) :
    (∃ t ∈ flat ss, Member env exact t v) ↔ ∃ s ∈ ss, Member env exact s v := by
  have hbranches : ∀ t ∈ ss.flatMap branches, t.Every (Fits d) := by
    intro t ht
    obtain ⟨s, hs, ht⟩ := List.mem_flatMap.mp ht
    exact every_branches (hss s hs) t ht
  rw [flat, member_collapseBooleans (every_distinct hbranches) hv, member_distinct hbranches]
  constructor
  · rintro ⟨t, ht, h⟩
    obtain ⟨s, hs, ht⟩ := List.mem_flatMap.mp ht
    exact ⟨s, hs, member_branches.mp ⟨t, ht, h⟩⟩
  · rintro ⟨s, hs, h⟩
    obtain ⟨t, ht, h⟩ := member_branches.mpr h
    exact ⟨t, List.mem_flatMap.mpr ⟨s, hs, ht⟩, h⟩

theorem member_ofBranches {kept : List Schema} :
    Member env exact (ofBranches kept) v ↔ ∃ t ∈ kept, Member env exact t v := by
  unfold ofBranches
  split <;> simp

theorem every_ofBranches (hp : ∀ bs, p (.union bs)) {kept : List Schema} (h : ∀ t ∈ kept, t.Every p) :
    (ofBranches kept).Every p := by
  unfold ofBranches
  split
  · exact h _ (by simp)
  · exact .intro (hp _) h

end Branches

end Schema

namespace Env

variable {env : Env} {exact : Bool} {d : Dialect} {ss : List Schema} {u : Schema}

theorem pruned_sublist {before kept : List Schema} (h : env.pruned before ss = .ok kept) : kept.Sublist ss := by
  induction ss generalizing before kept with
  | nil =>
    obtain rfl := Except.ok.inj h
    exact .slnil
  | cons s ss ih =>
    obtain ⟨r, rest, -, hrest, rfl⟩ := combine_ok h
    split
    · exact (ih hrest).cons s
    · exact (ih hrest).cons_cons s

theorem pruned_subset {before kept : List Schema} (h : env.pruned before ss = .ok kept) : kept ⊆ ss :=
  (pruned_sublist h).subset

theorem union_of_pruned {kept : List Schema} (h : env.pruned [] (Schema.flat ss) = .ok kept) :
    env.union ss = .ok (.ofBranches kept) := by
  unfold Schema.flat at h
  simp only [union, h]
  rfl

/-- What holds of every node of the schemas and of any union holds of every node of their union. -/
theorem every_union {p : Schema → Prop} (hboolean : p (.keyword .boolean)) (hp : ∀ bs, p (.union bs))
    (hss : ∀ s ∈ ss, s.Every p) (h : env.union ss = .ok u) : u.Every p := by
  obtain ⟨kept, hkept, h⟩ := bind_ok h
  obtain rfl := Except.ok.inj h
  exact Schema.every_ofBranches hp fun t ht => Schema.every_flat hboolean hss t (pruned_subset hkept ht)

/-- A union never gains a value, and it stays in the fragment. -/
theorem union_sound (hss : ∀ s ∈ ss, s.Every (Schema.Fits d)) (h : env.union ss = .ok u) :
    u.Every (Schema.Fits d) ∧ ∀ v : Value, v.Tied → u.Member env exact v → ∃ s ∈ ss, s.Member env exact v := by
  obtain ⟨kept, hkept, h⟩ := bind_ok h
  obtain rfl := Except.ok.inj h
  have hsub := pruned_subset hkept
  refine ⟨Schema.every_ofBranches (fun _ => trivial) fun t ht => ?_, fun v hv hmem => ?_⟩
  · exact Schema.every_flat trivial hss t (hsub ht)
  · obtain ⟨t, ht, hmem⟩ := Schema.member_ofBranches.mp hmem
    exact (Schema.member_flat hss hv).mp ⟨t, hsub ht, hmem⟩

/-- Where the subset test answers, the union is made of the branches that remain. -/
theorem union_spec {R : Schema → Schema → Prop}
    (hR : ∀ a ∈ Schema.flat ss, ∀ b ∈ Schema.flat ss, Decides (env.isSubset a b) (R a b)) :
    ∃ kept, env.union ss = .ok (Schema.ofBranches kept) ∧ ∀ t, t ∈ kept ↔ Schema.Remains R (Schema.flat ss) t := by
  have hall : ∀ a ∈ [] ++ Schema.flat ss, ∀ b ∈ [] ++ Schema.flat ss, Decides (env.isSubset a b) (R a b) := by
    simpa using hR
  obtain ⟨kept, hkept, hiff⟩ := pruned_spec hall
  exact ⟨kept, union_of_pruned hkept, by simpa [Schema.Remains] using hiff⟩

/-- The order of provable containment is sound. -/
theorem member_of_below {a b : Schema} (ha : a.Orderly d) (hb : b.Orderly d) (h : Schema.Below a b) {v : Value}
    (hmem : a.Member env exact v) : b.Member env exact v := by
  have hsub : env.isSubset a b = .ok true := (isSubset_decides ha hb).eq_true h
  exact member_of_isSubset (Env.grounded_closed d) ha.closed hb.closed hsub (fun h => h.elim nofun) hmem

/-- Among orderly schemas a union loses nothing either. -/
theorem union_exact (hss : ∀ s ∈ ss, s.Orderly d) : ∃ u, env.union ss = .ok u ∧ u.Orderly d ∧
    ∀ v : Value, v.Tied → (u.Member env exact v ↔ ∃ s ∈ ss, s.Member env exact v) := by
  have hflat : ∀ t ∈ Schema.flat ss, t.Orderly d := Schema.every_flat ⟨trivial, trivial⟩ hss
  have hfits : ∀ s ∈ ss, s.Every (Schema.Fits d) := fun s hs => (hss s hs).mono fun _ h => h.1
  obtain ⟨kept, hunion, hkept⟩ := union_spec fun a ha b hb => isSubset_decides (hflat a ha) (hflat b hb)
  refine ⟨_, hunion, Schema.every_ofBranches (fun _ => ⟨trivial, trivial⟩) fun t ht => ?_, fun v hv => ?_⟩
  · exact hflat t ((hkept t).mp ht).mem
  · rw [Schema.member_ofBranches, ← Schema.member_flat hfits hv]
    constructor
    · rintro ⟨t, ht, h⟩
      exact ⟨t, ((hkept t).mp ht).mem, h⟩
    · rintro ⟨s, hs, h⟩
      have trans : ∀ a ∈ Schema.flat ss, ∀ b ∈ Schema.flat ss, ∀ c ∈ Schema.flat ss, Schema.Below a b →
          Schema.Below b c → Schema.Below a c := fun a ha b hb c hc =>
        Schema.Below.trans (hflat a ha) (hflat b hb) (hflat c hc)
      obtain ⟨t, ht, rfl | hbelow⟩ := Schema.remains_of_mem trans hs
      · exact ⟨_, (hkept _).mpr ht, h⟩
      · exact ⟨t, (hkept t).mpr ht, member_of_below (hflat s hs) (hflat t ht.mem) hbelow h⟩

end Env
end Schemata
