import Mathlib.Data.Fintype.EquivFin
import Schemata.Proofs.Algebra.Decision

/-! Pruning drops the plain branches that lie inside others. Whether every dropped branch is covered by a kept
one is a question of the transitivity of the containment that the pruning goes by. -/
namespace Schemata

namespace Schema

/-- A plain branch gives way to a branch that contains it, unless the two contain each other and it comes
first. -/
def Redundant (R : Schema → Schema → Prop) (before : List Schema) (s : Schema) (behind : List Schema) : Prop :=
  s.isPlain = true ∧ ((∃ t ∈ before, R s t) ∨ ∃ t ∈ behind, R s t ∧ ¬ R t s)

/-- The branch stands in the list and is not redundant there. -/
def Remains (R : Schema → Schema → Prop) (l : List Schema) (s : Schema) : Prop :=
  ∃ before behind, l = before ++ s :: behind ∧ ¬ Redundant R before s behind

section Order

variable {R : Schema → Schema → Prop} {l : List Schema}

theorem Remains.mem {s : Schema} (h : Remains R l s) : s ∈ l := by
  obtain ⟨before, behind, rfl, -⟩ := h
  simp

/-- The branch at one position gives way to that at another. -/
def GivesWay (R : Schema → Schema → Prop) (l : List Schema) (i j : Fin l.length) : Prop :=
  R l[i] l[j] ∧ (j < i ∨ i < j ∧ ¬ R l[j] l[i])

theorem gives_way_of_redundant {i : Fin l.length} (h : Redundant R (l.take i) l[i] (l.drop (i + 1))) :
    ∃ j, GivesWay R l i j := by
  rcases h.2 with ⟨t, ht, hR⟩ | ⟨t, ht, hR, hno⟩
  · obtain ⟨j, hj, rfl⟩ := List.mem_take_iff_getElem.mp ht
    have hj : j < i := (lt_min_iff.mp hj).1
    exact ⟨⟨j, hj.trans i.isLt⟩, hR, Or.inl hj⟩
  · obtain ⟨j, hj, rfl⟩ := List.mem_drop_iff_getElem.mp ht
    exact ⟨⟨i + 1 + j, by omega⟩, hR, Or.inr ⟨Fin.lt_def.mpr (by dsimp only; omega), hno⟩⟩

theorem GivesWay.trans (hR : ∀ a ∈ l, ∀ b ∈ l, ∀ c ∈ l, R a b → R b c → R a c) {i j k : Fin l.length}
    (hij : GivesWay R l i j) (hjk : GivesWay R l j k) : GivesWay R l i k := by
  have step : ∀ {p q r : Fin l.length}, R l[p] l[q] → R l[q] l[r] → R l[p] l[r] := fun h₁ h₂ =>
    hR _ (List.getElem_mem _) _ (List.getElem_mem _) _ (List.getElem_mem _) h₁ h₂
  refine ⟨step hij.1 hjk.1, ?_⟩
  by_cases hki : k < i
  · exact Or.inl hki
  -- With a way back from `k` the three positions would stand in a circle of decreasing positions.
  have back : ¬ R l[k] l[i] := by
    intro hback
    have hji : j < i := by
      rcases hij.2 with h | ⟨-, hno⟩
      · exact h
      · exact absurd (step hjk.1 hback) hno
    rcases hjk.2 with h | ⟨-, hno⟩
    · exact hki (h.trans hji)
    · exact hno (step hback hij.1)
  refine Or.inr ⟨lt_of_le_of_ne (not_lt.mp hki) ?_, back⟩
  rintro rfl
  exact back (step hij.1 hjk.1)

/-- A transitive containment leaves every branch inside one that remains. -/
theorem remains_of_mem (hR : ∀ a ∈ l, ∀ b ∈ l, ∀ c ∈ l, R a b → R b c → R a c) {s : Schema} (hs : s ∈ l) :
    ∃ t, Remains R l t ∧ (s = t ∨ R s t) := by
  have : IsTrans (Fin l.length) fun j i => GivesWay R l i j := ⟨fun _ _ _ h₁ h₂ => h₂.trans hR h₁⟩
  have : Std.Irrefl fun j i : Fin l.length => GivesWay R l i j := ⟨fun i h => by
    rcases h.2 with h' | h'
    · exact lt_irrefl i h'
    · exact lt_irrefl i h'.1⟩
  have wf := Finite.wellFounded_of_trans_of_irrefl fun j i : Fin l.length => GivesWay R l i j
  have reach : ∀ i : Fin l.length, ∃ t, Remains R l t ∧ (l[i] = t ∨ R l[i] t) := by
    intro i
    induction i using wf.induction with
    | _ i ih =>
      by_cases hred : Redundant R (l.take i) l[i] (l.drop (i + 1))
      · obtain ⟨j, hij⟩ := gives_way_of_redundant hred
        obtain ⟨t, ht, hjt⟩ := ih j hij
        refine ⟨t, ht, Or.inr ?_⟩
        rcases hjt with rfl | hjt
        · exact hij.1
        · exact hR _ (List.getElem_mem _) _ (List.getElem_mem _) _ ht.mem hij.1 hjt
      · refine ⟨l[i], ⟨l.take i, l.drop (i + 1), ?_, hred⟩, Or.inl rfl⟩
        simp
  obtain ⟨i, hi, rfl⟩ := List.mem_iff_getElem.mp hs
  exact reach ⟨i, hi⟩

/-- Where containment is transitive among plain branches, what it passes on from them reaches a branch that
remains. -/
theorem remains_of_plain {P : Schema → Prop}
    (hR : ∀ a ∈ l, ∀ b ∈ l, ∀ c ∈ l, a.isPlain = true → b.isPlain = true → c.isPlain = true → R a b → R b c → R a c)
    (hP : ∀ a ∈ l, ∀ b ∈ l, a.isPlain = true → R a b → P a → P b) {s : Schema} (hs : s ∈ l) (h : P s) :
    ∃ t, Remains R l t ∧ P t := by
  obtain ⟨t, ht, hst⟩ := remains_of_mem (R := fun a b => R a b ∧ a.isPlain = true ∧ b.isPlain = true) (l := l)
    (fun a ha b hb c hc hab hbc =>
      ⟨hR a ha b hb c hc hab.2.1 hab.2.2 hbc.2.2 hab.1 hbc.1, hab.2.1, hbc.2.2⟩) hs
  have hPt : P t := by
    rcases hst with rfl | hst
    · exact h
    · exact hP s hs t ht.mem hst.2.1 hst.1 h
  obtain ⟨before, behind, rfl, hno⟩ := ht
  by_cases hred : Redundant R before t behind
  swap
  · exact ⟨t, ⟨before, behind, rfl, hred⟩, hPt⟩
  -- What `t` still gives way to is not plain, and so remains.
  obtain ⟨hplain, hred⟩ := hred
  obtain ⟨u, hu, htu, hbare⟩ : ∃ u ∈ before ++ t :: behind, R t u ∧ u.isPlain = false := by
    rcases hred with ⟨u, hu, htu⟩ | ⟨u, hu, htu, hut⟩
    · refine ⟨u, List.mem_append_left _ hu, htu, Bool.eq_false_iff.mpr fun hplain' => ?_⟩
      exact hno ⟨hplain, Or.inl ⟨u, hu, htu, hplain, hplain'⟩⟩
    · refine ⟨u, List.mem_append_right _ (List.mem_cons_of_mem _ hu), htu, Bool.eq_false_iff.mpr fun hplain' => ?_⟩
      exact hno ⟨hplain, Or.inr ⟨u, hu, ⟨htu, hplain, hplain'⟩, fun h => hut h.1⟩⟩
  obtain ⟨front, back, heq⟩ := List.append_of_mem hu
  refine ⟨u, ⟨front, back, heq, fun h => ?_⟩, hP t (by simp) u hu hplain htu hPt⟩
  exact absurd h.1 (by simp [hbare])

end Order

end Schema

namespace Env

variable {env : Env} {R : Schema → Schema → Prop}

/-- A branch that is dropped is redundant by the subset test. -/
theorem redundant_of_isRedundant {before behind : List Schema} {s : Schema}
    (h : env.isRedundant before s behind = .ok true) :
    Schema.Redundant (fun a b => env.isSubset a b = .ok true) before s behind := by
  unfold isRedundant at h
  cases hplain : s.isPlain with
  | false => simp [hplain] at h
  | true =>
    rw [hplain] at h
    obtain ⟨b, hb, h⟩ := bind_ok h
    cases b with
    | true => exact ⟨hplain, Or.inl (anyM_ok_true hb)⟩
    | false =>
      obtain ⟨t, ht, h⟩ := anyM_ok_true h
      obtain ⟨below, hbelow, h⟩ := bind_ok h
      cases below with
      | false => simp [pure, Except.pure] at h
      | true =>
        obtain ⟨above, habove, h⟩ := bind_ok h
        have habove' : above = false := by simpa [pure, Except.pure] using h
        exact ⟨hplain, Or.inr ⟨t, ht, hbelow, by simp [habove, habove']⟩⟩

/-- Pruning drops nothing but what is redundant by the subset test. -/
theorem mem_pruned {before ss kept mid behind : List Schema} {t : Schema} (h : env.pruned before ss = .ok kept)
    (hss : ss = mid ++ t :: behind)
    (hno : ¬ Schema.Redundant (fun a b => env.isSubset a b = .ok true) (before ++ mid) t behind) : t ∈ kept := by
  induction mid generalizing before ss kept with
  | nil =>
    subst hss
    obtain ⟨r, rest, hr, -, rfl⟩ := combine_ok h
    cases r with
    | true => exact absurd (redundant_of_isRedundant hr) (by simpa using hno)
    | false => simp
  | cons s mid ih =>
    subst hss
    obtain ⟨r, rest, -, hrest, rfl⟩ := combine_ok h
    have hmem : t ∈ rest := ih hrest rfl (by simpa using hno)
    split
    · exact hmem
    · exact List.mem_cons_of_mem _ hmem

theorem isRedundant_decides {before behind : List Schema} {s : Schema}
    (hR : ∀ a ∈ before ++ s :: behind, ∀ b ∈ before ++ s :: behind, Decides (env.isSubset a b) (R a b)) :
    Decides (env.isRedundant before s behind) (Schema.Redundant R before s behind) := by
  have here : s ∈ before ++ s :: behind := by simp
  unfold isRedundant Schema.Redundant
  cases hplain : s.isPlain with
  | false => exact Decides.of_false (by simp)
  | true =>
    refine Decides.congr (Decides.or (Decides.any fun t ht => hR s here t (by simp [ht])) fun _ =>
      Decides.any (P := fun t => R s t ∧ ¬ R t s) fun t ht => ?_) (by simp)
    refine Decides.and (hR s here t (by simp [ht])) fun _ => ?_
    obtain ⟨b, hb, hiff⟩ := hR t (by simp [ht]) s here
    rw [hb]
    exact (Decides.ok (!b)).congr (by rw [← hiff]; simp)

/-- Pruning keeps what is not redundant. -/
theorem pruned_spec {before ss : List Schema}
    (hR : ∀ a ∈ before ++ ss, ∀ b ∈ before ++ ss, Decides (env.isSubset a b) (R a b)) :
    ∃ kept, env.pruned before ss = .ok kept ∧ ∀ t, t ∈ kept ↔ ∃ mid behind, ss = mid ++ t :: behind ∧
      ¬ Schema.Redundant R (before ++ mid) t behind := by
  induction ss generalizing before with
  | nil => exact ⟨[], rfl, by simp⟩
  | cons s ss ih =>
    obtain ⟨r, hr, hred⟩ := isRedundant_decides (s := s) hR
    have hrest : ∀ a ∈ (before ++ [s]) ++ ss, ∀ b ∈ (before ++ [s]) ++ ss, Decides (env.isSubset a b) (R a b) := by
      simpa using hR
    obtain ⟨kept, hkept, hiff⟩ := ih hrest
    refine ⟨_, by simp only [pruned, hr, hkept, bind, Except.bind]; rfl, fun t => ?_⟩
    have hcons : (∃ mid behind, s :: ss = mid ++ t :: behind ∧ ¬ Schema.Redundant R (before ++ mid) t behind) ↔
        (t = s ∧ ¬ Schema.Redundant R before s ss) ∨ ∃ mid behind, ss = mid ++ t :: behind ∧
          ¬ Schema.Redundant R (before ++ [s] ++ mid) t behind := by
      constructor
      · rintro ⟨mid, behind, heq, hno⟩
        rcases List.cons_eq_append_iff.mp heq with ⟨rfl, heq⟩ | ⟨mid, rfl, rfl⟩
        · obtain ⟨rfl, rfl⟩ := List.cons.inj heq
          exact Or.inl ⟨rfl, by simpa using hno⟩
        · exact Or.inr ⟨mid, behind, rfl, by simpa using hno⟩
      · rintro (⟨rfl, hno⟩ | ⟨mid, behind, rfl, hno⟩)
        · exact ⟨[], ss, rfl, by simpa using hno⟩
        · exact ⟨s :: mid, behind, rfl, by simpa using hno⟩
    rw [hcons, ← hiff, ← hred]
    cases r <;> simp

end Env
end Schemata
