import Schemata.Proofs.Algebra.Grounds

/-! The subset test is sound: a yes means that members of the one schema are members of the other. Pairs
assumed behind references hold of the values nested inside, so the proof goes by the depth of values. -/
namespace Schemata

namespace Schema

variable {env : Env} {exact : Bool} {d : Dialect}

theorem isRef_iff {s : Schema} : s.isRef = true ↔ ∃ r, s = .ref r := by
  cases s <;> simp [isRef]

theorem isRef_of_same {a b : Schema} (h : a.same b = true) (ha : a.isRef = true) : b.isRef = true := by
  obtain ⟨r, rfl⟩ := isRef_iff.mp ha
  cases b <;> simp [same, isRef] at h ⊢

theorem not_structure_of_ref {s : Schema} (h : s.isRef = true) : s.isStructure = false := by
  obtain ⟨r, rfl⟩ := isRef_iff.mp h
  rfl

/-- Values that nest at most `n` deep, where the fragment has references. -/
def Level (d : Dialect) (n : Nat) (v : Value) : Prop := d.Follows → v.Acyclic ∧ v.depth ≤ n

theorem Level.child {n : Nat} {v c : Value} (h : Level d n v) (hc : c ∈ v.unfold.children) :
    Level d (n - 1) c ∧ (d.Follows → 0 < n) := by
  have key : d.Follows → c.Acyclic ∧ c.depth < n := fun hd => by
    obtain ⟨hv, hdepth⟩ := h hd
    rw [hv.unfold_eq] at hc
    exact ⟨hv.child hc, (Value.depth_lt_of_child hc).trans_le hdepth⟩
  refine ⟨fun hd => ⟨(key hd).1, ?_⟩, fun hd => ?_⟩ <;> have := (key hd).2 <;> omega

/-- Every member of `a` down to the given depth is a member of `b`. -/
def Inside (env : Env) (exact : Bool) (d : Dialect) (n : Nat) (a b : Schema) : Prop :=
  ∀ v, Level d n v → a.Member env exact v → b.Member env exact v

/-- What the test may assume of the pairs it has seen, while it stands at `a` and `b`: they hold of all
values nested less deep, and those that may be met at once hold of the present values too. A pair that was
just entered is not met before both its sides are left. -/
structure Assumed (env : Env) (exact : Bool) (d : Dialect) (n : Nat) (seen : List (Schema × Schema))
    (a b : Schema) : Prop where
  follows : ∀ p ∈ seen, d.Follows
  fits : ∀ p ∈ seen, p.1.Every (Fits d) ∧ p.2.Every (Fits d)
  below : ∀ p ∈ seen, ∀ m < n, Inside env exact d m p.1 p.2
  here : ∀ p ∈ seen, Inside env exact d n p.1 p.2 ∨ (p.1.isRef = true ∧ a.isStructure = true) ∨
    (p.2.isRef = true ∧ b.isStructure = true)

namespace Assumed

variable {n m : Nat} {seen : List (Schema × Schema)} {a b s t : Schema}

theorem nil : Assumed env exact d n [] a b := ⟨by simp, by simp, by simp, by simp⟩

theorem left (h : Assumed env exact d n seen a b) (ha : a.isStructure = false) (s : Schema) :
    Assumed env exact d n seen s b := by
  refine ⟨h.follows, h.fits, h.below, fun p hp => ?_⟩
  rcases h.here p hp with h | ⟨-, h⟩ | h
  · exact Or.inl h
  · simp [ha] at h
  · exact Or.inr (Or.inr h)

theorem right (h : Assumed env exact d n seen a b) (hb : b.isStructure = false) (t : Schema) :
    Assumed env exact d n seen a t := by
  refine ⟨h.follows, h.fits, h.below, fun p hp => ?_⟩
  rcases h.here p hp with h | h | ⟨-, h⟩
  · exact Or.inl h
  · exact Or.inr (Or.inl h)
  · simp [hb] at h

/-- Of values nested less deep all seen pairs hold. -/
theorem lower (h : Assumed env exact d n seen a b) (hm : m < n) (s t : Schema) :
    Assumed env exact d m seen s t :=
  ⟨h.follows, h.fits, fun p hp k hk => h.below p hp k (hk.trans hm), fun p hp => Or.inl (h.below p hp m hm)⟩

theorem child (h : Assumed env exact d n seen a b) {v c : Value} (hv : Level d n v)
    (hc : c ∈ v.unfold.children) (s t : Schema) : Assumed env exact d (n - 1) seen s t := by
  by_cases hd : d.Follows
  · have := (hv.child hc).2 hd
    exact h.lower (by omega) s t
  · cases seen with
    | nil => exact nil
    | cons p seen => exact absurd (h.follows p (by simp)) hd

theorem met (h : Assumed env exact d n seen a b) (ha : a.Every (Fits d)) (hb : b.Every (Fits d))
    (hin : a.pairIn b seen = true) : Inside env exact d n a b := by
  obtain ⟨p, hp, hsame⟩ := List.any_eq_true.mp hin
  simp only [Bool.and_eq_true] at hsame
  obtain ⟨hfit₁, hfit₂⟩ := h.fits p hp
  rcases h.here p hp with hinside | ⟨hr, hs⟩ | ⟨hr, hs⟩
  · intro v hv hmem
    rw [← member_of_same hfit₁ ha hsame.1] at hmem
    exact (member_of_same hfit₂ hb hsame.2 v).mp (hinside v hv hmem)
  · rw [not_structure_of_ref (isRef_of_same hsame.1 hr)] at hs
    simp at hs
  · rw [not_structure_of_ref (isRef_of_same hsame.2 hr)] at hs
    simp at hs

end Assumed

end Schema

namespace Env

variable {env : Env} {exact : Bool} {d : Dialect}

/-- Behind a schema of the fragment stands a schema of the fragment, a structure where a reference was. -/
theorem behind?_fits (hg : env.Grounded d) {a s : Schema} (ha : a.Every (Schema.Fits d))
    (h : env.behind? a = .ok (some s)) : s.Every (Schema.Fits d) ∧ (a.isRef = true → s.isStructure = true) ∧
      (a.isRef = false → s = a) := by
  cases a with
  | ref r =>
    obtain ⟨t, ht, -, hstructure, hfit⟩ := hg.resolve? ha.root
    obtain rfl : t = s := by simpa [behind?, ht] using h
    exact ⟨hfit, fun _ => hstructure, fun h => by simp [Schema.isRef] at h⟩
  | _ =>
    simp only [behind?, Except.ok.injEq, Option.some.injEq] at h
    subst h
    exact ⟨ha, fun h => by simp [Schema.isRef] at h, fun _ => rfl⟩

theorem member_behind (hg : env.Grounded d) {a s : Schema} (ha : a.Every (Schema.Fits d))
    (h : env.behind? a = .ok (some s)) {v : Value} : a.Member env exact v ↔ s.Member env exact v := by
  cases a with
  | ref r =>
    obtain ⟨t, ht, hres, -, -⟩ := hg.resolve? ha.root
    obtain rfl : t = s := by simpa [behind?, ht] using h
    exact Schema.member_ref hres
  | _ =>
    simp only [behind?, Except.ok.injEq, Option.some.injEq] at h
    subst h
    exact Iff.rfl

theorem isStructure_behind (hg : env.Grounded d) {a s : Schema} (ha : a.Every (Schema.Fits d))
    (h : env.behind? a = .ok (some s)) (hstructure : a.isStructure = true) : s.isStructure = true := by
  obtain ⟨-, -, hkeep⟩ := behind?_fits hg ha h
  cases hr : a.isRef with
  | true => simp [Schema.not_structure_of_ref hr] at hstructure
  | false => rwa [hkeep hr]

/-- Behind a reference the pair itself joins what may be assumed, once it holds of all values nested less deep. -/
theorem Assumed.enter (hg : env.Grounded d) {n : Nat} {seen : List (Schema × Schema)} {a b s t : Schema}
    (ha : a.Every (Schema.Fits d)) (hb : b.Every (Schema.Fits d)) (has : Schema.Assumed env exact d n seen a b)
    (href : (a.isRef || b.isRef) = true) (hs : env.behind? a = .ok (some s)) (ht : env.behind? b = .ok (some t))
    (hbelow : ∀ m < n, Schema.Inside env exact d m a b) : Schema.Assumed env exact d n ((a, b) :: seen) s t := by
  rw [Bool.or_eq_true] at href
  have hfollows : d.Follows := by
    rcases href with href | href
    · obtain ⟨r, rfl⟩ := Schema.isRef_iff.mp href
      exact ⟨r, ha.root⟩
    · obtain ⟨r, rfl⟩ := Schema.isRef_iff.mp href
      exact ⟨r, hb.root⟩
  have hstructure : (a.isRef = true ∧ s.isStructure = true) ∨ (b.isRef = true ∧ t.isStructure = true) :=
    href.imp (fun h => ⟨h, (behind?_fits hg ha hs).2.1 h⟩) fun h => ⟨h, (behind?_fits hg hb ht).2.1 h⟩
  refine ⟨List.forall_mem_cons.mpr ⟨hfollows, has.follows⟩, List.forall_mem_cons.mpr ⟨⟨ha, hb⟩, has.fits⟩,
    List.forall_mem_cons.mpr ⟨hbelow, has.below⟩, List.forall_mem_cons.mpr ⟨Or.inr hstructure, fun p hp => ?_⟩⟩
  rcases has.here p hp with h | ⟨h, hstands⟩ | ⟨h, hstands⟩
  · exact Or.inl h
  · exact Or.inr (Or.inl ⟨h, isStructure_behind hg ha hs hstands⟩)
  · exact Or.inr (Or.inr ⟨h, isStructure_behind hg hb ht hstands⟩)

/-- The test on schemas that are no references and no unions is sound when the test on their parts is. -/
theorem plainWithin_sound (hg : env.Grounded d) {n : Nat} {seen : List (Schema × Schema)}
    {sub : Schema → Schema → Except Fault Bool}
    (ih : ∀ m ≤ n, ∀ s t : Schema, s.Every (Schema.Fits d) → t.Every (Schema.Fits d) →
      Schema.Assumed env exact d m seen s t → sub s t = .ok true → Schema.Inside env exact d m s t)
    {a b : Schema} (ha : a.Every (Schema.Fits d)) (hb : b.Every (Schema.Fits d))
    (has : Schema.Assumed env exact d n seen a b) (h : env.PlainGrounds sub a b) :
    Schema.Inside env exact d n a b := by
  intro v hv hmem
  cases h with
  | @constrained base target cs ds hbase hall =>
    obtain ⟨hmem, hcs⟩ := Schema.member_constrained.mp hmem
    refine .constrained (ih n (Nat.le_refl n) _ _ ha.base hb.base ((has.left rfl base).right rfl target) hbase v hv
      hmem) fun c hc => ?_
    obtain ⟨e, he, hwithin⟩ := (Constraint.impliedBy_decides (hb.root c hc) ha.root).iff.mp (hall c hc)
    exact hwithin.accepts (ha.root e he) (hb.root c hc) (hcs e he)
  | @base base _ cs hbase =>
    exact ih n (Nat.le_refl n) _ _ ha.base hb (has.left rfl base) hbase v hv (Schema.member_constrained.mp hmem).1
  | @accepted w target ds htarget hall =>
    have htwin := (Schema.member_literal_iff ha.root).mp hmem
    refine .constrained (ih n (Nat.le_refl n) _ _ ha hb.base (has.right rfl target) htarget v hv hmem)
      fun c hc => ?_
    rw [← htwin.accepts (hb.root c hc)]
    exact (Constraint.allAccept_decides hb.root env.hooks w).iff.mp hall c hc
  | integer hholds =>
    have htwin := (Schema.member_literal_iff ha.root).mp hmem
    rwa [Schema.member_keyword, ← htwin.holds]
  | @domains _ k e hne hds hsubset =>
    obtain ⟨ds, hds', hbound⟩ := env.domains?_spec hg exact ha
    obtain rfl : some e = ds := Except.ok.inj (hds.symm.trans hds')
    have hd := DomainSet.subset_iff.mp hsubset _ (hbound e rfl v hmem)
    refine .keyword ?_
    cases k with
    | integer => exact absurd rfl hne
    | _ => exact hd
  | literal hdomain hequal =>
    have htwin := (Schema.member_literal_iff ha.root).mp hmem
    have hx := (Value.twin_iff ha.root).mp ⟨hdomain.symm, hequal⟩
    exact (Schema.member_literal_iff hb.root).mpr (hx.symm.trans htwin)
  | object hwithin =>
    refine ObjectShape.within_sound ha.root.1 hb.root.1 ha.root.2.2.1 hb.root.2.2.1 ?_ hwithin hmem
    intro r hr s hs hrs c hc
    exact ih (n - 1) (Nat.sub_le n 1) _ _ (ha.property hr) (hb.property hs) (has.child hv hc _ _) hrs c
      (hv.child hc).1
  | tuple hwithin =>
    refine Element.within_sound (Element.settled_of_shape ha.root.1) (Element.settled_of_shape hb.root.1) ?_ hwithin
      hmem
    intro e he f hf hef c hc
    exact ih (n - 1) (Nat.sub_le n 1) _ _ (ha.element he) (hb.element hf) (has.child hv hc _ _) hef c
      (hv.child hc).1

/-- A yes of the subset test holds of all values down to the depth for which the seen pairs are assumed. -/
theorem subsetWithin_sound (hg : env.Grounded d) (n fuel : Nat) (seen : List (Schema × Schema)) (a b : Schema)
    (ha : a.Every (Schema.Fits d)) (hb : b.Every (Schema.Fits d))
    (has : Schema.Assumed env exact d n seen a b) (h : env.subsetWithin fuel seen a b = .ok true) :
    Schema.Inside env exact d n a b := by
  induction n using Nat.strongRecOn generalizing fuel seen a b with
  | _ n deeper =>
  induction fuel generalizing seen a b with
  | zero => simp [subsetWithin] at h
  | succ fuel ih =>
    have step : ∀ m ≤ n, ∀ s t : Schema, s.Every (Schema.Fits d) → t.Every (Schema.Fits d) →
        Schema.Assumed env exact d m seen s t → env.subsetWithin fuel seen s t = .ok true →
        Schema.Inside env exact d m s t := by
      intro m hm s t hs ht hst h
      rcases Nat.lt_or_eq_of_le hm with hlt | rfl
      · exact deeper m hlt fuel seen s t hs ht hst h
      · exact ih seen s t hs ht hst h
    intro v hv hmem
    cases subsetWithin_grounds h with
    | same hsame => exact (Schema.member_of_same ha hb hsame v).mp hmem
    | unknown => exact Schema.member_unknown
    | never => exact absurd hmem Schema.not_member_never
    | met href hin => exact has.met ha hb hin v hv hmem
    | behind href hs ht hbehind =>
      obtain ⟨hfs, -⟩ := behind?_fits hg ha hs
      obtain ⟨hft, -⟩ := behind?_fits hg hb ht
      have hentered := Assumed.enter hg ha hb has href hs ht fun m hm =>
        deeper m hm (fuel + 1) seen a b ha hb (has.lower hm a b) h
      exact (member_behind hg hb ht).mpr (ih _ _ _ hfs hft hentered hbehind v hv ((member_behind hg ha hs).mp hmem))
    | branches hall =>
      obtain ⟨s, hs, hmem⟩ := Schema.member_union.mp hmem
      exact step n (Nat.le_refl n) s b (ha.branch hs) hb (has.left rfl s) (hall s hs) v hv hmem
    | members hall =>
      exact .intersection fun t ht =>
        step n (Nat.le_refl n) a t ha (hb.member ht) (has.right rfl t) (hall t ht) v hv hmem
    | @member ms s _ hs hsub =>
      exact step n (Nat.le_refl n) s b (ha.member hs) hb (has.left rfl s) hsub v hv
        (Schema.member_intersection.mp hmem s hs)
    | @branch _ bs t ht hsub =>
      exact .union ht (step n (Nat.le_refl n) a t ha (hb.branch ht) (has.right rfl t) hsub v hv hmem)
    | plain hplain => exact plainWithin_sound hg step ha hb has hplain v hv hmem

/-- What is provably a subset is one. -/
theorem member_of_isSubset (hg : env.Grounded d) {a b : Schema} (ha : a.Every (Schema.Fits d))
    (hb : b.Every (Schema.Fits d)) (h : env.isSubset a b = .ok true) {v : Value} (hv : d.Follows → v.Acyclic)
    (hmem : a.Member env exact v) : b.Member env exact v :=
  subsetWithin_sound hg v.depth _ [] a b ha hb .nil h v (fun hd => ⟨hv hd, Nat.le_refl _⟩) hmem

end Env
end Schemata
