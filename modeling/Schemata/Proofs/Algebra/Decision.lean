import Schemata.Proofs.Algebra.Transitivity

/-! With enough fuel the subset test decides the order of provable containment, wherever no references are
met. -/
namespace Schemata

section Structures

variable {sub : Schema → Schema → Except Fault Bool}

theorem ObjectShape.coversProperty_decides {admits : Schema → Value → Except Fault Bool}
    {a : ObjectShape Schema} (ha : a.index = none) {q : Property Schema}
    (hsub : ∀ p ∈ a.properties, Decides (sub p.value q.value) (Schema.Below p.value q.value)) :
    Decides (coversProperty admits sub a q)
      (a.Answers q ∧ ∀ p, a.property? q.key = some p → Schema.Below p.value q.value) := by
  unfold coversProperty Answers
  cases hprop : a.property? q.key with
  | none =>
    simp only [absentWithin, ha]
    cases hreq : q.presence.isRequired with
    | true => exact Decides.of_false (by simp)
    | false =>
      refine (Decides.ok (a.undeclared == .reject)).congr ?_
      simp
  | some p =>
    dsimp only
    by_cases hreq : (q.presence.isRequired && !p.presence.isRequired) = true
    · rw [if_pos hreq]
      simp only [Bool.and_eq_true, Bool.not_eq_true'] at hreq
      refine Decides.of_false fun h => ?_
      simp [h.1 hreq.1] at hreq
    · rw [if_neg hreq]
      have himp : q.presence.isRequired = true → p.presence.isRequired = true := by
        intro h
        simpa [h] using hreq
      refine (hsub p (property?_mem hprop).1).congr ⟨fun h => ⟨himp, ?_⟩, fun h => h.2 p rfl⟩
      rintro _ ⟨⟩
      exact h

theorem ObjectShape.extraWithin_decides {admits : Schema → Value → Except Fault Bool} {b : ObjectShape Schema}
    (hb : b.index = none) (p : Property Schema) :
    Decides (extraWithin admits sub b p) (b.undeclared ≠ .reject) := by
  simp only [extraWithin, hb]
  exact (Decides.ok (b.undeclared != .reject)).congr (by simp)

theorem ObjectShape.within_decides {admits : Schema → Value → Except Fault Bool} {a b : ObjectShape Schema}
    (ha : a.index = none) (hb : b.index = none)
    (hsub : ∀ p ∈ a.properties, ∀ q ∈ b.properties,
      Decides (sub p.value q.value) (Schema.Below p.value q.value)) :
    Decides (ObjectShape.within admits sub a b) (Schema.Below (.object a) (.object b)) := by
  have rule : Schema.Below (.object a) (.object b) ↔ (a.undeclared ≠ .reject → b.undeclared ≠ .reject) ∧
      (∀ q ∈ b.properties, a.Answers q ∧ ∀ p, a.property? q.key = some p → Schema.Below p.value q.value) ∧
      (∀ p ∈ a.properties.filter fun p => !b.declares p.key, b.undeclared ≠ .reject) ∧ True := by
    constructor
    · intro h
      cases h with
      | object loose answers below extra =>
        refine ⟨loose, fun q hq => ⟨answers q hq, below q hq⟩, fun p hp => ?_, trivial⟩
        simp only [List.mem_filter, Bool.not_eq_true'] at hp
        exact extra p hp.1 hp.2
    · rintro ⟨loose, cover, extra, -⟩
      exact .object loose (fun q hq => (cover q hq).1) (fun q hq => (cover q hq).2)
        fun p hp hdecl => extra p (List.mem_filter.mpr ⟨hp, by simp [hdecl]⟩)
  have hloose : a.looserThan b = true ↔ ¬ (a.undeclared ≠ .reject → b.undeclared ≠ .reject) := by
    simp [looserThan, hb]
  rw [show Decides _ _ ↔ Decides _ _ from ⟨fun h => h.congr rule, fun h => h.congr rule.symm⟩]
  unfold ObjectShape.within
  by_cases hl : a.looserThan b = true
  · rw [if_pos hl]
    exact Decides.of_false fun h => hloose.mp hl h.1
  · rw [if_neg hl]
    have hl' : a.undeclared ≠ .reject → b.undeclared ≠ .reject := not_not.mp fun h => hl (hloose.mpr h)
    refine Decides.congr ?_ (and_iff_right hl').symm
    refine Decides.guard (Decides.all fun q hq => coversProperty_decides ha fun p hp => hsub p hp q hq)
      fun _ => Decides.guard (Decides.all fun p _ => extraWithin_decides hb p) fun _ => ?_
    rw [ha, hb]
    exact Decides.of_true trivial

/-- Pairwise the elements of one tuple are inside those of another. -/
theorem Element.pairwiseWithin_decides {es fs : List (Element Schema)} (hlen : es.length = fs.length)
    (hsub : ∀ e ∈ es, ∀ f ∈ fs, Decides (sub e.value f.value) (Schema.Below e.value f.value)) :
    Decides (pairwiseWithin sub es fs) (∀ p ∈ es.zip fs,
      (p.2.role.isLeading = true → p.1.role.isLeading = true) ∧ Schema.Below p.1.value p.2.value) := by
  induction es generalizing fs with
  | nil =>
    cases fs with
    | nil => exact Decides.of_true (by simp)
    | cons f fs => simp at hlen
  | cons e es ih =>
    cases fs with
    | nil => simp at hlen
    | cons f fs =>
      unfold pairwiseWithin
      simp only [List.zip_cons_cons, List.forall_mem_cons]
      by_cases hlead : (f.role.isLeading && !e.role.isLeading) = true
      · rw [if_pos hlead]
        simp only [Bool.and_eq_true, Bool.not_eq_true'] at hlead
        refine Decides.of_false fun h => ?_
        simp [h.1.1 hlead.1] at hlead
      · rw [if_neg hlead]
        have himp : f.role.isLeading = true → e.role.isLeading = true := by
          intro h
          simpa [h] using hlead
        have hrest := ih (by simpa using hlen) fun e he f hf =>
          hsub e (List.mem_cons_of_mem _ he) f (List.mem_cons_of_mem _ hf)
        exact (Decides.and (hsub e (by simp) f (by simp)) fun _ => hrest).congr
          ⟨fun h => ⟨⟨himp, h.1⟩, h.2⟩, fun h => ⟨h.1.2, h.2⟩⟩

/-- Two tuples that are not equal: an array takes in what has all its elements inside, and others compare place by
place where neither has a variadic element. -/
theorem Element.within_decides {es fs : List (Element Schema)} (hne : ¬ (Schema.tuple es).same (.tuple fs) = true)
    (hsub : ∀ e ∈ es, ∀ f ∈ fs, Decides (sub e.value f.value) (Schema.Below e.value f.value)) :
    Decides (Element.within sub es fs) (Schema.Below (.tuple es) (.tuple fs)) := by
  unfold Element.within
  cases harray : array? fs with
  | some f =>
    obtain ⟨rfl, hvar⟩ := array?_eq_some harray
    refine (Decides.all fun e he => hsub e he f (by simp)).congr ⟨.array hvar, fun h => ?_⟩
    cases h with
    | array _ h => exact h
    | equal _ hsame => exact absurd hsame hne
    | tuple _ hnone _ _ _ => simp [variadic?, hvar] at hnone
  | none =>
    dsimp only
    split_ifs with hshape
    · refine Decides.of_false fun h => ?_
      cases h with
      | array hvar _ => simp [array?, hvar] at harray
      | equal _ hsame => exact hne hsame
      | tuple hes hfs hlen _ _ => simp [hes, hfs, hlen] at hshape
    · simp only [Bool.or_eq_true, bne_iff_ne, ne_eq, not_or, Bool.not_eq_true, Option.isSome_eq_false_iff,
        Option.isNone_iff_eq_none, not_not] at hshape
      obtain ⟨⟨hes, hfs⟩, hlen⟩ := hshape
      refine (pairwiseWithin_decides hlen hsub).congr ⟨fun h => ?_, fun h => ?_⟩
      · exact .tuple hes hfs hlen (fun p hp => (h p hp).1) fun p hp => (h p hp).2
      · cases h with
        | array hvar _ => simp [array?, hvar] at harray
        | equal _ hsame => exact absurd hsame hne
        | tuple _ _ _ lead below => exact fun p hp => ⟨lead p hp, below p hp⟩

end Structures

namespace Schema

/-- A conjunction of tuples holds sequences only. -/
theorem memberDomains_tuples {follow : Ref → Except Fault (Option DomainSet)} {ms : List Schema}
    (hms : ∀ s ∈ ms, ∃ es, s = .tuple es) :
    memberDomains follow ms = .ok (List.replicate ms.length (some (.of [.array]))) := by
  induction ms with
  | nil => rfl
  | cons s ms ih =>
    obtain ⟨es, rfl⟩ := hms s (by simp)
    have ih := ih fun t ht => hms t (List.mem_cons_of_mem _ ht)
    simp [memberDomains, domainsWith, ih, bind, Except.bind, pure, Except.pure, List.replicate_succ]

theorem meetKnown_arrays (n : Nat) : ∃ e,
    meetKnown (List.replicate (n + 1) (some (.of [.array]))) = some e ∧ e .array = true := by
  induction n with
  | zero => exact ⟨_, rfl, rfl⟩
  | succ n ih =>
    obtain ⟨e, he, harray⟩ := ih
    refine ⟨DomainSet.inter (.of [.array]) e, ?_, by simp [DomainSet.inter, harray, DomainSet.of]⟩
    rw [List.replicate_succ, meetKnown, he]

end Schema

theorem DomainSet.single_subset_iff {e : Domain} {ds : DomainSet} : (DomainSet.of [e]).subset ds = true ↔ ds e = true := by
  rw [DomainSet.subset_iff]
  simp [DomainSet.of]

namespace Env

variable {env : Env} {d : Dialect} {sub : Schema → Schema → Except Fault Bool}

/-- A test by domains asks for those of the keyword. -/
theorem domainTest_decides {a : Schema} {e : DomainSet} (he : env.domains? a = .ok (some e)) (k : Keyword) :
    Decides (do match ← env.domains? a with
      | none => pure false
      | some d => pure (d.subset k.domains)) (e.subset k.domains = true) := by
  simp only [he, bind, Except.bind]
  exact Decides.ok _

/-- A constraint on the left is peeled off where there is none on the right, else those on the right are looked for. -/
theorem constrainedWithin_decides {s b : Schema} {cs : List Constraint} (ha : (Schema.constrained s cs).Orderly d)
    (hb : b.Orderly d) (hbs : b.Single)
    (hsub : ∀ t : Schema, t.Orderly d → t.size ≤ b.size → Decides (sub s t) (Schema.Below s t)) :
    Decides (env.plainWithin sub (.constrained s cs) b) (Schema.Below (.constrained s cs) b) := by
  cases hbs with
  | constrained t ds =>
    refine Decides.congr ?_ Schema.constrained_below_constrained_iff.symm
    refine Decides.and (hsub t hb.base (by simp [Schema.size])) fun _ => Decides.all fun c hc => ?_
    exact Constraint.impliedBy_decides (hb.root.1 c hc) ha.root.1
  | _ => exact (hsub _ hb (Nat.le_refl _)).congr (Schema.constrained_below_iff rfl rfl rfl).symm

theorem literalWithin_decides {v : Value} {b : Schema} (ha : (Schema.literal v).Orderly d) (hb : b.Orderly d)
    (hbs : b.Single) (hne : ¬ (Schema.literal v).same b = true)
    (hsub : ∀ t : Schema, t.Orderly d → t.size < b.size → Decides (sub (.literal v) t) (Schema.Below (.literal v) t)) :
    Decides (env.plainWithin sub (.literal v) b) (Schema.Below (.literal v) b) := by
  cases hbs with
  | keyword k =>
    refine Decides.congr ?_ Schema.literal_below_keyword_iff.symm
    cases k with
    | integer => exact Decides.ok _
    | _ => exact (domainTest_decides rfl _).congr DomainSet.single_subset_iff
  | literal w =>
    refine Decides.congr ?_ Schema.literal_below_literal_iff.symm
    have hne : v ≠ w := by
      rintro rfl
      apply hne
      simp [Schema.same, (Value.same_scalar_iff ha.root.1 rfl).mpr (Or.inr rfl)]
    refine (Decides.ok _).congr ?_
    rw [Bool.and_eq_true, beq_iff_eq, eq_comm, Value.twin_iff ha.root.1, or_iff_left hne]
  | constrained t ds =>
    refine Decides.congr ?_ Schema.literal_below_constrained_iff.symm
    exact Decides.and (hsub t hb.base (by simp [Schema.size])) fun _ =>
      Constraint.allAccept_decides hb.root.1 env.hooks v
  | object o => exact Decides.of_false (by rintro ⟨⟩)
  | tuple es => exact Decides.of_false (by rintro ⟨⟩)

theorem keywordWithin_decides {k : Keyword} {b : Schema} (hbs : b.Single)
    (hne : ¬ (Schema.keyword k).same b = true) :
    Decides (env.plainWithin sub (.keyword k) b) (Schema.Below (.keyword k) b) := by
  cases hbs with
  | keyword l =>
    have hne : k ≠ l := by
      rintro rfl
      exact hne (by simp [Schema.same])
    refine Decides.congr ?_ (Schema.keyword_below_keyword_iff.trans (or_iff_right hne)).symm
    cases l with
    | integer => exact Decides.of_false (by simp)
    | _ => exact (domainTest_decides rfl _).congr (by simp)
  | _ => exact Decides.of_false (by rintro ⟨⟩)

/-- Objects and tuples are compared with a keyword by their domain. -/
theorem structureWithin_decides {a : Schema} (ha : a.isStructure = true) (l : Keyword) :
    Decides (env.plainWithin sub a (.keyword l)) (Schema.Below a (.keyword l)) := by
  refine Decides.congr ?_ (Schema.structure_below_keyword_iff ha).symm
  cases a with
  | object o | tuple es =>
    cases l with
    | integer => exact Decides.of_false (by simp [Schema.structureDomain, Keyword.domains, DomainSet.of])
    | _ => exact (domainTest_decides rfl _).congr DomainSet.single_subset_iff
  | _ => simp [Schema.isStructure] at ha

/-- The test on schemas that are neither unions nor conjunctions. -/
theorem plainWithin_decides {a b : Schema} (ha : a.Orderly d) (hb : b.Orderly d)
    (hsub : ∀ s t : Schema, s.Orderly d → t.Orderly d → s.size + t.size < a.size + b.size →
      Decides (sub s t) (Schema.Below s t))
    (has : a.Single) (hbs : b.Single) (hne : ¬ a.same b = true) :
    Decides (env.plainWithin sub a b) (Schema.Below a b) := by
  have part_lt : ∀ {s t : Schema}, t ∈ s.parts → t.size < s.size := Schema.size_lt_of_part
  cases has with
  | constrained s cs =>
    refine constrainedWithin_decides ha hb hbs fun t ht hle => hsub s t ha.base ht ?_
    simp only [Schema.size]
    omega
  | literal v => exact literalWithin_decides ha hb hbs hne fun t ht hlt => hsub _ t ha ht (by omega)
  | keyword k => exact keywordWithin_decides hbs hne
  | object o =>
    cases hbs with
    | keyword l => exact structureWithin_decides rfl l
    | object q =>
      refine ObjectShape.within_decides ha.root.1.1 hb.root.1.1 fun p hp r hr =>
        hsub _ _ (ha.property hp) (hb.property hr) ?_
      have h₁ := part_lt (s := .object o) (List.mem_append_left _ (List.mem_map_of_mem hp))
      have h₂ := part_lt (s := .object q) (List.mem_append_left _ (List.mem_map_of_mem hr))
      omega
    | _ => exact Decides.of_false (by rintro ⟨⟩)
  | tuple es =>
    cases hbs with
    | keyword l => exact structureWithin_decides rfl l
    | tuple fs =>
      refine Element.within_decides hne fun e he f hf => hsub _ _ (ha.element he) (hb.element hf) ?_
      have h₁ := part_lt (s := .tuple es) (List.mem_map_of_mem he)
      have h₂ := part_lt (s := .tuple fs) (List.mem_map_of_mem hf)
      omega
    | _ => exact Decides.of_false (by rintro ⟨⟩)

/-- A conjunction of tuples is provably inside a plain schema by its domains only where a member is inside
already. -/
theorem conjunctionWithin_spec {ms : List Schema} {b : Schema} (hne : ms ≠ [])
    (hms : ∀ s ∈ ms, ∃ es, s = .tuple es) (hbs : b.Single) :
    ∃ r, env.plainWithin sub (.intersection ms) b = .ok r ∧
      (r = true → ∃ s ∈ ms, Schema.Below s b) := by
  cases hbs with
  | keyword k =>
    obtain ⟨n, hn⟩ := Nat.exists_eq_succ_of_ne_zero (List.length_eq_zero_iff.not.mpr hne)
    obtain ⟨e, he, harray⟩ := Schema.meetKnown_arrays n
    obtain ⟨s, hs⟩ := List.exists_mem_of_ne_nil ms hne
    obtain ⟨es, rfl⟩ := hms s hs
    have hknown : env.domains? (.intersection ms) = .ok (some e) := by
      simp [domains?, domainsWithin, Schema.domainsWith, Schema.memberDomains_tuples hms, hn, he, bind,
        Except.bind, pure, Except.pure]
    cases k with
    | integer => exact ⟨false, rfl, fun h => absurd h Bool.false_ne_true⟩
    | _ =>
      refine ⟨_, by simp only [plainWithin, hknown, bind, Except.bind]; rfl, fun h => ⟨_, hs, ?_⟩⟩
      exact .structureKeyword (s := .tuple es) rfl (DomainSet.subset_iff.mp h _ harray)
  | _ => exact ⟨false, rfl, fun h => absurd h Bool.false_ne_true⟩

/-- What is no union is inside one where it is inside some branch. -/
theorem branches_decide {a : Schema} {bs : List Schema} (ha : a.isUnion = false)
    (hsub : ∀ t ∈ bs, Decides (sub a t) (Schema.Below a t)) :
    Decides (bs.anyM fun t => sub a t) (Schema.Below a (.union bs)) :=
  (Decides.any hsub).congr ⟨fun ⟨_, ht, h⟩ => .branch ha ht h, Schema.exists_of_below_union ha⟩

/-- A conjunction is tried member by member, then branch by branch or as a whole. -/
theorem conjunction_decides (env : Env) {ms : List Schema} {b : Schema} (ha : (Schema.intersection ms).Orderly d)
    (hb : b.Orderly d) (hbi : b.isIntersection = false) (left : ∀ s ∈ ms, Decides (sub s b) (Schema.Below s b))
    (right : ∀ t ∈ b.parts, Decides (sub (.intersection ms) t) (Schema.Below (.intersection ms) t)) :
    Decides (do
      if ← ms.anyM fun s => sub s b then pure true
      else
        match b with
        | .union bs => bs.anyM fun t => sub (.intersection ms) t
        | b => env.plainWithin sub (.intersection ms) b) (Schema.Below (.intersection ms) b) := by
  obtain ⟨hne, hms⟩ := ha.root.2
  have below_member : (∃ s ∈ ms, Schema.Below s b) → Schema.Below (.intersection ms) b := by
    rintro ⟨s, hs, h⟩
    obtain ⟨es, rfl⟩ := hms s hs
    exact Schema.Below.intersection_left hs h
  have tried : ∀ {x : Except Fault Bool}, ((¬ ∃ s ∈ ms, Schema.Below s b) →
      Decides x (Schema.Below (.intersection ms) b)) →
      Decides (do if ← ms.anyM fun s => sub s b then pure true else x) (Schema.Below (.intersection ms) b) :=
    fun hx => (Decides.or (Decides.any left) hx).congr ⟨fun h => h.elim below_member id, Or.inr⟩
  have whole : b.isUnion = false → (¬ ∃ s ∈ ms, Schema.Below s b) →
      Decides (env.plainWithin sub (.intersection ms) b) (Schema.Below (.intersection ms) b) := by
    intro hbu hno
    obtain ⟨r, hr, h⟩ := conjunctionWithin_spec hne hms (hb.root.2.single hbu hbi)
    refine ⟨r, hr, fun h' => absurd (h h') hno, fun h' => ?_⟩
    exact absurd ((Schema.intersection_below_iff hbu hbi).mp h') hno
  cases b with
  | intersection => simp [Schema.isIntersection] at hbi
  | union bs => exact tried fun _ => branches_decide rfl right
  | _ => exact tried (whole rfl)

/-- With fuel for all their parts the test decides the order. -/
theorem subsetWithin_decides {fuel : Nat} {seen : List (Schema × Schema)} {a b : Schema} (ha : a.Orderly d)
    (hb : b.Orderly d) (hfuel : a.size + b.size ≤ fuel) :
    Decides (env.subsetWithin fuel seen a b) (Schema.Below a b) := by
  induction fuel generalizing a b with
  | zero =>
    have := Schema.size_pos a
    omega
  | succ fuel ih =>
    have hsub : ∀ s t : Schema, s.Orderly d → t.Orderly d → s.size + t.size < a.size + b.size →
        Decides (env.subsetWithin fuel seen s t) (Schema.Below s t) :=
      fun s t hs ht hlt => ih hs ht (by omega)
    have left : ∀ s ∈ a.parts, Decides (env.subsetWithin fuel seen s b) (Schema.Below s b) := fun s hs =>
      hsub s b (ha.part hs) hb (by have := Schema.size_lt_of_part hs; omega)
    have right : ∀ t ∈ b.parts, Decides (env.subsetWithin fuel seen a t) (Schema.Below a t) := fun t ht =>
      hsub a t ha (hb.part ht) (by have := Schema.size_lt_of_part ht; omega)
    unfold subsetWithin
    dsimp only
    by_cases hshort : (a.same b || b.isUnknown || a.isNever) = true
    · rw [if_pos hshort]
      simp only [Bool.or_eq_true] at hshort
      refine Decides.of_true ?_
      rcases hshort with (h | h) | h
      · exact Schema.Orderly.below_of_same ha hb h
      · rw [Schema.eq_unknown h]
        exact Schema.below_unknown (Schema.Orderly.ordered ha)
      · rw [Schema.eq_never h]
        exact Schema.below_never
    · rw [if_neg hshort]
      simp only [Bool.or_eq_true, not_or] at hshort
      have noref : ∀ s : Schema, s.Orderly d → s.isRef = false := fun s hs => by
        cases s <;> first | rfl | exact hs.root.2.elim
      rw [if_neg (by simp [noref a ha, noref b hb])]
      cases hau : a.isUnion with
      | true =>
        cases a <;> simp [Schema.isUnion] at hau
        exact (Decides.all left).congr ⟨.branches, Schema.below_of_union⟩
      | false =>
      cases hbi : b.isIntersection with
      | true =>
        cases b <;> simp [Schema.isIntersection] at hbi
        have := (Decides.all right).congr ⟨Schema.Below.intersection_right, Schema.forall_of_below_intersection⟩
        cases a <;> first | exact this | simp [Schema.isUnion] at hau
      | false =>
      cases hai : a.isIntersection with
      | true =>
        cases a <;> simp [Schema.isIntersection] at hai
        have := conjunction_decides env ha hb hbi left right
        cases b <;> first | exact this | simp [Schema.isIntersection] at hbi
      | false =>
      cases hbu : b.isUnion with
      | true =>
        cases b <;> simp [Schema.isUnion] at hbu
        have := branches_decide hau right
        cases a <;> first | exact this | simp [Schema.isUnion, Schema.isIntersection] at hau hai
      | false =>
        have : Decides (env.plainWithin (env.subsetWithin fuel seen) a b) (Schema.Below a b) :=
          plainWithin_decides ha hb hsub (ha.root.2.single hau hai) (hb.root.2.single hbu hbi) hshort.1.1
        cases a <;> cases b <;> first
          | exact this
          | simp [Schema.isUnion, Schema.isIntersection] at hau hai hbu hbi

/-- The fuel of a pair covers all parts of both schemas. -/
theorem size_le_pairFuel (env : Env) (a b : Schema) : a.size + b.size ≤ env.pairFuel a b := by
  have hreach : a.size + b.size ≤ env.reach a b := by
    unfold reach
    omega
  calc a.size + b.size ≤ 1 * (2 * env.reach a b + 2) := by omega
    _ ≤ env.pairFuel a b := Nat.mul_le_mul_right _ (by omega)

theorem isSubset_decides {a b : Schema} (ha : a.Orderly d) (hb : b.Orderly d) :
    Decides (env.isSubset a b) (Schema.Below a b) :=
  subsetWithin_decides ha hb (size_le_pairFuel env a b)

end Env
end Schemata
