import Schemata.Algebra.Intersection
import Schemata.Proofs.Constraint.Implication

/-! Gathering constraints: bounds narrow to what both of them pass, and what is gathered accepts what all constraints
accept. Bounds that exclude each other have no value in common, NaN apart. -/
namespace Schemata

namespace Range

theorem accepts_of_contains {r s t : Range} (h : ∀ x, t.Contains x ↔ r.Contains x ∧ s.Contains x) (v : Value) :
    t.Accepts v ↔ r.Accepts v ∧ s.Accepts v := by
  constructor
  · rintro ⟨n, rfl, hn⟩
    exact ⟨⟨n, rfl, fun x hx => ((h x).mp (hn x hx)).1⟩, n, rfl, fun x hx => ((h x).mp (hn x hx)).2⟩
  · rintro ⟨⟨n, rfl, hr⟩, m, hm, hs⟩
    obtain rfl := Value.number.inj hm
    exact ⟨n, rfl, fun x hx => (h x).mpr ⟨hr x hx, hs x hx⟩⟩

/-- Narrowing finds a range for what both ranges accept, or that they accept nothing in common but NaN. -/
theorem narrow_spec {r s : Range} (hr : r.Numeric) (hs : s.Numeric) : ∃ met, r.narrow s = .ok met ∧
    (∀ t ∈ met, t.Numeric ∧ ∀ v, t.Accepts v ↔ r.Accepts v ∧ s.Accepts v) ∧
    (met = none → ∀ v : Value, v.isNaN = false → ¬ (r.Accepts v ∧ s.Accepts v)) := by
  obtain ⟨t, ht, hl, hh, -, -, hn⟩ := narrow_cases hr hs
  have haccepts := accepts_of_contains (contains_of_join hl hh)
  rcases hn with ⟨hn, -⟩ | ⟨hn, hvoid⟩
  · refine ⟨some t, hn, ?_, nofun⟩
    rintro _ ⟨⟩
    exact ⟨ht, haccepts⟩
  · refine ⟨none, hn, nofun, fun _ v hv h => ?_⟩
    obtain ⟨n, rfl, hn⟩ := (haccepts v).mpr h
    cases hp : n.point? with
    | none => exact absurd (Number.isNaN_iff.mpr hp) (by simpa [Value.isNaN] using hv)
    | some x => exact not_contains_of_void hvoid (hn x hp)

/-- Whether the check of the value ends well. -/
def passes (r : Range) (v : Value) : Except Incomparable Bool := (r.check v).map Verdict.isValid

theorem passes_decides {r : Range} (hr : r.Numeric) (v : Value) : Decides (r.passes v) (r.Accepts v) := by
  obtain ⟨d, hd, haccepts⟩ := check_spec hr v
  exact ⟨d.isValid, by simp [passes, hd, Except.map], haccepts⟩

theorem accepts_of_covers {r s : Range} (hr : r.Numeric) (hs : s.Numeric) (h : r.covers s = .ok true) {v : Value}
    (hv : s.Accepts v) : r.Accepts v :=
  Constraint.Within.accepts (d := .range s) (c := .range r) hs hr (Or.inr h) hv

end Range

namespace Length

theorem accepts_of_contains {a b l : Length} (h : ∀ n, l.Contains n ↔ a.Contains n ∧ b.Contains n) (v : Value) :
    l.Accepts v ↔ a.Accepts v ∧ b.Accepts v := by
  constructor
  · rintro ⟨n, hv, hn⟩
    exact ⟨⟨n, hv, ((h n).mp hn).1⟩, n, hv, ((h n).mp hn).2⟩
  · rintro ⟨⟨n, hv, ha⟩, m, hm, hb⟩
    obtain rfl := Option.some.inj (hv.symm.trans hm)
    exact ⟨n, hv, (h n).mpr ⟨ha, hb⟩⟩

/-- Narrowing finds a bound for what both bounds accept, or that they accept nothing in common. -/
theorem narrow?_accepts (a b : Length) :
    (∀ c ∈ a.narrow? b, ∀ v, c.Accepts v ↔ a.Accepts v ∧ b.Accepts v) ∧
      (a.narrow? b = none → ∀ v, ¬ (a.Accepts v ∧ b.Accepts v)) := by
  rcases narrow?_spec a b with ⟨l, hl, hcontains⟩ | ⟨hl, hno⟩
  · rw [hl]
    refine ⟨?_, nofun⟩
    rintro _ ⟨⟩
    exact accepts_of_contains hcontains
  · rw [hl]
    refine ⟨nofun, fun _ => ?_⟩
    rintro v ⟨⟨n, hv, ha⟩, m, hm, hb⟩
    obtain rfl := Option.some.inj (hv.symm.trans hm)
    exact hno n ⟨ha, hb⟩

/-- Whether the check of the value ends well. -/
def passes (l : Length) (v : Value) : Bool := (l.check v).isValid

theorem passes_iff {l : Length} {v : Value} : l.passes v = true ↔ l.Accepts v := l.check_isValid v

theorem accepts_of_covers {a b : Length} (h : a.covers b = true) {v : Value} (hv : b.Accepts v) : a.Accepts v := by
  obtain ⟨n, hn, hcontains⟩ := hv
  exact ⟨n, hn, contains_of_covers h hcontains⟩

end Length

/-- Narrowing is exact: the bound that it finds is covered by both bounds and passes what both of them pass, and where
it finds none, the two pass nothing in common. Covering is sound. Only NaN, which every range passes, escapes the
narrowing of ranges. -/
theorem narrow_exact {r s : Range} (hr : r.Numeric) (hs : s.Numeric) (a b : Length) :
    (∃ met covered, r.narrow s = .ok met ∧ r.covers s = .ok covered ∧
      (∀ t ∈ met, r.covers t = .ok true ∧ s.covers t = .ok true) ∧
      ∀ v, ∃ x y, r.passes v = .ok x ∧ s.passes v = .ok y ∧ (∀ t ∈ met, t.passes v = .ok (x && y)) ∧
        (met = none → v.isNaN = false → (x && y) = false) ∧ (covered = true → y = true → x = true)) ∧
    (∀ c ∈ a.narrow? b, a.covers c = true ∧ b.covers c = true) ∧
    ∀ v, (∀ c ∈ a.narrow? b, c.passes v = (a.passes v && b.passes v)) ∧
      (a.narrow? b = none → (a.passes v && b.passes v) = false) ∧
      (a.covers b = true → b.passes v = true → a.passes v = true) := by
  constructor
  · obtain ⟨met, hmet, hfound, hnone⟩ := Range.narrow_spec hr hs
    obtain ⟨covered, hcovered, -⟩ := Range.covers_spec hr hs
    refine ⟨met, covered, hmet, hcovered, ?_, fun v => ?_⟩
    · rintro t rfl
      exact Range.covers_narrow hr hs hmet
    · obtain ⟨x, hx, hxr⟩ := Range.passes_decides hr v
      obtain ⟨y, hy, hys⟩ := Range.passes_decides hs v
      have hboth : (x && y) = true ↔ r.Accepts v ∧ s.Accepts v := by rw [Bool.and_eq_true, hxr, hys]
      refine ⟨x, y, hx, hy, fun t ht => ?_, fun hm hv => ?_, ?_⟩
      · obtain ⟨hnumeric, haccepts⟩ := hfound t ht
        obtain ⟨z, hz, hzt⟩ := Range.passes_decides hnumeric v
        rw [hz, Except.ok.injEq, Bool.eq_iff_iff, hzt, haccepts, hboth]
      · rw [← Bool.not_eq_true, hboth]
        exact hnone hm v hv
      · rintro rfl
        rw [hxr, hys]
        exact Range.accepts_of_covers hr hs hcovered
  · obtain ⟨hfound, hnone⟩ := Length.narrow?_accepts a b
    refine ⟨fun c hc => Length.covers_narrow hc, fun v => ⟨fun c hc => ?_, fun h => ?_, ?_⟩⟩
    · rw [Bool.eq_iff_iff, Bool.and_eq_true, Length.passes_iff, Length.passes_iff, Length.passes_iff]
      exact hfound c hc v
    · rw [← Bool.not_eq_true, Bool.and_eq_true, Length.passes_iff, Length.passes_iff]
      exact hnone h v
    · rw [Length.passes_iff, Length.passes_iff]
      exact fun h hb => Length.accepts_of_covers h hb

/-- From one on, above one written as a double, and below one: the first two meet, the last excludes the first. -/
theorem narrow_exact_around_one :
    let r : Range := ⟨some (.int 1), none, false, true⟩
    let s : Range := ⟨some (.number (.double (.finite false unitsPerOne))), some (.number (.double (.infinite false))),
      true, false⟩
    let u : Range := ⟨some (.number (.double (.infinite true))), some (.int 1), true, true⟩
    let a : Length := ⟨some 2, none⟩
    let b : Length := ⟨none, some 1⟩
    r.Numeric ∧ s.Numeric ∧ u.Numeric ∧
      (∃ t, r.narrow s = .ok (some t) ∧ r.covers s = .ok true ∧ s.covers t = .ok true ∧
        ∀ v, ∃ x y, r.passes v = .ok x ∧ s.passes v = .ok y ∧ t.passes v = .ok (x && y) ∧ (y = true → x = true)) ∧
      (∀ v : Value, v.isNaN = false → ∃ x y, r.passes v = .ok x ∧ u.passes v = .ok y ∧ (x && y) = false) ∧
      a.narrow? b = none ∧ ∀ v, (a.passes v && b.passes v) = false := by
  intro r s u a b
  have hr : r.Numeric := ⟨Range.Side.numeric_some rfl, Range.Side.numeric_none⟩
  have hs : s.Numeric := ⟨Range.Side.numeric_some rfl, Range.Side.numeric_some rfl⟩
  have hu : u.Numeric := ⟨Range.Side.numeric_some rfl, Range.Side.numeric_some rfl⟩
  have hcovers : r.covers s = .ok true := by decide +kernel
  have hapart : r.narrow u = .ok none := by rfl
  have hlengths : a.narrow? b = none := by decide
  refine ⟨hr, hs, hu, ?_, fun v hv => ?_, hlengths, fun v => ?_⟩
  · obtain ⟨⟨met, covered, hmet, hcovered, hboth, hpasses⟩, -⟩ := narrow_exact hr hs a b
    obtain rfl : covered = true := by simpa [hcovers] using hcovered.symm
    cases met with
    | none => simp [Range.covers, hmet, bind, Except.bind, pure, Except.pure] at hcovers
    | some t =>
      refine ⟨t, hmet, hcovers, (hboth t rfl).2, fun v => ?_⟩
      obtain ⟨x, y, hx, hy, hfound, -, hsound⟩ := hpasses v
      exact ⟨x, y, hx, hy, hfound t rfl, hsound rfl⟩
  · obtain ⟨⟨met, _, hmet, -, -, hpasses⟩, -⟩ := narrow_exact hr hu a b
    obtain rfl : met = none := by simpa [hapart] using hmet.symm
    obtain ⟨x, y, hx, hy, -, hnone, -⟩ := hpasses v
    exact ⟨x, y, hx, hy, hnone rfl hv⟩
  · obtain ⟨-, -, hpasses⟩ := narrow_exact hr hs a b
    exact (hpasses v).2.1 hlengths

namespace Constraint

/-- No value other than NaN passes both. -/
def Excludes (d c : Constraint) : Prop := ∀ v : Value, v.isNaN = false → d.Accepts v → ¬ c.Accepts v

/-- Two bounds of one kind meet in a bound for what both accept, unless they exclude each other. -/
theorem narrow?_spec {d c : Constraint} (hd : d.Plain) (hc : c.Plain) : d.narrow? c = none ∨
    (∃ e, d.narrow? c = some (.ok (some e)) ∧ e.Plain ∧ ∀ v, e.Accepts v ↔ d.Accepts v ∧ c.Accepts v) ∨
    (d.narrow? c = some (.ok none) ∧ d.Excludes c) := by
  cases d with
  | range r =>
    cases c with
    | range s =>
      obtain ⟨met, hmet, hfound, hnone⟩ := Range.narrow_spec hd hc
      cases met with
      | some t =>
        obtain ⟨ht, haccepts⟩ := hfound t rfl
        refine Or.inr (Or.inl ⟨.range t, ?_, ht, haccepts⟩)
        simp [narrow?, hmet, Except.map]
      | none =>
        refine Or.inr (Or.inr ⟨?_, fun v hv hr hs => hnone rfl v hv ⟨hr, hs⟩⟩)
        simp [narrow?, hmet, Except.map]
    | _ => exact Or.inl rfl
  | length a =>
    cases c with
    | length b =>
      obtain ⟨hfound, hnone⟩ := Length.narrow?_accepts a b
      cases hl : a.narrow? b with
      | some l => exact Or.inr (Or.inl ⟨.length l, by simp [narrow?, hl], trivial, hfound l hl⟩)
      | none => exact Or.inr (Or.inr ⟨by simp [narrow?, hl], fun v _ ha hb => hnone hl v ⟨ha, hb⟩⟩)
    | _ => exact Or.inl rfl
  | _ => exact Or.inl rfl

/-- The constraints `gs` say what those of `cs` say. -/
def Gathers (cs gs : List Constraint) : Prop :=
  (∀ g ∈ gs, g.Plain) ∧ ∀ v, (∀ g ∈ gs, g.Accepts v) ↔ ∀ c ∈ cs, c.Accepts v

variable {disjoint : Constraint → Constraint → Fault} {c : Constraint} {known : List Constraint}

/-- The error is made of two of the constraints that exclude each other. -/
def Conflicts (disjoint : Constraint → Constraint → Fault) (cs : List Constraint) (e : Fault) : Prop :=
  (∃ d c, e = disjoint d c) ∧ ∀ v : Value, v.isNaN = false → ¬ ∀ c ∈ cs, c.Accepts v

theorem Conflicts.mono {cs ds : List Constraint} {e : Fault} (h : Conflicts disjoint cs e) (hsub : cs ⊆ ds) :
    Conflicts disjoint ds e :=
  ⟨h.1, fun v hv hall => h.2 v hv fun c hc => hall c (hsub hc)⟩

theorem narrowInto_spec (hc : c.Plain) (hknown : ∀ d ∈ known, d.Plain) :
    Ends (narrowInto disjoint c known) (fun o => ∀ gs, o = some gs → Gathers (known ++ [c]) gs)
      (Conflicts disjoint (known ++ [c])) := by
  induction known with
  | nil => exact nofun
  | cons d ds ih =>
    have ih := ih fun d hd => hknown d (List.mem_cons_of_mem _ hd)
    have hds : ∀ d ∈ ds, d.Plain := fun d hd => hknown d (List.mem_cons_of_mem _ hd)
    unfold narrowInto
    rcases narrow?_spec (hknown d (by simp)) hc with h | ⟨e, h, he, hacc⟩ | ⟨h, hno⟩
    · rw [h]
      refine (ih.mono (fun _ h => h) fun e he => he.mono (List.subset_cons_self _ _)).bind fun o ho gs hgs => ?_
      obtain ⟨rest, rfl, rfl⟩ := Option.map_eq_some_iff.mp hgs
      obtain ⟨hplain, hiff⟩ := ho rest rfl
      refine ⟨List.forall_mem_cons.mpr ⟨hknown d (by simp), hplain⟩, fun v => ?_⟩
      simp only [List.forall_mem_cons, List.cons_append, hiff]
    · rw [h]
      rintro _ ⟨⟩
      refine ⟨List.forall_mem_cons.mpr ⟨he, hds⟩, fun v => ?_⟩
      simp only [List.forall_mem_cons, List.cons_append, List.forall_mem_append, hacc, List.not_mem_nil,
        IsEmpty.forall_iff, implies_true, and_true]
      exact ⟨fun ⟨⟨h₁, h₂⟩, h₃⟩ => ⟨h₁, h₃, h₂⟩, fun ⟨h₁, h₃, h₂⟩ => ⟨⟨h₁, h₂⟩, h₃⟩⟩
    · rw [h]
      refine ⟨⟨d, c, rfl⟩, fun v hv hall => hno v hv (hall d (by simp)) (hall c (by simp))⟩

theorem gather_spec (hc : c.Plain) (hknown : ∀ d ∈ known, d.Plain) :
    Ends (gather disjoint known c) (Gathers (known ++ [c])) (Conflicts disjoint (known ++ [c])) := by
  refine (narrowInto_spec hc hknown).bind fun o ho => ?_
  cases o with
  | some gs => exact ho gs rfl
  | none =>
    dsimp only
    split
    · rename_i hany
      obtain ⟨d, hd, hsame⟩ := List.any_eq_true.mp hany
      refine ⟨hknown, fun v => ?_⟩
      simp only [List.forall_mem_append, List.forall_mem_cons, List.not_mem_nil, IsEmpty.forall_iff,
        implies_true, and_true]
      exact ⟨fun h => ⟨h, Within.accepts (hknown d hd) hc (Or.inl hsame) (h d hd)⟩, fun h => h.1⟩
    · refine ⟨fun d hd => ?_, fun v => Iff.rfl⟩
      rcases List.mem_append.mp hd with hd | hd
      · exact hknown d hd
      · obtain rfl := List.mem_singleton.mp hd
        exact hc

/-- All constraints together gather to what they accept, or two of them exclude each other. -/
theorem gatherAll_spec {cs : List Constraint} (hcs : ∀ c ∈ cs, c.Plain) :
    Ends (cs.foldlM (gather disjoint) []) (Gathers cs) (Conflicts disjoint cs) := by
  refine Ends.foldlM (I := Gathers) ⟨by simp, by simp⟩ fun seen c rest known hcs' hknown => ?_
  subst hcs'
  refine (gather_spec (hcs c (by simp)) hknown.1).mono (fun gs hgs => ⟨hgs.1, fun v => ?_⟩) ?_
  · rw [hgs.2, List.forall_mem_append, hknown.2, List.forall_mem_append]
  · rintro _ ⟨he, hno⟩
    refine ⟨he, fun v hv hall => hno v hv ?_⟩
    rw [List.forall_mem_append, hknown.2]
    refine ⟨fun d hd => hall d (by simp [hd]), fun d hd => hall d ?_⟩
    rw [List.mem_singleton.mp hd]
    simp

end Constraint
end Schemata
