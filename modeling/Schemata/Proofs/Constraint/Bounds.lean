import Schemata.Proofs.Constraint.Cut

/-! Checking and narrowing of ranges and lengths: narrowing is exact, and covering is a transitive order that
implies containment. -/
namespace Schemata
namespace Range

/-- The point satisfies one side. -/
def Side.Allows (c : Comparison) (s : Side) (x : Point) : Prop := (s.cut c).Allows (c.key x)

def Contains (r : Range) (x : Point) : Prop := Side.Allows .greater r.low x ∧ Side.Allows .less r.high x

/-- Numbers that a range accepts: those between its bounds, and every NaN. -/
def Accepts (r : Range) (v : Value) : Prop := ∃ n, v = .number n ∧ ∀ x, n.point? = some x → r.Contains x

/-- The comparison by which a number is refused on one side. -/
def refusal (c : Comparison) (isOpen : Bool) : Comparison :=
  match c, isOpen with
  | .greater, true => .atMost
  | .greater, false => .less
  | _, true => .atLeast
  | _, false => .greater

theorem refusal_holds {c : Comparison} (hc : c = .greater ∨ c = .less) {s : Side} {b : Value} {p x : Point}
    {n m : Number} (hs : s.1 = some b) (hm : b.asNumber? = some m) (hp : m.point? = some p)
    (hx : n.point? = some x) :
    Value.numbersHold (refusal c s.2) n m = false ↔ Side.Allows c s x := by
  have hb : b.point? = some p := by simp [Value.point?, hm, hp]
  obtain ⟨v, o⟩ := s
  obtain rfl : v = some b := hs
  rw [Side.Allows, Side.cut_some hb, Cut.allows_some, Value.numbersHold, Number.order?_of_points hx hp]
  rcases hc with rfl | rfl <;> cases o <;>
    simp only [refusal, Comparison.key, Point.mirror_lt_mirror, reduceCtorEq, if_true, if_false,
      Bool.false_eq_true]
  · split_ifs with h₁ h₂
    · simpa [Comparison.holds] using h₁
    · simpa [Comparison.holds] using h₂.le
    · simpa [Comparison.holds] using not_lt.mp h₁
  · split_ifs with h₁ h₂
    · simpa [Comparison.holds] using h₁.le
    · simpa [Comparison.holds] using h₂
    · simpa [Comparison.holds] using not_lt.mp h₂
  · rw [← not_lt, Point.mirror_lt_mirror, not_lt]
    split_ifs with h₁ h₂
    · simpa [Comparison.holds] using h₁.le
    · simpa [Comparison.holds] using h₂
    · simpa [Comparison.holds] using not_lt.mp h₂
  · split_ifs with h₁ h₂
    · simpa [Comparison.holds] using h₁
    · simpa [Comparison.holds] using h₂.le
    · simpa [Comparison.holds] using not_lt.mp h₁

/-- A side refuses a number exactly when the number has a point that the side does not allow. -/
theorem beyond?_spec {c : Comparison} (hc : c = .greater ∨ c = .less) {s : Side} (hs : s.Numeric)
    (n : Number) (verdict : Value → Verdict) : ∃ o, beyond? (refusal c s.2) s.1 n verdict = .ok o ∧
      (o = none ↔ ∀ x, n.point? = some x → s.Allows c x) ∧ ∀ d, o = some d → ∃ b, d = verdict b := by
  match hv : s.1 with
  | none =>
    refine ⟨none, rfl, ?_, by simp⟩
    have : s.cut c = none := (Side.cut_eq_none hs).mpr hv
    simp [Side.Allows, this]
  | some b =>
    obtain ⟨p, hb⟩ := hs b hv
    obtain ⟨m, hm, hp⟩ := Value.asNumber?_of_point hb
    have hh : Value.holds (refusal c s.2) (.number n) b = .ok (Value.numbersHold (refusal c s.2) n m) :=
      Value.holds_of_numbers rfl hm
    refine ⟨if Value.numbersHold (refusal c s.2) n m then some (verdict b) else none, ?_, ?_, ?_⟩
    · simp [beyond?, hh, bind, Except.bind, pure, Except.pure]
    · cases hx : n.point? with
      | none => simp [Value.numbersHold, Number.order?_of_nan hx]
      | some x =>
        simp only [Option.some.injEq, forall_eq', ← refusal_holds hc hv hm hp hx]
        cases Value.numbersHold (refusal c s.2) n m <;> simp
    · intro d hd
      split_ifs at hd
      exact ⟨b, (Option.some.inj hd).symm⟩

theorem low?_eq (r : Range) (n : Number) : ∃ verdict, (∀ b, (verdict b).isValid = false) ∧
    r.low? n = beyond? (refusal .greater r.low.2) r.low.1 n verdict := by
  unfold low? low
  cases r.aboveLeast
  · exact ⟨_, fun _ => rfl, rfl⟩
  · exact ⟨_, fun _ => rfl, rfl⟩

theorem high?_eq (r : Range) (n : Number) : ∃ verdict, (∀ b, (verdict b).isValid = false) ∧
    r.high? n = beyond? (refusal .less r.high.2) r.high.1 n verdict := by
  unfold high? high
  cases r.belowGreatest
  · exact ⟨_, fun _ => rfl, rfl⟩
  · exact ⟨_, fun _ => rfl, rfl⟩

theorem check_spec {r : Range} (hr : r.Numeric) (v : Value) :
    ∃ d, r.check v = .ok d ∧ (d.isValid = true ↔ r.Accepts v) := by
  by_cases hv : ∃ n, v = .number n
  · obtain ⟨n, rfl⟩ := hv
    obtain ⟨low, hlow, hl⟩ := r.low?_eq n
    obtain ⟨high, hhigh, hh⟩ := r.high?_eq n
    obtain ⟨a, ha, ha', hav⟩ := beyond?_spec (Or.inl rfl) hr.1 n low
    obtain ⟨b, hb, hb', hbv⟩ := beyond?_spec (Or.inr rfl) hr.2 n high
    rw [← hl] at ha
    rw [← hh] at hb
    have hacc : r.Accepts (.number n) ↔ a = none ∧ b = none := by
      rw [ha', hb']
      constructor
      · rintro ⟨m, hm, h⟩
        cases hm
        exact ⟨fun x hx => (h x hx).1, fun x hx => (h x hx).2⟩
      · rintro ⟨h₁, h₂⟩
        exact ⟨n, rfl, fun x hx => ⟨h₁ x hx, h₂ x hx⟩⟩
    rw [hacc]
    cases a with
    | some d =>
      obtain ⟨w, rfl⟩ := hav d rfl
      exact ⟨low w, by simp [check, ha, bind, Except.bind, pure, Except.pure], by simp [hlow]⟩
    | none =>
      cases b with
      | some d =>
        obtain ⟨w, rfl⟩ := hbv d rfl
        exact ⟨high w, by simp [check, ha, hb, bind, Except.bind, pure, Except.pure], by simp [hhigh]⟩
      | none =>
        exact ⟨.valid, by simp [check, ha, hb, bind, Except.bind, pure, Except.pure], by simp [Verdict.isValid]⟩
  · refine ⟨r.wrongType v, ?_, ?_⟩
    · cases v <;> simp_all [check]
    · simp [wrongType, Verdict.refuse, Verdict.isValid, Accepts]
      exact fun n hn => absurd ⟨n, hn⟩ hv

/-- No point lies between two cuts. -/
def Void (low high : Cut) : Prop :=
  ∃ p o q u, low = some (p, o) ∧ high = some (Point.mirror q, u) ∧ (q < p ∨ (p = q ∧ (o = true ∨ u = true)))

theorem isEmpty_spec {r : Range} (hr : r.Numeric) :
    ∃ b, r.isEmpty = .ok b ∧ (b = true ↔ Void (r.low.cut .greater) (r.high.cut .less)) := by
  obtain ⟨least, greatest, above, below⟩ := r
  obtain ⟨hl, hg⟩ := hr
  match least, greatest with
  | none, _ => exact ⟨false, rfl, by simp [Void, low, Side.cut_none]⟩
  | some a, none => exact ⟨false, rfl, by simp [Void, high, Side.cut_none]⟩
  | some a, some b =>
    obtain ⟨p, hp⟩ := hl a rfl
    obtain ⟨q, hq⟩ := hg b rfl
    have hv : Void (Side.cut .greater (some a, above)) (Side.cut .less (some b, below)) ↔
        (q < p ∨ (p = q ∧ (above = true ∨ below = true))) := by
      rw [Side.cut_some hp, Side.cut_some hq]
      simp only [Void, Comparison.key, reduceCtorEq, if_true, if_false, Option.some.injEq, Prod.mk.injEq,
        Point.mirror_injective.eq_iff]
      constructor
      · rintro ⟨_, _, _, _, ⟨rfl, rfl⟩, ⟨rfl, rfl⟩, h⟩
        exact h
      · exact fun h => ⟨p, above, q, below, ⟨rfl, rfl⟩, ⟨rfl, rfl⟩, h⟩
    have hh := Value.holds_of_points (c := .greater) (Or.inl rfl) hp hq
    simp only [Comparison.key, reduceCtorEq, if_false] at hh
    refine ⟨decide (q < p) || (a.equal b && (above || below)), ?_, ?_⟩
    · by_cases h : q < p <;> simp [isEmpty, hh, h, bind, Except.bind, pure, Except.pure]
    · simp only [low, high, hv, Bool.or_eq_true, Bool.and_eq_true, decide_eq_true_eq,
        Value.equal_of_points hp hq]

theorem not_contains_of_void {low high : Cut} (h : Void low high) {x : Point} :
    ¬ (low.Allows (Comparison.greater.key x) ∧ high.Allows (Comparison.less.key x)) := by
  obtain ⟨p, o, q, u, rfl, rfl, h⟩ := h
  simp only [Comparison.key, reduceCtorEq, if_true, if_false, Cut.allows_some, Point.mirror_lt_mirror]
  rintro ⟨h₁, h₂⟩
  have h₁' : p ≤ x := by
    split_ifs at h₁
    · exact h₁.le
    · exact h₁
  have h₂' : x ≤ q := by
    split_ifs at h₂
    · exact h₂.le
    · exact not_lt.mp fun h' => not_lt.mpr h₂ (Point.mirror_lt_mirror.mpr h')
  rcases h with h | ⟨rfl, rfl | rfl⟩
  · exact absurd (h₁'.trans h₂') (not_le.mpr h)
  · exact absurd h₂' (not_le.mpr (by simpa using h₁))
  · exact absurd h₁' (not_le.mpr (by simpa using h₂))

/-- Narrowing joins both cuts, and finds nothing exactly when no point lies between them. -/
theorem narrow_cases {r s : Range} (hr : r.Numeric) (hs : s.Numeric) : ∃ t : Range, t.Numeric ∧
    t.low.cut .greater = (r.low.cut .greater).join (s.low.cut .greater) ∧
    t.high.cut .less = (r.high.cut .less).join (s.high.cut .less) ∧
    (r.low.1 = none → t.low = s.low) ∧ (r.high.1 = none → t.high = s.high) ∧
    ((r.narrow s = .ok (some t) ∧ ¬ Void (t.low.cut .greater) (t.high.cut .less)) ∨
      (r.narrow s = .ok none ∧ Void (t.low.cut .greater) (t.high.cut .less))) := by
  obtain ⟨a, ha, han, hac, has⟩ := tighter_spec (Or.inl rfl) hr.1 hs.1
  obtain ⟨b, hb, hbn, hbc, hbs⟩ := tighter_spec (Or.inr rfl) hr.2 hs.2
  obtain ⟨t, ht⟩ : ∃ t : Range, t = ⟨a.1, b.1, a.2, b.2⟩ := ⟨_, rfl⟩
  have htl : t.low = a := by rw [ht]; rfl
  have hth : t.high = b := by rw [ht]; rfl
  have htn : t.Numeric := ⟨htl ▸ han, hth ▸ hbn⟩
  obtain ⟨e, he, hev⟩ := isEmpty_spec htn
  refine ⟨t, htn, htl ▸ hac, hth ▸ hbc, htl ▸ has, hth ▸ hbs, ?_⟩
  have hn : r.narrow s = (t.isEmpty).bind fun e => .ok (if e then none else some t) := by
    simp only [low] at ha
    simp only [high] at hb
    simp only [narrow, ha, hb, bind, Except.bind, pure, Except.pure, ← ht]
    cases t.isEmpty with
    | error e => rfl
    | ok e => cases e <;> rfl
  rw [hn, he, ← hev]
  cases e
  · exact Or.inl ⟨rfl, by simp⟩
  · exact Or.inr ⟨rfl, rfl⟩

theorem contains_of_join {r s t : Range}
    (hl : t.low.cut .greater = (r.low.cut .greater).join (s.low.cut .greater))
    (hh : t.high.cut .less = (r.high.cut .less).join (s.high.cut .less)) (x : Point) :
    t.Contains x ↔ r.Contains x ∧ s.Contains x := by
  simp only [Contains, Side.Allows, hl, hh, Cut.allows_join]
  exact and_and_and_comm

/-- A range covers another one exactly when its cuts lie no further in and the other one is not empty. -/
theorem covers_spec {r s : Range} (hr : r.Numeric) (hs : s.Numeric) : ∃ b, r.covers s = .ok b ∧
    (b = true ↔ (r.low.cut .greater).Under (s.low.cut .greater) ∧
      (r.high.cut .less).Under (s.high.cut .less) ∧ ¬ Void (s.low.cut .greater) (s.high.cut .less)) := by
  obtain ⟨t, ht, hl, hh, hls, hhs, hn⟩ := narrow_cases hr hs
  rw [← Cut.join_eq_right, ← Cut.join_eq_right, ← hl, ← hh]
  rcases hn with ⟨hn, hv⟩ | ⟨hn, hv⟩
  · refine ⟨t.same s, by simp [covers, hn, bind, Except.bind, pure, Except.pure], ?_⟩
    have hlow := sameBound_iff (c := .greater) ht.1 hs.1
    have hhigh := sameBound_iff (c := .less) ht.2 hs.2
    have hsame : t.same s = true ↔ (sameBound t.low.1 s.low.1 = true ∧ t.low.2 = s.low.2) ∧
        (sameBound t.high.1 s.high.1 = true ∧ t.high.2 = s.high.2) := by
      simp only [same, low, high, Bool.and_eq_true, beq_iff_eq]
      exact ⟨fun h => ⟨⟨h.1.1.1, h.1.2⟩, h.1.1.2, h.2⟩, fun h => ⟨⟨⟨h.1.1, h.2.1⟩, h.1.2⟩, h.2.2⟩⟩
    rw [hsame, hlow, hhigh]
    constructor
    · rintro ⟨⟨h₁, -⟩, h₂, -⟩
      exact ⟨h₁, h₂, by rwa [← h₁, ← h₂]⟩
    · rintro ⟨h₁, h₂, -⟩
      refine ⟨⟨h₁, fun h => ?_⟩, h₂, fun h => ?_⟩
      · have hc := (Side.cut_eq_none (c := .greater) ht.1).mpr h
        rw [hl, Cut.join_eq_none] at hc
        rw [hls ((Side.cut_eq_none hr.1).mp hc.1)]
      · have hc := (Side.cut_eq_none (c := .less) ht.2).mpr h
        rw [hh, Cut.join_eq_none] at hc
        rw [hhs ((Side.cut_eq_none hr.2).mp hc.1)]
  · refine ⟨false, by simp [covers, hn, bind, Except.bind, pure, Except.pure], ?_⟩
    simp only [Bool.false_eq_true, false_iff]
    rintro ⟨h₁, h₂, h₃⟩
    exact h₃ (by rwa [← h₁, ← h₂])

/-- Both ranges cover what they narrow to. -/
theorem covers_narrow {r s t : Range} (hr : r.Numeric) (hs : s.Numeric) (h : r.narrow s = .ok (some t)) :
    r.covers t = .ok true ∧ s.covers t = .ok true := by
  obtain ⟨t', ht, hlow, hhigh, -, -, hfound | hnone⟩ := narrow_cases hr hs
  · obtain ⟨hfound, hvoid⟩ := hfound
    obtain rfl : t' = t := by simpa [hfound] using h
    obtain ⟨x, hx, hcovers⟩ := covers_spec hr ht
    obtain ⟨y, hy, hcovers'⟩ := covers_spec hs ht
    rw [hx, hy, Except.ok.injEq, Except.ok.injEq, hcovers, hcovers', hlow, hhigh]
    rw [hlow, hhigh] at hvoid
    constructor
    · exact ⟨Cut.under_join_left _ _, Cut.under_join_left _ _, hvoid⟩
    · exact ⟨Cut.under_join_right _ _, Cut.under_join_right _ _, hvoid⟩
  · simp [hnone.1] at h

end Range
end Schemata
