import Schemata.Value.Order
import Mathlib.Data.Int.ConditionallyCompleteOrder
import Mathlib.Order.WithBot

/-! The number line behind numbers. Comparing numbers, and values that count as numbers, is comparing their
points; the two directions of comparison are one order and its mirror image. -/
namespace Schemata

namespace Point

/-- A point among the integers with both ends. -/
def place : Point → WithBot (WithTop Int)
  | .below => ⊥
  | .finite u => ((u : WithTop Int) : WithBot (WithTop Int))
  | .above => ((⊤ : WithTop Int) : WithBot (WithTop Int))

theorem place_injective : Function.Injective place := by
  intro p q h
  cases p <;> cases q <;> simp_all [place]

instance : LinearOrder Point := LinearOrder.lift' place place_injective

theorem less_iff {p q : Point} : p.less q = true ↔ p < q := by
  show _ ↔ place p < place q
  cases p <;> cases q <;> simp [less, place]
  exact WithBot.coe_lt_coe.mpr (WithTop.coe_lt_top _)

/-- The line turned around. -/
def mirror : Point → Point
  | .below => .above
  | .finite u => .finite (-u)
  | .above => .below

theorem mirror_lt_mirror {p q : Point} : p.mirror < q.mirror ↔ q < p := by
  simp only [← less_iff]
  cases p <;> cases q <;> simp [mirror, less]

theorem mirror_injective : Function.Injective mirror := by
  intro p q h
  cases p <;> cases q <;> simp_all [mirror]

end Point

namespace Number

theorem twoTo_pos (n : Nat) : 0 < twoTo n := Nat.pow_pos Nat.two_pos

theorem unitsPerOne_pos : 0 < ((unitsPerOne : Nat) : Int) :=
  Int.natCast_pos.mpr (twoTo_pos _)

theorem int_point (n : Int) : ∃ u, u = (n * (unitsPerOne : Nat) : Int) ∧
    point? (.int n) = some (.finite u) := ⟨_, rfl, rfl⟩

theorem points_equal_iff (p q : Option Point) : (match p, q with
    | some p, some q => p == q
    | _, _ => false) = true ↔ ∃ r, p = some r ∧ q = some r := by
  rcases p with _ | p <;> rcases q with _ | q <;> simp
  exact eq_comm

theorem equal_iff {a b : Number} :
    a.equal b = true ↔ ∃ p, a.point? = some p ∧ b.point? = some p := by
  cases a with
  | double d => cases b <;> exact points_equal_iff _ _
  | int m =>
    cases b with
    | double e => exact points_equal_iff _ _
    | int n =>
      obtain ⟨u, hu, hm⟩ := int_point m
      obtain ⟨w, hw, hn⟩ := int_point n
      have h : m = n ↔ u = w := by
        rw [hu, hw]
        exact ⟨fun h => by rw [h], fun h => Int.eq_of_mul_eq_mul_right unitsPerOne_pos.ne' h⟩
      rw [hm, hn, show equal (.int m) (.int n) = (m == n) from rfl, beq_iff_eq, h]
      simp only [Option.some.injEq, exists_eq_left', Point.finite.injEq]
      exact eq_comm

theorem points_less_iff (p q : Option Point) : (match p, q with
    | some p, some q => p.less q
    | _, _ => false) = true ↔ ∃ r s, p = some r ∧ q = some s ∧ r < s := by
  rcases p with _ | p <;> rcases q with _ | q <;> simp [Point.less_iff]

theorem less_iff {a b : Number} :
    a.less b = true ↔ ∃ p q, a.point? = some p ∧ b.point? = some q ∧ p < q := by
  cases a with
  | double d => cases b <;> exact points_less_iff _ _
  | int m =>
    cases b with
    | double e => exact points_less_iff _ _
    | int n =>
      obtain ⟨u, hu, hm⟩ := int_point m
      obtain ⟨w, hw, hn⟩ := int_point n
      have h : m < n ↔ u < w := by
        rw [hu, hw]
        exact (Int.mul_lt_mul_right unitsPerOne_pos).symm
      rw [hm, hn, show less (.int m) (.int n) = decide (m < n) from rfl, decide_eq_true_eq, h]
      simp [← Point.less_iff, Point.less]

theorem isNaN_iff {n : Number} : n.isNaN = true ↔ n.point? = none := by
  cases n with
  | int m => exact iff_of_false Bool.false_ne_true (Option.some_ne_none _)
  | double x =>
    cases x with
    | nan k => exact iff_of_true rfl rfl
    | infinite negative => cases negative <;> exact iff_of_false Bool.false_ne_true (Option.some_ne_none _)
    | finite negative m => cases negative <;> exact iff_of_false Bool.false_ne_true (Option.some_ne_none _)

/-- Sameness inside containers: one point, or one and the same NaN. -/
theorem same_iff {a b : Number} :
    a.same b = true ↔ (∃ p, a.point? = some p ∧ b.point? = some p) ∨ (a.point? = none ∧ a = b) := by
  simp [same, equal_iff, isNaN_iff]

/-- A number is integral exactly when its point is a whole multiple of one. -/
theorem toInt?_isSome {n : Number} {p : Point} (h : n.point? = some p) :
    n.toInt?.isSome = true ↔ ∃ k : Int, p = .finite (k * (unitsPerOne : Nat)) := by
  cases n with
  | int m => exact iff_of_true rfl ⟨m, (Option.some.inj h).symm⟩
  | double x =>
    cases x with
    | nan _ => simp [point?, Double.point?] at h
    | infinite negative =>
      refine iff_of_false nofun ?_
      rintro ⟨k, rfl⟩
      cases negative <;> cases Option.some.inj h
    | finite negative m =>
      have hdvd : (m % unitsPerOne = 0) ↔ ∃ k : Int, (m : Int) = k * (unitsPerOne : Nat) := by
        rw [← Nat.dvd_iff_mod_eq_zero, ← Int.natCast_dvd_natCast]
        exact exists_congr fun k => by rw [Int.mul_comm]
      have hsome : (toInt? (.double (.finite negative m))).isSome = true ↔ m % unitsPerOne = 0 := by
        simp only [toInt?, Double.toInt?]
        by_cases hm : m % unitsPerOne = 0
        · rw [if_pos hm]
          exact iff_of_true rfl hm
        · rw [if_neg hm]
          exact iff_of_false nofun hm
      rw [hsome, hdvd]
      cases negative with
      | false =>
        obtain rfl := Option.some.inj h
        simp only [Point.finite.injEq]
      | true =>
        obtain rfl := Option.some.inj h
        simp only [Point.finite.injEq]
        constructor
        · rintro ⟨k, hk⟩
          exact ⟨-k, by rw [hk, Int.neg_mul]⟩
        · rintro ⟨k, hk⟩
          exact ⟨-k, by rw [Int.neg_mul, ← hk, Int.neg_neg]⟩

/-- What a comparison says of two points. -/
theorem order?_of_points {a b : Number} {p q : Point} (ha : a.point? = some p) (hb : b.point? = some q) :
    a.order? b = some (if p < q then .lt else if q < p then .gt else .eq) := by
  have hl : a.less b = decide (p < q) := by
    rw [Bool.eq_iff_iff, less_iff]; simp [ha, hb]
  have hg : b.less a = decide (q < p) := by
    rw [Bool.eq_iff_iff, less_iff]; simp [ha, hb]
  have he : a.equal b = decide (p = q) := by
    rw [Bool.eq_iff_iff, equal_iff]; simp [ha, hb, eq_comm]
  simp only [order?, hl, hg, he, decide_eq_true_eq]
  split_ifs with h₁ h₂ h₃
  · rfl
  · rfl
  · rfl
  · exact absurd (le_antisymm (not_lt.mp h₂) (not_lt.mp h₁)) h₃

theorem order?_of_nan {a b : Number} (ha : a.point? = none) : a.order? b = none := by
  have hl : a.less b = false := by
    rw [← Bool.not_eq_true, less_iff]; simp [ha]
  have hg : b.less a = false := by
    rw [← Bool.not_eq_true, less_iff]; simp [ha]
  have he : a.equal b = false := by
    rw [← Bool.not_eq_true, equal_iff]; simp [ha]
  simp [order?, hl, hg, he]

end Number

namespace Comparison

/-- A point as seen in the direction of a comparison: what compares as greater, or the mirror image. -/
def key (c : Comparison) (p : Point) : Point := if c = .less then p.mirror else p

theorem key_injective (c : Comparison) : Function.Injective c.key := by
  intro p q h
  unfold key at h
  split_ifs at h
  · exact Point.mirror_injective h
  · exact h

end Comparison

namespace Value

/-- The point of a value that counts as a number. -/
def point? (v : Value) : Option Point := v.asNumber?.bind Number.point?

theorem asNumber?_of_point {v : Value} {p : Point} (h : v.point? = some p) :
    ∃ n, v.asNumber? = some n ∧ n.point? = some p := by
  unfold point? at h
  cases hn : v.asNumber? with
  | none => simp [hn] at h
  | some n => exact ⟨n, rfl, by simpa [hn] using h⟩

theorem holds_of_numbers {c : Comparison} {v w : Value} {n m : Number} (hv : v.asNumber? = some n)
    (hw : w.asNumber? = some m) : holds c v w = .ok (numbersHold c n m) := by
  cases v <;> cases w <;> simp_all [asNumber?, holds]

/-- Comparing in one of the two strict directions is comparing keys. -/
theorem holds_of_points {c : Comparison} (hc : c = .greater ∨ c = .less) {v w : Value} {p q : Point}
    (hv : v.point? = some p) (hw : w.point? = some q) :
    holds c v w = .ok (decide (c.key q < c.key p)) := by
  obtain ⟨n, hn, hp⟩ := asNumber?_of_point hv
  obtain ⟨m, hm, hq⟩ := asNumber?_of_point hw
  rw [holds_of_numbers hn hm, numbersHold, Number.order?_of_points hp hq]
  rcases hc with rfl | rfl
  · simp only [Comparison.key, reduceCtorEq, if_false]
    split_ifs with h₁ h₂
    · simp [Comparison.holds, not_lt_of_gt h₁]
    · simp [Comparison.holds, h₂]
    · simp [Comparison.holds, h₂]
  · simp only [Comparison.key, if_true, Point.mirror_lt_mirror]
    split_ifs with h₁ h₂
    · simp [Comparison.holds, h₁]
    · simp [Comparison.holds, h₁]
    · simp [Comparison.holds, h₁]

theorem same_of_points {v w : Value} {p q : Point} (hv : v.point? = some p) (hw : w.point? = some q) :
    v.same w = true ↔ p = q := by
  obtain ⟨n, hn, hp⟩ := asNumber?_of_point hv
  obtain ⟨m, hm, hq⟩ := asNumber?_of_point hw
  have hs : v.same w = n.same m := by
    cases v <;> simp_all [asNumber?, same, numberSame]
  rw [hs, Number.same_iff]
  simp [hp, hq, eq_comm]

theorem equal_of_points {v w : Value} {p q : Point} (hv : v.point? = some p) (hw : w.point? = some q) :
    v.equal w = true ↔ p = q := by
  obtain ⟨n, hn, hp⟩ := asNumber?_of_point hv
  have hnan : v.isNaN = false := by
    cases v with
    | number k =>
      simp only [asNumber?, Option.some.injEq] at hn
      subst hn
      rw [← Bool.not_eq_true, isNaN, Number.isNaN_iff]
      simp [hp]
    | _ => rfl
  rw [equal, hnan, Bool.not_false, Bool.true_and, same_of_points hv hw]

theorem numbersHold_of_nan {c : Comparison} {n m : Number} (h : n.point? = none ∨ m.point? = none) :
    numbersHold c n m = false := by
  have horder : n.order? m = none := by
    rcases h with h | h
    · exact Number.order?_of_nan h
    · have hl : n.less m = false := by
        rw [← Bool.not_eq_true, Number.less_iff]
        simp [h]
      have hg : m.less n = false := by
        rw [← Bool.not_eq_true, Number.less_iff]
        simp [h]
      have he : n.equal m = false := by
        rw [← Bool.not_eq_true, Number.equal_iff]
        simp [h]
      simp [Number.order?, hl, hg, he]
  rw [numbersHold, horder]

theorem not_equal_of_nan {v w : Value} {n m : Number} (hv : v.asNumber? = some n) (hw : w.asNumber? = some m)
    (h : n.point? = none ∨ m.point? = none) : v.equal w = false := by
  rw [← Bool.not_eq_true]
  intro heq
  simp only [equal, Bool.and_eq_true, Bool.not_eq_true'] at heq
  obtain ⟨hnan, hsame⟩ := heq
  have hs : v.same w = n.same m := by
    cases v <;> simp_all [asNumber?, same, numberSame]
  rw [hs, Number.same_iff] at hsame
  rcases hsame with ⟨p, hp, hq⟩ | ⟨hp, rfl⟩
  · simp [hp, hq] at h
  · -- Only a number counts as NaN.
    cases v with
    | number k =>
      obtain rfl := Option.some.inj hv
      simp [isNaN, Number.isNaN_iff.mpr hp] at hnan
    | bool b =>
      obtain rfl := Option.some.inj hv
      exact absurd hp (Option.some_ne_none _)
    | _ => simp [asNumber?] at hv

theorem holds_of_no_number {c : Comparison} {n : Number} {b : Value} (hb : b.asNumber? = none) :
    holds c (.number n) b = incomparable c (.number n) b := by
  simp only [holds, hb]
  rfl

/-- A value that a number can be compared with counts as a number. -/
theorem asNumber?_of_holds {c : Comparison} {n : Number} {b : Value} {r : Bool}
    (h : holds c (.number n) b = .ok r) : ∃ m, b.asNumber? = some m ∧ r = numbersHold c n m := by
  cases hb : b.asNumber? with
  | none =>
    rw [holds_of_no_number hb] at h
    exact absurd h nofun
  | some m =>
    rw [holds_of_numbers rfl hb] at h
    exact ⟨m, rfl, (Except.ok.inj h).symm⟩

end Value
end Schemata
