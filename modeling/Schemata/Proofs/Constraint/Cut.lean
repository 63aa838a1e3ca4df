import Schemata.Constraint.Check
import Schemata.Constraint.Narrow
import Schemata.Proofs.Constraint.Line

/-! Ranges as pairs of cuts of the number line. Narrowing a side joins two cuts, so a narrowed range holds what
both ranges hold, and a range covers another one when its cuts lie no further in. -/
namespace Schemata

/-- One side of a range, seen in the direction of its comparison: the key of the bound, and whether the bound
itself is left out. No cut leaves the side open. -/
abbrev Cut := Option (Point × Bool)

namespace Cut

def Allows (c : Cut) (x : Point) : Prop :=
  ∀ b ∈ c, if b.2 then b.1 < x else b.1 ≤ x

/-- The tighter of two cuts. -/
def join : Cut → Cut → Cut
  | none, c => c
  | c, none => c
  | some (p, o), some (q, u) => if p = q then some (p, o || u) else if p < q then some (q, u) else some (p, o)

/-- The first cut lies no further in than the second. -/
def Under : Cut → Cut → Prop
  | none, _ => True
  | some _, none => False
  | some (p, o), some (q, u) => p < q ∨ (p = q ∧ (o = true → u = true))

@[simp] theorem none_join (c : Cut) : join none c = c := rfl

@[simp] theorem join_none (c : Cut) : c.join none = c := by cases c <;> rfl

theorem join_eq_none {a b : Cut} : a.join b = none ↔ a = none ∧ b = none := by
  match a, b with
  | none, b => simp
  | some a, none => simp
  | some (p, o), some (q, u) =>
    simp only [join]
    split_ifs <;> simp

@[simp] theorem allows_none (x : Point) : Allows none x := by simp [Allows]

theorem allows_some {p x : Point} {o : Bool} :
    Allows (some (p, o)) x ↔ if o then p < x else p ≤ x := by simp [Allows]

theorem allows_join (a b : Cut) (x : Point) : (a.join b).Allows x ↔ a.Allows x ∧ b.Allows x := by
  match a, b with
  | none, b => simp
  | some a, none => simp
  | some (p, o), some (q, u) =>
    simp only [join]
    split_ifs with h₁ h₂
    · subst h₁
      cases o <;> cases u <;> simp [allows_some] <;> exact fun h => h.le
    · have hq : Allows (some (q, u)) x → p < x := fun h => by
        rw [allows_some] at h
        split_ifs at h
        · exact h₂.trans h
        · exact lt_of_lt_of_le h₂ h
      refine ⟨fun h => ⟨?_, h⟩, fun h => h.2⟩
      rw [allows_some]
      split_ifs
      · exact hq h
      · exact (hq h).le
    · have h₃ : q < p := lt_of_le_of_ne (not_lt.mp h₂) (Ne.symm h₁)
      have hp : Allows (some (p, o)) x → q < x := fun h => by
        rw [allows_some] at h
        split_ifs at h
        · exact h₃.trans h
        · exact lt_of_lt_of_le h₃ h
      refine ⟨fun h => ⟨h, ?_⟩, fun h => h.1⟩
      rw [allows_some]
      split_ifs
      · exact hp h
      · exact (hp h).le

theorem Under.trans {a b c : Cut} (hab : a.Under b) (hbc : b.Under c) : a.Under c := by
  match a, b, c with
  | none, _, _ => trivial
  | some _, none, _ => exact hab.elim
  | some _, some _, none => exact hbc.elim
  | some (p, o), some (q, u), some (r, w) =>
    rcases hab with h | ⟨rfl, h⟩
    · rcases hbc with k | ⟨rfl, -⟩
      · exact Or.inl (h.trans k)
      · exact Or.inl h
    · rcases hbc with k | ⟨rfl, k⟩
      · exact Or.inl k
      · exact Or.inr ⟨rfl, fun ho => k (h ho)⟩

theorem join_eq_right {a b : Cut} : a.join b = b ↔ a.Under b := by
  match a, b with
  | none, b => simp [join, Under]
  | some a, none => simp [join, Under]
  | some (p, o), some (q, u) =>
    simp only [join, Under]
    split_ifs with h₁ h₂
    · subst h₁
      cases o <;> cases u <;> simp
    · simp [h₂]
    · simp [h₁, h₂]

theorem under_join_left (a b : Cut) : a.Under (a.join b) := by
  rcases a with _ | ⟨p, o⟩
  · trivial
  rcases b with _ | ⟨q, u⟩
  · exact Or.inr ⟨rfl, id⟩
  simp only [join]
  split_ifs with heq hlt
  · exact Or.inr ⟨rfl, fun h => by simp [h]⟩
  · exact Or.inl hlt
  · exact Or.inr ⟨rfl, id⟩

theorem under_join_right (a b : Cut) : b.Under (a.join b) := by
  rcases b with _ | ⟨q, u⟩
  · trivial
  rcases a with _ | ⟨p, o⟩
  · exact Or.inr ⟨rfl, id⟩
  simp only [join]
  split_ifs with heq hlt
  · exact Or.inr ⟨heq.symm, fun h => by simp [h]⟩
  · exact Or.inr ⟨rfl, id⟩
  · exact Or.inl (lt_of_le_of_ne (not_lt.mp hlt) (Ne.symm heq))

theorem Under.allows {a b : Cut} (h : a.Under b) {x : Point} (hx : b.Allows x) : a.Allows x := by
  rw [← join_eq_right.mpr h, allows_join] at hx
  exact hx.1

end Cut

namespace Range

/-- One side of a range, as it is given. -/
abbrev Side := Option Value × Bool

def low (r : Range) : Side := (r.least, r.aboveLeast)

def high (r : Range) : Side := (r.greatest, r.belowGreatest)

/-- A bound that is missing, or a number other than NaN. -/
def Side.Numeric (s : Side) : Prop := ∀ b ∈ s.1, ∃ p, b.point? = some p

/-- All bounds of the range are numbers, none of them NaN. -/
def Numeric (r : Range) : Prop := Side.Numeric r.low ∧ Side.Numeric r.high

def Side.cut (c : Comparison) (s : Side) : Cut :=
  (s.1.bind Value.point?).map fun p => (c.key p, s.2)

theorem Side.cut_none (c : Comparison) (o : Bool) : Side.cut c (none, o) = none := rfl

theorem Side.cut_some {c : Comparison} {v : Value} {p : Point} {o : Bool} (h : v.point? = some p) :
    Side.cut c (some v, o) = some (c.key p, o) := by simp [Side.cut, h]

theorem Side.numeric_none {o : Bool} : Side.Numeric (none, o) := nofun

theorem Side.numeric_some {v : Value} {p : Point} {o : Bool} (h : v.point? = some p) : Side.Numeric (some v, o) := by
  rintro _ ⟨⟩
  exact ⟨p, h⟩

/-- Narrowing one side joins its cuts. The result is one of the two sides where only one has a bound. -/
theorem tighter_spec {c : Comparison} (hc : c = .greater ∨ c = .less) {a b : Side} (ha : a.Numeric)
    (hb : b.Numeric) : ∃ t : Side, tighter c a b = .ok t ∧ t.Numeric ∧
      t.cut c = (a.cut c).join (b.cut c) ∧ (a.1 = none → t = b) := by
  obtain ⟨v, o⟩ := a
  obtain ⟨w, u⟩ := b
  match v, w with
  | none, w => exact ⟨(w, u), by simp [tighter], hb, by simp [Side.cut_none], fun _ => rfl⟩
  | some v, none => exact ⟨(some v, o), by simp [tighter], ha, by simp [Side.cut_none], by simp⟩
  | some v, some w =>
    obtain ⟨p, hp⟩ := ha v rfl
    obtain ⟨q, hq⟩ := hb w rfl
    by_cases h : p = q
    · have he : v.equal w = true := (Value.equal_of_points hp hq).mpr h
      refine ⟨(some v, o || u), by simp [tighter, he], ha, ?_, by simp⟩
      simp [Side.cut_some hp, Side.cut_some hq, Cut.join, h]
    · have he : v.equal w = false := by
        rw [← Bool.not_eq_true, Value.equal_of_points hp hq]
        exact h
      have hk : c.key p ≠ c.key q := fun hk => h (c.key_injective hk)
      have hw : w.equal v = false := by
        rw [← Bool.not_eq_true, Value.equal_of_points hq hp]
        exact fun h' => h h'.symm
      have hv : v.equal v = true := (Value.equal_of_points hp hp).mpr rfl
      by_cases hlt : c.key p < c.key q
      · refine ⟨(some w, u), ?_, hb, ?_, by simp⟩
        · simp [tighter, he, Value.holds_of_points hc hq hp, hlt, hw, bind, Except.bind, pure, Except.pure]
        · simp [Side.cut_some hp, Side.cut_some hq, Cut.join, hk, hlt]
      · refine ⟨(some v, o), ?_, ha, ?_, by simp⟩
        · simp [tighter, he, Value.holds_of_points hc hq hp, hlt, hv, bind, Except.bind, pure, Except.pure]
        · simp [Side.cut_some hp, Side.cut_some hq, Cut.join, hk, hlt]

@[simp] theorem Side.cut_eq_none {c : Comparison} {s : Side} (h : s.Numeric) :
    s.cut c = none ↔ s.1 = none := by
  obtain ⟨v, o⟩ := s
  match v with
  | none => simp [Side.cut_none]
  | some v =>
    obtain ⟨p, hp⟩ := h v rfl
    simp [Side.cut_some hp]

theorem sameBound_iff {c : Comparison} {a b : Side} (ha : a.Numeric) (hb : b.Numeric) :
    (sameBound a.1 b.1 = true ∧ a.2 = b.2) ↔ a.cut c = b.cut c ∧ (a.1 = none → a.2 = b.2) := by
  obtain ⟨v, o⟩ := a
  obtain ⟨w, u⟩ := b
  match v, w with
  | none, none => simp [sameBound, Side.cut_none]
  | none, some w =>
    obtain ⟨q, hq⟩ := hb w rfl
    simp [sameBound, Side.cut_none, Side.cut_some hq]
  | some v, none =>
    obtain ⟨p, hp⟩ := ha v rfl
    simp [sameBound, Side.cut_none, Side.cut_some hp]
  | some v, some w =>
    obtain ⟨p, hp⟩ := ha v rfl
    obtain ⟨q, hq⟩ := hb w rfl
    simp [sameBound, Side.cut_some hp, Side.cut_some hq, Value.same_of_points hp hq,
      (Comparison.key_injective c).eq_iff]

end Range
end Schemata
