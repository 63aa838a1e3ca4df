import Schemata.Algebra.Intersection
import Schemata.Proofs.Constraint.Bounds
import Schemata.Proofs.Runs

/-! Plain constraints: what they accept, which of them imply others, and how the intersection gathers them.
Provable implication is a transitive order, and gathering keeps exactly what all constraints accept. -/
namespace Schemata

namespace Length

def Contains (l : Length) (n : Int) : Prop := (∀ a ∈ l.least, a ≤ n) ∧ ∀ b ∈ l.greatest, n ≤ b

def Accepts (l : Length) (v : Value) : Prop := ∃ n : Nat, v.length? = some n ∧ l.Contains n

theorem check_isValid (l : Length) (v : Value) : (l.check v).isValid = true ↔ l.Accepts v := by
  obtain ⟨least, greatest⟩ := l
  unfold check Accepts
  cases v.length? with
  | none => simp [Verdict.refuse, Verdict.isValid]
  | some n =>
    cases least with
    | none =>
      cases greatest with
      | none => simp [low?, high?, Contains, Verdict.isValid]
      | some b =>
        by_cases h : b < (n : Int)
        · simp [low?, high?, Contains, h, outside, Verdict.refuse, Verdict.isValid]
        · simp [low?, high?, Contains, h, Verdict.isValid, not_lt.mp h]
    | some a =>
      by_cases h : (n : Int) < a
      · simp [low?, high?, Contains, h, outside, Verdict.refuse, Verdict.isValid]
      · cases greatest with
        | none => simp [low?, high?, Contains, h, Verdict.isValid, not_lt.mp h]
        | some b =>
          by_cases k : b < (n : Int)
          · simp [low?, high?, Contains, h, k, outside, Verdict.refuse, Verdict.isValid]
          · simp [low?, high?, Contains, h, k, Verdict.isValid, not_lt.mp h, not_lt.mp k]

theorem meet_max {a b : Option Int} {n : Int} :
    (∀ c ∈ meet max a b, c ≤ n) ↔ (∀ c ∈ a, c ≤ n) ∧ ∀ c ∈ b, c ≤ n := by
  cases a <;> cases b <;> simp [meet]

theorem meet_min {a b : Option Int} {n : Int} :
    (∀ c ∈ meet min a b, n ≤ c) ↔ (∀ c ∈ a, n ≤ c) ∧ ∀ c ∈ b, n ≤ c := by
  cases a <;> cases b <;> simp [meet]

theorem not_contains_of_isEmpty {l : Length} (h : l.isEmpty = true) (n : Int) : ¬ l.Contains n := by
  obtain ⟨least, greatest⟩ := l
  match least, greatest with
  | none, _ => simp [isEmpty] at h
  | some a, none => simp [isEmpty] at h
  | some a, some b =>
    simp only [isEmpty, decide_eq_true_eq] at h
    simp only [Contains, Option.mem_def, Option.some.injEq, forall_eq']
    omega

/-- Narrowing keeps the lengths that both bounds hold. -/
theorem narrow?_spec (a b : Length) :
    (∃ l, a.narrow? b = some l ∧ ∀ n, l.Contains n ↔ a.Contains n ∧ b.Contains n) ∨
      (a.narrow? b = none ∧ ∀ n, ¬ (a.Contains n ∧ b.Contains n)) := by
  have hc : ∀ n, Contains ⟨meet max a.least b.least, meet min a.greatest b.greatest⟩ n ↔
      a.Contains n ∧ b.Contains n := by
    intro n
    simp only [Contains, meet_max, meet_min]
    exact and_and_and_comm
  unfold narrow?
  dsimp only
  split_ifs with h
  · exact Or.inr ⟨rfl, fun n hn => not_contains_of_isEmpty h n ((hc n).mpr hn)⟩
  · exact Or.inl ⟨_, rfl, hc⟩

theorem covers_iff {a b : Length} : a.covers b = true ↔
    (∀ x ∈ a.least, ∃ y ∈ b.least, x ≤ y) ∧ (∀ x ∈ a.greatest, ∃ y ∈ b.greatest, y ≤ x) ∧
      b.isEmpty = false := by
  obtain ⟨a₁, a₂⟩ := a
  obtain ⟨b₁, b₂⟩ := b
  have hl : meet max a₁ b₁ = b₁ ↔ ∀ x ∈ a₁, ∃ y ∈ b₁, x ≤ y := by
    cases a₁ <;> cases b₁ <;> simp [meet]
  have hg : meet min a₂ b₂ = b₂ ↔ ∀ x ∈ a₂, ∃ y ∈ b₂, y ≤ x := by
    cases a₂ <;> cases b₂ <;> simp [meet]
  rw [← hl, ← hg]
  simp only [covers, narrow?, beq_iff_eq]
  split_ifs with h
  · simp only [false_iff]
    rintro ⟨h₁, h₂, h₃⟩
    rw [h₁, h₂, h₃] at h
    exact absurd h (by simp)
  · simp only [Option.some.injEq, Length.mk.injEq]
    constructor
    · rintro ⟨h₁, h₂⟩
      refine ⟨h₁, h₂, ?_⟩
      rw [h₁, h₂] at h
      simpa using h
    · exact fun ⟨h₁, h₂, _⟩ => ⟨h₁, h₂⟩

theorem covers_trans {a b c : Length} (hab : a.covers b = true) (hbc : b.covers c = true) :
    a.covers c = true := by
  rw [covers_iff] at *
  refine ⟨fun x hx => ?_, fun x hx => ?_, hbc.2.2⟩
  · obtain ⟨y, hy, h₁⟩ := hab.1 x hx
    obtain ⟨z, hz, h₂⟩ := hbc.1 y hy
    exact ⟨z, hz, h₁.trans h₂⟩
  · obtain ⟨y, hy, h₁⟩ := hab.2.1 x hx
    obtain ⟨z, hz, h₂⟩ := hbc.2.1 y hy
    exact ⟨z, hz, h₂.trans h₁⟩

theorem contains_of_covers {a b : Length} (h : a.covers b = true) {n : Int} (hn : b.Contains n) :
    a.Contains n := by
  rw [covers_iff] at h
  refine ⟨fun x hx => ?_, fun x hx => ?_⟩
  · obtain ⟨y, hy, hxy⟩ := h.1 x hx
    exact hxy.trans (hn.1 y hy)
  · obtain ⟨y, hy, hxy⟩ := h.2.1 x hx
    exact (hn.2 y hy).trans hxy

theorem le_meet_max (x y : Option Int) :
    (∀ n ∈ x, ∃ m ∈ meet max x y, n ≤ m) ∧ ∀ n ∈ y, ∃ m ∈ meet max x y, n ≤ m := by
  cases x <;> cases y <;> simp [meet]

theorem meet_min_le (x y : Option Int) :
    (∀ n ∈ x, ∃ m ∈ meet min x y, m ≤ n) ∧ ∀ n ∈ y, ∃ m ∈ meet min x y, m ≤ n := by
  cases x <;> cases y <;> simp [meet]

/-- Both bounds cover what they narrow to. -/
theorem covers_narrow {a b c : Length} (h : a.narrow? b = some c) : a.covers c = true ∧ b.covers c = true := by
  unfold narrow? at h
  dsimp only at h
  split_ifs at h with hempty
  obtain rfl := Option.some.inj h
  obtain ⟨hleast, hleast'⟩ := le_meet_max a.least b.least
  obtain ⟨hgreatest, hgreatest'⟩ := meet_min_le a.greatest b.greatest
  rw [Bool.not_eq_true] at hempty
  rw [covers_iff, covers_iff]
  exact ⟨⟨hleast, hgreatest, hempty⟩, hleast', hgreatest', hempty⟩

end Length

namespace Pattern

/-- The pattern is a regular expression. -/
def Compiles (p : Pattern) : Prop := ∃ r, Regex.read (.ofInt p.flags) p.source = .ok r

def Accepts (p : Pattern) (v : Value) : Prop :=
  ∃ s r, v = .string s ∧ Regex.read (.ofInt p.flags) p.source = .ok r ∧ r.search s = true

theorem check_spec {p : Pattern} (hp : p.Compiles) (v : Value) :
    ∃ d, p.check v = .ok d ∧ (d.isValid = true ↔ p.Accepts v) := by
  obtain ⟨r, hr⟩ := hp
  cases v with
  | string s =>
    refine ⟨if r.search s then .valid else p.mismatch s, ?_, ?_⟩
    · simp [check, hr, bind, Except.bind, pure, Except.pure]
    · simp only [Accepts, Value.string.injEq]
      constructor
      · intro h
        refine ⟨s, r, rfl, hr, ?_⟩
        split_ifs at h with hs
        · exact hs
        · simp [mismatch, Verdict.refuse, Verdict.isValid] at h
      · rintro ⟨t, q, rfl, hq, hs⟩
        obtain rfl : r = q := Except.ok.inj (hr.symm.trans hq)
        simp [hs, Verdict.isValid]
  | _ => exact ⟨_, rfl, by simp [Verdict.refuse, Verdict.isValid, Accepts]⟩

end Pattern

namespace Constraint

/-- Ranges between numbers, lengths, and patterns that are regular expressions. -/
def Plain : Constraint → Prop
  | .range r => r.Numeric
  | .length _ => True
  | .pattern p => p.Compiles
  | _ => False

/-- Values that a plain constraint accepts. -/
def Accepts : Constraint → Value → Prop
  | .range r, v => r.Accepts v
  | .length l, v => l.Accepts v
  | .pattern p, v => p.Accepts v
  | _, _ => False

theorem check_spec {c : Constraint} (hc : c.Plain) (hooks : Hooks) (v : Value) :
    ∃ d, c.check hooks v = .ok d ∧ (d.isValid = true ↔ c.Accepts v) := by
  cases c with
  | range r =>
    obtain ⟨d, hd, h⟩ := Range.check_spec hc v
    exact ⟨d, by simp [check, hd, Except.mapError], h⟩
  | length l => exact ⟨l.check v, rfl, l.check_isValid v⟩
  | pattern p =>
    obtain ⟨d, hd, h⟩ := Pattern.check_spec hc v
    exact ⟨d, by simp [check, hd, Except.mapError], h⟩
  | equals _ => exact hc.elim
  | type _ => exact hc.elim
  | predicate _ => exact hc.elim

theorem allAccept_decides {cs : List Constraint} (hcs : ∀ c ∈ cs, c.Plain) (hooks : Hooks) (v : Value) :
    Decides (allAccept hooks v cs) (∀ c ∈ cs, c.Accepts v) := by
  refine Decides.all fun c hc => ?_
  obtain ⟨d, hd, h⟩ := check_spec (hcs c hc) hooks v
  exact ⟨d.isValid, by simp [hd, Except.mapError, bind, Except.bind, pure, Except.pure], h⟩

theorem range_same_iff {r s : Range} (hr : r.Numeric) (hs : s.Numeric) : r.same s = true ↔
    (r.low.cut .greater = s.low.cut .greater ∧ (r.low.1 = none → r.low.2 = s.low.2)) ∧
      r.high.cut .less = s.high.cut .less ∧ (r.high.1 = none → r.high.2 = s.high.2) := by
  rw [← Range.sameBound_iff hr.1 hs.1, ← Range.sameBound_iff hr.2 hs.2]
  simp only [Range.same, Range.low, Range.high, Bool.and_eq_true, beq_iff_eq]
  exact ⟨fun h => ⟨⟨h.1.1.1, h.1.2⟩, h.1.1.2, h.2⟩, fun h => ⟨⟨⟨h.1.1, h.2.1⟩, h.1.2⟩, h.2.2⟩⟩

/-- The first constraint provably implies the second: the two are the same, or the second covers the
first. -/
def Within (d c : Constraint) : Prop := d.same c = true ∨ c.covers d = .ok true

theorem covers_decides {c d : Constraint} (hc : c.Plain) (hd : d.Plain) :
    Decides (c.covers d) (c.covers d = .ok true) := by
  have hok : ∃ b, c.covers d = .ok b := by
    cases c <;> cases d <;> try exact ⟨_, rfl⟩
    obtain ⟨b, hb, -⟩ := Range.covers_spec hc hd
    exact ⟨b, hb⟩
  obtain ⟨b, hb⟩ := hok
  exact ⟨b, hb, by simp [hb]⟩

theorem impliedBy_decides {c : Constraint} (hc : c.Plain) {ds : List Constraint} (hds : ∀ d ∈ ds, d.Plain) :
    Decides (c.impliedBy ds) (∃ d ∈ ds, d.Within c) := by
  refine Decides.any fun d hd => ?_
  unfold Within
  split_ifs with h
  · exact Decides.of_true (Or.inl h)
  · obtain ⟨b, hb, h'⟩ := covers_decides hc (hds d hd)
    exact ⟨b, by simp [hb, Except.mapError], by simp [h, h']⟩

theorem Within.trans {a b c : Constraint} (ha : a.Plain) (hb : b.Plain) (hc : c.Plain) (hab : a.Within b)
    (hbc : b.Within c) : a.Within c := by
  cases b with
  | range s =>
    cases a <;> simp [Within, same, covers] at hab
    cases c <;> simp [Within, same, covers] at hbc
    rename_i r t
    obtain ⟨_, hx, hx'⟩ := Range.covers_spec hb ha
    obtain ⟨_, hy, hy'⟩ := Range.covers_spec hc hb
    obtain ⟨_, hz, hz'⟩ := Range.covers_spec hc ha
    simp only [Within, same, covers]
    rw [range_same_iff ha hb, hx, Except.ok.injEq, hx'] at hab
    rw [range_same_iff hb hc, hy, Except.ok.injEq, hy'] at hbc
    rw [range_same_iff ha hc, hz, Except.ok.injEq, hz']
    rcases hab with ⟨⟨h₁, f₁⟩, h₂, f₂⟩ | ⟨h₁, h₂, h₃⟩
    · rcases hbc with ⟨⟨k₁, g₁⟩, k₂, g₂⟩ | ⟨k₁, k₂, k₃⟩
      · refine Or.inl ⟨⟨h₁.trans k₁, fun h => ?_⟩, h₂.trans k₂, fun h => ?_⟩
        · have h' : s.low.1 = none := by
            rw [← Range.Side.cut_eq_none (c := .greater) hb.1, ← h₁, Range.Side.cut_eq_none ha.1]
            exact h
          exact (f₁ h).trans (g₁ h')
        · have h' : s.high.1 = none := by
            rw [← Range.Side.cut_eq_none (c := .less) hb.2, ← h₂, Range.Side.cut_eq_none ha.2]
            exact h
          exact (f₂ h).trans (g₂ h')
      · rw [h₁, h₂]
        exact Or.inr ⟨k₁, k₂, k₃⟩
    · rcases hbc with ⟨⟨k₁, -⟩, k₂, -⟩ | ⟨k₁, k₂, -⟩
      · rw [← k₁, ← k₂]
        exact Or.inr ⟨h₁, h₂, h₃⟩
      · exact Or.inr ⟨k₁.trans h₁, k₂.trans h₂, h₃⟩
  | length l =>
    cases a <;> simp [Within, same, covers] at hab
    cases c <;> simp [Within, same, covers] at hbc
    simp only [Within, same, covers, beq_iff_eq, Except.ok.injEq]
    rcases hab with rfl | hab
    · exact hbc
    · rcases hbc with rfl | hbc
      · exact Or.inr hab
      · exact Or.inr (Length.covers_trans hbc hab)
  | pattern p =>
    cases a <;> simp [Within, same, covers] at hab
    cases c <;> simp [Within, same, covers] at hbc
    simp [Within, same, hab, hbc]
  | equals _ => exact hb.elim
  | type _ => exact hb.elim
  | predicate _ => exact hb.elim

theorem Within.accepts {d c : Constraint} (hd : d.Plain) (hc : c.Plain) (h : d.Within c) {v : Value}
    (hv : d.Accepts v) : c.Accepts v := by
  cases d with
  | range s =>
    cases c <;> simp [Within, same, covers] at h
    rename_i r
    obtain ⟨_, hb, hb'⟩ := Range.covers_spec hc hd
    obtain ⟨n, rfl, hn⟩ := hv
    refine ⟨n, rfl, fun x hx => ?_⟩
    have hs := hn x hx
    rw [range_same_iff hd hc, hb, Except.ok.injEq, hb'] at h
    rcases h with ⟨⟨h₁, -⟩, h₂, -⟩ | ⟨h₁, h₂, -⟩
    · simpa [Range.Contains, Range.Side.Allows, h₁, h₂] using hs
    · exact ⟨h₁.allows hs.1, h₂.allows hs.2⟩
  | length l =>
    cases c <;> simp [Within, same, covers] at h
    obtain ⟨n, hn, hl⟩ := hv
    rcases h with rfl | h
    · exact ⟨n, hn, hl⟩
    · exact ⟨n, hn, Length.contains_of_covers h hl⟩
  | pattern p =>
    cases c <;> simp [Within, same, covers] at h
    subst h
    exact hv
  | equals _ => exact hd.elim
  | type _ => exact hd.elim
  | predicate _ => exact hd.elim

theorem same_symm {c d : Constraint} (hc : c.Plain) (hd : d.Plain) (h : c.same d = true) :
    d.same c = true := by
  cases c with
  | range r =>
    cases d <;> simp [same] at h ⊢
    rename_i s
    rw [range_same_iff hc hd] at h
    rw [range_same_iff hd hc]
    obtain ⟨⟨h₁, f₁⟩, h₂, f₂⟩ := h
    refine ⟨⟨h₁.symm, fun h => (f₁ ?_).symm⟩, h₂.symm, fun h => (f₂ ?_).symm⟩
    · rw [← Range.Side.cut_eq_none (c := .greater) hc.1, h₁, Range.Side.cut_eq_none hd.1]
      exact h
    · rw [← Range.Side.cut_eq_none (c := .less) hc.2, h₂, Range.Side.cut_eq_none hd.2]
      exact h
  | length l => cases d <;> simp_all [same]
  | pattern p => cases d <;> simp_all [same]
  | equals _ => exact hc.elim
  | type _ => exact hc.elim
  | predicate _ => exact hc.elim

end Constraint
end Schemata
