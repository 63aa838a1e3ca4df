import Schemata.Domain
import Schemata.Proofs.Constraint.Line

/-! Scalars: values without parts. Being the same literal means being the same value, or two numbers at one
point of the line. -/
namespace Schemata.Value

/-- Values that hold no other values. -/
def isScalar : Value → Bool
  | .list _ => false
  | .tuple _ _ => false
  | .mapping _ => false
  | .record _ _ _ => false
  | .knot _ _ => false
  | .back _ _ => false
  | _ => true

theorem entries_of_scalar {v : Value} (h : v.isScalar = true) : v.entries? = none := by
  cases v <;> simp [isScalar, entries?, unfold] at h ⊢

theorem items_of_scalar {v : Value} (h : v.isScalar = true) : v.items? = none := by
  cases v <;> simp [isScalar, items?, unfold] at h ⊢

/-- `v` is what the literal `w` stands for. -/
def Twin (w v : Value) : Prop :=
  (∃ n m p, w = .number n ∧ v = .number m ∧ n.point? = some p ∧ m.point? = some p) ∨
    (∀ n, w ≠ .number n) ∧ v = w

theorem Twin.of_ne {w v : Value} (hw : ∀ n, w ≠ .number n) : w.Twin v ↔ v = w := by
  constructor
  · rintro (⟨n, _, _, rfl, -⟩ | ⟨-, h⟩)
    · exact absurd rfl (hw n)
    · exact h
  · exact fun h => Or.inr ⟨hw, h⟩

theorem Twin.or_eq_of_ne {w v : Value} (hw : ∀ n, w ≠ .number n) : (w.Twin v ∨ w = v) ↔ w = v := by
  rw [Twin.of_ne hw, eq_comm, or_self]

theorem twin_iff {w : Value} (hw : w.isScalar = true) {v : Value} :
    (v.domain = w.domain ∧ w.literalEqual v = true) ↔ w.Twin v := by
  cases w with
  | number n =>
    cases v with
    | number m => simp [domain, literalEqual, Number.equal_iff, Twin]
    | _ => simp [literalEqual, Twin, equal, same, numberSame, asNumber?]
  | bool b =>
    rw [Twin.of_ne (by simp)]
    cases v with
    | bool c => simpa [domain, literalEqual] using eq_comm
    | _ => simp [literalEqual]
  | null =>
    rw [Twin.of_ne (by simp)]
    cases v <;> simp [domain, literalEqual, equal, same, isNaN]
  | undefined =>
    rw [Twin.of_ne (by simp)]
    cases v <;> simp [domain, literalEqual, equal, same, isNaN]
  | string s =>
    rw [Twin.of_ne (by simp)]
    cases v with
    | string t => simpa [domain, literalEqual, equal, same, isNaN, typeName] using eq_comm
    | _ => simp [literalEqual, equal, same]
  | symbol s =>
    rw [Twin.of_ne (by simp)]
    cases v with
    | symbol t => simpa [domain, literalEqual, equal, same, isNaN, typeName] using eq_comm
    | _ => simp [literalEqual, equal, same]
  | bytes bs =>
    rw [Twin.of_ne (by simp)]
    cases v with
    | bytes cs => simpa [domain, literalEqual, equal, same, isNaN, typeName] using eq_comm
    | _ => simp [literalEqual, equal, same]
  | foreign a =>
    rw [Twin.of_ne (by simp)]
    cases v with
    | foreign b =>
      simp only [domain, literalEqual, equal, same, isNaN, typeName, Bool.not_false, Bool.true_and,
        Bool.and_self, true_and, beq_iff_eq, foreign.injEq]
      exact eq_comm
    | _ => simp [literalEqual, equal, same]
  | callable c =>
    rw [Twin.of_ne (by simp)]
    cases v with
    | callable d =>
      simp only [domain, literalEqual, equal, same, isNaN, typeName, Bool.not_false, Bool.true_and,
        true_and, Bool.and_eq_true, beq_iff_eq, callable.injEq]
      exact ⟨fun h => h.2.symm, fun h => ⟨by rw [h], h.symm⟩⟩
    | _ => simp [literalEqual, equal, same]
  | choice of a =>
    rw [Twin.of_ne (by simp)]
    cases v with
    | choice other b =>
      simp only [domain, literalEqual, equal, same, isNaN, typeName, Bool.not_false, Bool.true_and,
        true_and, Bool.and_eq_true, beq_iff_eq, choice.injEq]
      exact ⟨fun h => ⟨h.1.symm, h.2.2.symm⟩, fun h => ⟨h.1.symm, h.1.symm, h.2.symm⟩⟩
    | _ => simp [literalEqual, equal, same]
  | list _ => simp [isScalar] at hw
  | tuple _ _ => simp [isScalar] at hw
  | mapping _ => simp [isScalar] at hw
  | record _ _ _ => simp [isScalar] at hw
  | knot _ _ => simp [isScalar] at hw
  | back _ _ => simp [isScalar] at hw

/-- Sameness of a number and another number: one point, or one and the same value. -/
theorem same_number_iff {n m : Number} :
    (Value.number n).same (.number m) = true ↔ (Value.number n).Twin (.number m) ∨ n = m := by
  simp only [same, numberSame, asNumber?, Number.same_iff, Twin, number.injEq, ne_eq]
  constructor
  · rintro (⟨p, h₁, h₂⟩ | ⟨-, rfl⟩)
    · exact Or.inl (Or.inl ⟨n, m, p, rfl, rfl, h₁, h₂⟩)
    · exact Or.inr rfl
  · rintro ((⟨_, _, p, rfl, rfl, h₁, h₂⟩ | ⟨h, -⟩) | rfl)
    · exact Or.inl ⟨p, h₁, h₂⟩
    · exact absurd rfl (h n)
    · cases hp : n.point? with
      | none => exact Or.inr ⟨rfl, rfl⟩
      | some p => exact Or.inl ⟨p, rfl, rfl⟩

/-- Sameness of two scalars of one domain: one value, or two numbers at one point. -/
theorem same_scalar_iff {v w : Value} (hv : v.isScalar = true) (hd : v.domain = w.domain) :
    v.same w = true ↔ v.Twin w ∨ v = w := by
  cases v with
  | number n =>
    cases w with
    | number m => rw [same_number_iff, number.injEq]
    | bool b => simp [domain] at hd
    | _ => simp [same, numberSame, asNumber?, Twin]
  | bool b =>
    rw [Twin.or_eq_of_ne (by simp)]
    cases w with
    | bool c => cases b <;> cases c <;> simp [same, numberSame, asNumber?, Number.same, Number.equal,
        Number.isNaN]
    | number n => simp [domain] at hd
    | _ => simp [same, numberSame, asNumber?]
  | null =>
    rw [Twin.or_eq_of_ne (by simp)]
    cases w <;> simp [same]
  | undefined =>
    rw [Twin.or_eq_of_ne (by simp)]
    cases w <;> simp [same]
  | string s =>
    rw [Twin.or_eq_of_ne (by simp)]
    cases w <;> simp [same]
  | symbol s =>
    rw [Twin.or_eq_of_ne (by simp)]
    cases w <;> simp [same]
  | bytes bs =>
    rw [Twin.or_eq_of_ne (by simp)]
    cases w <;> simp [same]
  | foreign name =>
    rw [Twin.or_eq_of_ne (by simp)]
    cases w <;> simp [same]
  | callable c =>
    rw [Twin.or_eq_of_ne (by simp)]
    cases w <;> simp [same]
  | choice of name =>
    rw [Twin.or_eq_of_ne (by simp)]
    cases w <;> simp [same]
  | list _ => simp [isScalar] at hv
  | tuple _ _ => simp [isScalar] at hv
  | mapping _ => simp [isScalar] at hv
  | record _ _ _ => simp [isScalar] at hv
  | knot _ _ => simp [isScalar] at hv
  | back _ _ => simp [isScalar] at hv

/-- Equal scalars that are no truth values lie in one domain. -/
theorem domain_of_same {v w : Value} (hv : v.isScalar = true) (hvb : v.domain ≠ .boolean) (hwb : w.domain ≠ .boolean)
    (h : v.same w = true) : v.domain = w.domain := by
  cases v <;> first | exact absurd hv Bool.false_ne_true | exact absurd rfl hvb | skip
  all_goals cases w <;> first | rfl | exact absurd rfl hwb | exact absurd h Bool.false_ne_true

end Schemata.Value
