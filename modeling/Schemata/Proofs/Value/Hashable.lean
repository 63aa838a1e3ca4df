import Schemata.Proofs.Schema.Hashing
import Schemata.Proofs.Value.Scalar

/-! Values that can be keys: nothing inside them may change. On these the equality that is used inside containers is
an equivalence. -/
namespace Schemata

theorem Number.same_euclidean {k a b : Number} (ha : k.same a = true) (hb : k.same b = true) : a.same b = true := by
  rw [same_iff] at ha hb ⊢
  rcases ha with ⟨p, hk, ha⟩ | ⟨hk, rfl⟩
  · rcases hb with ⟨q, hk', hb⟩ | ⟨hk', -⟩
    · exact Or.inl ⟨p, ha, by rw [hb, ← hk', hk]⟩
    · rw [hk'] at hk
      exact absurd hk nofun
  · exact hb

namespace Value

mutual
/-- Whether the value can be part of a key: no container inside it may change, and none contains itself. A record with
a token is known by that token alone. -/
def isHashable : Value → Bool
  | .list _ => false
  | .mapping _ => false
  | .knot _ _ => false
  | .back _ _ => false
  | .tuple _ items => areHashable items
  | .record _ none parts => areHashable parts
  | _ => true
termination_by structural v => v
def areHashable : List Value → Bool
  | [] => true
  | v :: rest => isHashable v && areHashable rest
termination_by structural vs => vs
end

variable {k a b c : Value}

theorem areHashable_iff {vs : List Value} : areHashable vs = true ↔ ∀ v ∈ vs, v.isHashable = true := by
  induction vs with
  | nil => simp [areHashable]
  | cons v vs ih => simp [areHashable, ih]

theorem label?_of_hashable (h : a.isHashable = true) : a.label? = none := by
  cases a <;> first | rfl | exact absurd h Bool.false_ne_true

theorem unfold_of_hashable (h : a.isHashable = true) : a.unfold = a := unfold_of_label (label?_of_hashable h)

theorem changeable?_of_hashable (h : a.isHashable = true) : a.changeable? = none := by
  induction a using induction_on_parts with
  | _ a ih =>
    have parts : areHashable a.parts = true → anyChangeable? a.parts = none := fun h =>
      anyChangeable?_eq_none.mpr fun v hv => ih v hv (areHashable_iff.mp h v hv)
    cases a with
    | list _ => exact absurd h Bool.false_ne_true
    | mapping _ => exact absurd h Bool.false_ne_true
    | knot _ _ => exact absurd h Bool.false_ne_true
    | back _ _ => exact absurd h Bool.false_ne_true
    | tuple l xs => exact parts h
    | record kind token xs =>
      cases token with
      | none => exact parts h
      | some t => rfl
    | _ => rfl

theorem asNumber?_of_numberSame {n : Number} (h : numberSame n a = true) :
    ∃ m, a.asNumber? = some m ∧ n.same m = true := by
  unfold numberSame at h
  split at h
  · exact ⟨_, ‹_›, h⟩
  · exact absurd h Bool.false_ne_true

theorem numberSame_euclidean {n : Number} (ha : numberSame n a = true) (hb : numberSame n b = true) :
    a.same b = true := by
  obtain ⟨m, hm, hnm⟩ := asNumber?_of_numberSame ha
  obtain ⟨m', hm', hnm'⟩ := asNumber?_of_numberSame hb
  have hsame : numberSame m b = true := by
    unfold numberSame
    rw [hm']
    exact Number.same_euclidean hnm hnm'
  cases a with
  | bool x =>
    obtain rfl := Option.some.inj hm
    exact hsame
  | number x =>
    obtain rfl := Option.some.inj hm
    exact hsame
  | _ => exact absurd hm nofun

/-- Two values equal each other when one and the same scalar equals both. -/
theorem same_euclidean_of_scalar (hk : k.isScalar = true) (ha : k.same a = true) (hb : k.same b = true) :
    a.same b = true := by
  cases k with
  | bool x => exact numberSame_euclidean ha hb
  | number n => exact numberSame_euclidean ha hb
  | list _ => exact absurd hk Bool.false_ne_true
  | tuple _ _ => exact absurd hk Bool.false_ne_true
  | mapping _ => exact absurd hk Bool.false_ne_true
  | record _ _ _ => exact absurd hk Bool.false_ne_true
  | knot _ _ => exact absurd hk Bool.false_ne_true
  | back _ _ => exact absurd hk Bool.false_ne_true
  | _ =>
    cases a <;> simp only [same, Bool.false_eq_true, beq_iff_eq, Bool.and_eq_true] at ha
    cases b <;> simp only [same, Bool.false_eq_true, beq_iff_eq, Bool.and_eq_true] at hb
    simp_all [same]

theorem sameAll_euclidean {xs ys zs : List Value} (h : ∀ x ∈ xs, ∀ y ∈ ys, ∀ z ∈ zs, x.same y = true → x.same z = true →
    y.same z = true) (hy : sameAll xs ys = true) (hz : sameAll xs zs = true) : sameAll ys zs = true := by
  induction xs generalizing ys zs with
  | nil => cases ys <;> cases zs <;> simp_all [sameAll]
  | cons x xs ih =>
    cases ys with
    | nil => simp [sameAll] at hy
    | cons y ys =>
      cases zs with
      | nil => simp [sameAll] at hz
      | cons z zs =>
        simp only [sameAll, Bool.and_eq_true] at hy hz ⊢
        refine ⟨h x (by simp) y (by simp) z (by simp) hy.1 hz.1, ih ?_ hy.2 hz.2⟩
        exact fun x hx y hy z hz => h x (by simp [hx]) y (by simp [hy]) z (by simp [hz])

/-- Only a record equals a record, and both have a token or none. -/
theorem record_of_same {kind : RecordKind} {token : Option Token} {xs : List Value}
    (h : (record kind token xs).same a = true) :
    ∃ other u ys, a = .record other u ys ∧ u.isSome = token.isSome := by
  cases a with
  | record other u ys =>
    refine ⟨other, u, ys, rfl, ?_⟩
    cases token <;> cases u <;> first | rfl | simp [same] at h
  | _ => cases token <;> simp [same] at h

/-- Two values that equal a record are records. Without tokens they equal each other if their parts do. -/
theorem records_of_same {kind : RecordKind} {token : Option Token} {xs : List Value}
    (h : (record kind token xs).same a = true) (h' : (record kind token xs).same b = true) :
    ∃ other u ys other' u' zs, a = .record other u ys ∧ b = .record other' u' zs ∧
      ((u = none → u' = none → sameAll xs ys = true → sameAll xs zs = true → sameAll ys zs = true) →
        a.same b = true) := by
  obtain ⟨other, u, ys, rfl, hu⟩ := record_of_same h
  obtain ⟨other', u', zs, rfl, hu'⟩ := record_of_same h'
  refine ⟨other, u, ys, other', u', zs, rfl, rfl, fun hall => ?_⟩
  cases token with
  | none =>
    obtain ⟨rfl, rfl⟩ : u = none ∧ u' = none := by simpa using And.intro hu hu'
    simp only [same, Bool.and_eq_true, beq_iff_eq] at h h' ⊢
    exact ⟨h.1.symm.trans h'.1, hall rfl rfl h.2 h'.2⟩
  | some t =>
    obtain ⟨t, rfl⟩ := Option.isSome_iff_exists.mp hu
    obtain ⟨t', rfl⟩ := Option.isSome_iff_exists.mp hu'
    simp only [same, beq_iff_eq] at h h' ⊢
    exact h.symm.trans h'

/-- Two values that can be keys equal each other when one and the same value equals both. -/
theorem same_euclidean (ha : a.isHashable = true) (hb : b.isHashable = true) (h : k.same a = true)
    (h' : k.same b = true) : a.same b = true := by
  induction k using induction_on_parts generalizing a b with
  | _ k ih =>
    have all : ∀ {ys zs : List Value}, areHashable ys = true → areHashable zs = true → sameAll k.parts ys = true →
        sameAll k.parts zs = true → sameAll ys zs = true := fun hy hz => sameAll_euclidean fun x hx y hmem z hmem' =>
      ih x hx (areHashable_iff.mp hy y hmem) (areHashable_iff.mp hz z hmem')
    cases k with
    | list xs =>
      rw [same, unfold_of_hashable ha] at h
      cases a <;> simp [isHashable] at ha h
    | mapping xs =>
      rw [same, unfold_of_hashable ha] at h
      cases a <;> simp [isHashable] at ha h
    | tuple l xs =>
      rw [same, unfold_of_hashable ha] at h
      rw [same, unfold_of_hashable hb] at h'
      cases a <;> simp only [Bool.false_eq_true] at h
      cases b <;> simp only [Bool.false_eq_true] at h'
      exact all ha hb h h'
    | record kind token xs =>
      obtain ⟨_, _, _, _, _, _, rfl, rfl, hsame⟩ := records_of_same h h'
      refine hsame fun hu hu' => ?_
      subst hu hu'
      exact all ha hb
    | knot l body =>
      rw [same, label?_of_hashable ha] at h
      rw [same, label?_of_hashable hb] at h'
      exact ih body (List.mem_singleton.mpr rfl) ha hb (by simpa using h) (by simpa using h')
    | back l c =>
      rw [same, label?_of_hashable ha] at h
      simp at h
    | _ => exact same_euclidean_of_scalar rfl h h'

theorem same_self_of_hashable (h : a.isHashable = true) : a.same a = true := same_self (changeable?_of_hashable h)

theorem same_symm_of_hashable (ha : a.isHashable = true) (hb : b.isHashable = true) (h : a.same b = true) :
    b.same a = true := same_euclidean hb ha h (same_self_of_hashable ha)

theorem same_trans_of_hashable (ha : a.isHashable = true) (hb : b.isHashable = true) (hc : c.isHashable = true)
    (h : a.same b = true) (h' : b.same c = true) : a.same c = true :=
  same_euclidean ha hc (same_symm_of_hashable ha hb h) h'

end Value
end Schemata
