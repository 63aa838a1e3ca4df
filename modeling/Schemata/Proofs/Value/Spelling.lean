import Schemata.Proofs.Runs
import Schemata.Proofs.Schema.Sameness
import Schemata.Proofs.Value.Nesting

/-! Spellings of numbers. One point of the line may be written as an integer or as a double, and in a bound as
a truth value too. Neither equality nor order tells two spellings apart. -/
namespace Schemata.Value

/-- Two spellings of one number. -/
def Renumbers (v w : Value) : Prop :=
  ∃ n m p, v = .number n ∧ w = .number m ∧ n.point? = some p ∧ m.point? = some p

/-- One well-formed value, or two spellings of one number. -/
def Respells (v w : Value) : Prop := v = w ∧ v.Tied ∨ v.Renumbers w

/-- One well-formed value, or two that count as one number. -/
def Weighs (v w : Value) : Prop := v = w ∧ v.Tied ∨ ∃ p, v.point? = some p ∧ w.point? = some p

variable {u v w v' w' : Value} {p : Point}

namespace Respells

theorem symm (h : v.Respells w) : w.Respells v := by
  rcases h with ⟨rfl, hv⟩ | ⟨n, m, p, rfl, rfl, hn, hm⟩
  · exact Or.inl ⟨rfl, hv⟩
  · exact Or.inr ⟨m, n, p, rfl, rfl, hm, hn⟩

theorem trans (h : u.Respells v) (k : v.Respells w) : u.Respells w := by
  rcases h with ⟨rfl, -⟩ | ⟨n, m, p, rfl, rfl, hn, hm⟩
  · exact k
  · rcases k with ⟨rfl, -⟩ | ⟨m', l, q, hm', rfl, hq, hl⟩
    · exact Or.inr ⟨n, m, p, rfl, rfl, hn, hm⟩
    · obtain rfl := number.inj hm'
      obtain rfl := Option.some.inj (hm.symm.trans hq)
      exact Or.inr ⟨n, l, p, rfl, rfl, hn, hl⟩

theorem weighs (h : v.Respells w) : v.Weighs w := by
  rcases h with h | ⟨n, m, p, rfl, rfl, hn, hm⟩
  · exact Or.inl h
  · exact Or.inr ⟨p, hn, hm⟩

theorem domain (h : v.Respells w) : v.domain = w.domain := by
  rcases h with ⟨rfl, -⟩ | ⟨n, m, p, rfl, rfl, -⟩ <;> rfl

theorem holds (h : v.Respells w) (k : Keyword) : k.holds v = k.holds w := by
  rcases h with ⟨rfl, -⟩ | h
  · rfl
  · exact Bool.eq_iff_iff.mpr (Twin.holds (Or.inl h) k)

end Respells

theorem tied_of_point (h : v.point? = some p) : v.Tied := by
  obtain ⟨n, hn, -⟩ := asNumber?_of_point h
  cases v <;> trivial

/-- What is the same as a number counts as that number. -/
theorem same_of_point (hv : v.point? = some p) : v.same w = true ↔ w.point? = some p := by
  cases hw : w.point? with
  | some q =>
    rw [same_of_points hv hw, Option.some.injEq]
    exact eq_comm
  | none =>
    obtain ⟨n, hn, hp⟩ := asNumber?_of_point hv
    have hs : v.same w = numberSame n w := by
      cases v <;> simp_all [asNumber?, same]
    rw [hs]
    unfold numberSame
    unfold point? at hw
    cases hm : w.asNumber? with
    | none => simp
    | some m =>
      have hpoint : m.point? = none := by simpa [hm] using hw
      simp [Number.same_iff, hp, hpoint]

theorem same_of_point_right (hv : v.Tied) (hw : w.point? = some p) : v.same w = true ↔ v.point? = some p := by
  cases hp : v.point? with
  | some q =>
    rw [same_of_point hp, hw, Option.some.injEq, Option.some.injEq]
    exact eq_comm
  | none =>
    obtain ⟨m, hm, hpoint⟩ := asNumber?_of_point hw
    have hunfold : w.unfold = w := by cases w <;> first | rfl | simp [asNumber?] at hm
    have hlabel : w.label? = none := by cases w <;> first | rfl | simp [asNumber?] at hm
    have number : ∀ n, v.asNumber? = some n → numberSame n w = false := by
      intro n hn
      have hnone : n.point? = none := by simpa [point?, hn] using hp
      rw [← Bool.not_eq_true, numberSame, hm, Number.same_iff]
      rintro (⟨q, hq, -⟩ | ⟨-, rfl⟩)
      · simp [hq] at hnone
      · simp [hnone] at hpoint
    have hno : v.same w = false := by
      cases v with
      | bool b => exact number _ rfl
      | number n => exact number _ rfl
      | knot l body =>
        cases body <;> first
          | exact hv.elim
          | cases w <;> simp_all [same, asNumber?]
      | _ => cases w <;> simp_all [same, asNumber?]
    simp [hno]

/-- Equality inside containers does not look at spellings. -/
theorem same_weighs (hv : v.Weighs v') (hw : w.Weighs w') : v.same w = v'.same w' := by
  rw [Bool.eq_iff_iff]
  rcases hv with ⟨rfl, hv⟩ | ⟨p, hp, hp'⟩
  · rcases hw with ⟨rfl, -⟩ | ⟨q, hq, hq'⟩
    · rfl
    · rw [same_of_point_right hv hq, same_of_point_right hv hq']
  · rw [same_of_point hp, same_of_point hp']
    rcases hw with ⟨rfl, -⟩ | ⟨q, hq, hq'⟩
    · rfl
    · rw [hq, hq']

theorem isNaN_of_point (h : v.point? = some p) : v.isNaN = false := by
  cases v with
  | number n =>
    rw [← Bool.not_eq_true, isNaN, Number.isNaN_iff, show n.point? = some p from h]
    exact Option.some_ne_none p
  | _ => rfl

theorem equal_weighs (hv : v.Weighs v') (hw : w.Weighs w') : v.equal w = v'.equal w' := by
  unfold equal
  rw [same_weighs hv hw]
  rcases hv with ⟨rfl, -⟩ | ⟨p, hp, hp'⟩
  · rfl
  · rw [isNaN_of_point hp, isNaN_of_point hp']

/-- A value that counts as no number has no order to a number. -/
theorem holds_of_no_number_left {c : Comparison} (hv : v.Tied) (hno : v.asNumber? = none) {m : Number}
    (hw : w.asNumber? = some m) : ∃ e, holds c v w = .error e := by
  cases w <;> simp only [asNumber?, reduceCtorEq] at hw <;>
    cases v <;> simp only [asNumber?, reduceCtorEq] at hno <;> try exact ⟨_, rfl⟩
  all_goals
    rename_i body
    cases body <;> first | exact hv.elim | exact ⟨_, rfl⟩

theorem holds_of_no_number_right {c : Comparison} {n : Number} (hv : v.asNumber? = some n)
    (hw : w.asNumber? = none) : ∃ e, holds c v w = .error e := by
  cases v <;> simp only [asNumber?, reduceCtorEq] at hv <;>
    cases w <;> simp only [asNumber?, reduceCtorEq] at hw <;> exact ⟨_, rfl⟩

theorem numbersHold_of_points {c : Comparison} {n n' m m' : Number} (hn : n.point? = n'.point?)
    (hm : m.point? = m'.point?) : numbersHold c n m = numbersHold c n' m' := by
  cases hp : n'.point? with
  | none => rw [numbersHold_of_nan (Or.inl (hn.trans hp)), numbersHold_of_nan (Or.inl hp)]
  | some p =>
    cases hq : m'.point? with
    | none => rw [numbersHold_of_nan (Or.inr (hm.trans hq)), numbersHold_of_nan (Or.inr hq)]
    | some q =>
      rw [numbersHold, numbersHold, Number.order?_of_points (hn.trans hp) (hm.trans hq), Number.order?_of_points hp hq]

theorem Weighs.symm (h : v.Weighs w) : w.Weighs v := by
  rcases h with ⟨rfl, hv⟩ | ⟨p, hp, hq⟩
  · exact Or.inl ⟨rfl, hv⟩
  · exact Or.inr ⟨p, hq, hp⟩

theorem Weighs.trans (h : u.Weighs v) (k : v.Weighs w) : u.Weighs w := by
  rcases h with ⟨rfl, -⟩ | ⟨p, hp, hq⟩
  · exact k
  · rcases k with ⟨rfl, -⟩ | ⟨q, hp', hq'⟩
    · exact Or.inr ⟨p, hp, hq⟩
    · obtain rfl := Option.some.inj (hq.symm.trans hp')
      exact Or.inr ⟨p, hp, hq'⟩

theorem Weighs.tied (h : v.Weighs w) : v.Tied := by
  rcases h with ⟨-, hv⟩ | ⟨p, hp, -⟩
  · exact hv
  · exact tied_of_point hp

theorem Weighs.numbers (h : v.Weighs w) :
    Option.Rel (fun n m => n.point? = m.point?) v.asNumber? w.asNumber? := by
  rcases h with ⟨rfl, -⟩ | ⟨p, hp, hq⟩
  · cases v.asNumber? with
    | none => exact .none
    | some n => exact .some rfl
  · obtain ⟨n, hn, hp⟩ := asNumber?_of_point hp
    obtain ⟨m, hm, hq⟩ := asNumber?_of_point hq
    rw [hn, hm]
    exact .some (hp.trans hq.symm)

/-- The order of values does not look at spellings. -/
theorem holds_weighs (c : Comparison) (hv : v.Weighs v') (hw : w.Weighs w') :
    Agree (fun _ _ => True) (· = ·) (holds c v w) (holds c v' w') := by
  have failed : ∀ {x y : Except Incomparable Bool}, (∃ e, x = .error e) → (∃ e, y = .error e) →
      Agree (fun _ _ => True) (· = ·) x y := by
    rintro _ _ ⟨e, rfl⟩ ⟨f, rfl⟩
    trivial
  have hvn := hv.numbers
  have hwn := hw.numbers
  cases hn : v.asNumber? <;> cases hn' : v'.asNumber? <;> rw [hn, hn'] at hvn <;> cases hvn <;>
    cases hm : w.asNumber? <;> cases hm' : w'.asNumber? <;> rw [hm, hm'] at hwn <;> cases hwn
  · -- Neither side has a number, so nothing was spelled in two ways.
    have one : ∀ {v w : Value}, v.Weighs w → v.asNumber? = none → v = w := by
      rintro v w (⟨rfl, -⟩ | ⟨p, hp, -⟩) hno
      · rfl
      · simp [point?, hno] at hp
    rw [one hv hn, one hw hm]
    exact .refl (fun _ _ => trivial) fun _ => rfl
  · exact failed (holds_of_no_number_left hv.tied hn hm) (holds_of_no_number_left hv.symm.tied hn' hm')
  · exact failed (holds_of_no_number_right hn hm) (holds_of_no_number_right hn' hm')
  · rename_i hnn _ _ hmm
    rw [holds_of_numbers hn hm, holds_of_numbers hn' hm']
    exact numbersHold_of_points hnn hmm

theorem Weighs.changeable? (h : v.Weighs w) : v.changeable? = w.changeable? := by
  have none : ∀ {v : Value} {p : Point}, v.point? = some p → v.changeable? = .none := by
    intro v p hp
    obtain ⟨n, hn, -⟩ := asNumber?_of_point hp
    cases v <;> first | rfl | exact absurd hn nofun
  rcases h with ⟨rfl, -⟩ | ⟨p, hp, hq⟩
  · rfl
  · rw [none hp, none hq]

/-- Only a number equals a number. -/
theorem literalEqual_number (hv : v.Tied) (n : Number) :
    v.literalEqual (.number n) = true ↔ ∃ k : Number, v = .number k ∧ k.equal n = true := by
  cases v with
  | knot l body => cases body <;> simp [Tied, literalEqual, equal, same, label?, unfold] at hv ⊢
  | _ => simp [literalEqual, equal, same, unfold, label?]

theorem number_literalEqual (n : Number) :
    (number n).literalEqual v = true ↔ ∃ k : Number, v = .number k ∧ n.equal k = true := by
  cases v <;> simp [literalEqual, equal, same, numberSame, asNumber?]

/-- Equality of literals does not look at spellings. -/
theorem Respells.literalEqual (hv : v.Respells v') (hw : w = w' ∨ w.Renumbers w') :
    v.literalEqual w = v'.literalEqual w' := by
  rw [Bool.eq_iff_iff]
  rcases hv with ⟨rfl, hv⟩ | ⟨n, n', p, rfl, rfl, hn, hn'⟩
  · rcases hw with rfl | ⟨m, m', q, rfl, rfl, hm, hm'⟩
    · rfl
    · simp only [literalEqual_number hv, Number.equal_iff, hm, hm']
  · rw [number_literalEqual, number_literalEqual]
    rcases hw with rfl | ⟨m, m', q, rfl, rfl, hm, hm'⟩
    · simp only [Number.equal_iff, hn, hn']
    · simp only [number.injEq, exists_eq_left', Number.equal_iff, hn, hn', hm, hm']

/-- Equal scalars weigh the same. -/
theorem weighs_of_same (hv : v.isScalar = true) (h : v.same w = true) : v.Weighs w := by
  have number : ∀ n : Number, numberSame n w = true → v.asNumber? = some n → (n.isNaN = true → v = .number n) →
      v.Weighs w := by
    intro n hsame hn hnan
    unfold numberSame at hsame
    cases hm : w.asNumber? with
    | none => simp [hm] at hsame
    | some m =>
      rw [hm] at hsame
      rcases Number.same_iff.mp hsame with ⟨p, hp, hq⟩ | ⟨hp, rfl⟩
      · exact Or.inr ⟨p, by simp [point?, hn, hp], by simp [point?, hm, hq]⟩
      · have hw : w = .number n := by
          cases w <;> simp only [asNumber?, Option.some.injEq, reduceCtorEq] at hm
          · subst hm
            exact absurd hp (Option.some_ne_none _)
          · rw [hm]
        rw [hw, hnan (Number.isNaN_iff.mpr hp)]
        exact Or.inl ⟨rfl, trivial⟩
  cases v with
  | bool b => exact number _ h rfl fun hnan => absurd hnan Bool.false_ne_true
  | number n => exact number n h rfl fun _ => rfl
  | list _ => exact absurd hv Bool.false_ne_true
  | tuple _ _ => exact absurd hv Bool.false_ne_true
  | mapping _ => exact absurd hv Bool.false_ne_true
  | record _ _ _ => exact absurd hv Bool.false_ne_true
  | knot _ _ => exact absurd hv Bool.false_ne_true
  | back _ _ => exact absurd hv Bool.false_ne_true
  | _ =>
    refine Or.inl ⟨?_, trivial⟩
    cases w <;> first | rfl | exact absurd h Bool.false_ne_true | simpa [same] using h

end Schemata.Value
