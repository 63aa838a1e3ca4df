import Schemata.Proofs.Constraint.Gathering
import Schemata.Proofs.Validation.Acceptance

/-! Constraints that one value passes gather without conflict, whatever their bounds are: a bound that a number
was compared with is a number itself, and one that is NaN cuts nothing off. -/
namespace Schemata

namespace Range

/-- The side can be compared with numbers, and the point does not lie beyond it. -/
def Side.Lets (c : Comparison) (s : Side) (x : Point) : Prop :=
  (∀ b ∈ s.1, b.asNumber?.isSome = true) ∧ s.Allows c x

/-- Both sides of the range let the point be. -/
def Lets (r : Range) (x : Point) : Prop := Side.Lets .greater r.low x ∧ Side.Lets .less r.high x

section Sides

variable {c : Comparison} {n : Number} {x : Point} {a b : Side}

theorem Side.allows_of_nan {v : Value} {o : Bool} (h : v.point? = none) : Side.Allows c (some v, o) x := by
  simp [Side.Allows, Side.cut, h]

/-- A number that is not refused on one side lies within it. -/
theorem lets_of_beyond? (hc : c = .greater ∨ c = .less) (hx : n.point? = some x) {verdict : Value → Verdict}
    (h : beyond? (refusal c a.2) a.1 n verdict = .ok none) : a.Lets c x := by
  obtain ⟨v, o⟩ := a
  cases v with
  | none => exact ⟨nofun, by simp [Side.Allows, Side.cut_none]⟩
  | some v =>
    obtain ⟨r, hr, h⟩ := bind_ok h
    obtain ⟨m, hm, rfl⟩ := Value.asNumber?_of_holds hr
    have hno : Value.numbersHold (refusal c o) n m = false := by
      cases hheld : Value.numbersHold (refusal c o) n m with
      | false => rfl
      | true =>
        rw [hheld] at h
        simp [pure, Except.pure] at h
    refine ⟨?_, ?_⟩
    · rintro _ ⟨⟩
      simp [hm]
    · cases hp : m.point? with
      | none => exact Side.allows_of_nan (by simp [Value.point?, hm, hp])
      | some p => exact (refusal_holds hc rfl hm hp hx).mp hno

/-- The tighter of two sides lets a point be that both let be. -/
theorem tighter_lets (hc : c = .greater ∨ c = .less) (ha : a.Lets c x) (hb : b.Lets c x) :
    ∃ t : Side, tighter c a b = .ok t ∧ t.Lets c x := by
  obtain ⟨v, o⟩ := a
  obtain ⟨w, u⟩ := b
  match v, w with
  | none, w => exact ⟨(w, u), by simp [tighter], hb⟩
  | some v, none => exact ⟨(some v, o), by simp [tighter], ha⟩
  | some v, some w =>
    obtain ⟨n, hn⟩ := Option.isSome_iff_exists.mp (ha.1 v rfl)
    obtain ⟨m, hm⟩ := Option.isSome_iff_exists.mp (hb.1 w rfl)
    have number : ∀ k : Bool, ∀ b ∈ (some v, k).1, b.asNumber?.isSome = true := by
      rintro k _ ⟨⟩
      simp [hn]
    by_cases hnan : n.point? = none ∨ m.point? = none
    · -- A NaN is neither equal to the other bound nor beyond it, so the first bound stays.
      have hheld : Value.holds c w v = .ok false := by
        rw [Value.holds_of_numbers hm hn, Value.numbersHold_of_nan hnan.symm]
      refine ⟨(some v, if v.equal v then o else u), ?_, number _, ?_⟩
      · simp [tighter, Value.not_equal_of_nan hn hm hnan, hheld, bind, Except.bind, pure, Except.pure]
      · cases hp : n.point? with
        | none => exact Side.allows_of_nan (by simp [Value.point?, hn, hp])
        | some p =>
          have hv : v.point? = some p := by simp [Value.point?, hn, hp]
          rw [(Value.equal_of_points hv hv).mpr rfl]
          exact ha.2
    · simp only [not_or, ← ne_eq, Option.ne_none_iff_exists'] at hnan
      obtain ⟨⟨p, hp⟩, q, hq⟩ := hnan
      have hv : v.point? = some p := by simp [Value.point?, hn, hp]
      have hw : w.point? = some q := by simp [Value.point?, hm, hq]
      obtain ⟨t, ht, hnumeric, hcut, -⟩ := tighter_spec (a := (some v, o)) (b := (some w, u)) hc
        (Side.numeric_some hv) (Side.numeric_some hw)
      refine ⟨t, ht, fun b hb => ?_, ?_⟩
      · obtain ⟨r, hr⟩ := hnumeric b hb
        obtain ⟨k, hk, -⟩ := Value.asNumber?_of_point hr
        simp [hk]
      · rw [Side.Allows, hcut, Cut.allows_join]
        exact ⟨ha.2, hb.2⟩

end Sides

variable {r s : Range} {x : Point}

/-- A range that lets a point be is not empty. -/
theorem isEmpty_of_lets (h : r.Lets x) : r.isEmpty = .ok false := by
  obtain ⟨least, greatest, above, below⟩ := r
  obtain ⟨⟨hl, hlow⟩, hg, hhigh⟩ := h
  match least, greatest with
  | none, _ => rfl
  | some a, none => rfl
  | some a, some b =>
    obtain ⟨n, hn⟩ := Option.isSome_iff_exists.mp (hl a rfl)
    obtain ⟨m, hm⟩ := Option.isSome_iff_exists.mp (hg b rfl)
    by_cases hnan : n.point? = none ∨ m.point? = none
    · have hheld : Value.holds .greater a b = .ok false := by
        rw [Value.holds_of_numbers hn hm, Value.numbersHold_of_nan hnan]
      simp [isEmpty, hheld, Value.not_equal_of_nan hn hm hnan, bind, Except.bind, pure, Except.pure]
    · simp only [not_or, ← ne_eq, Option.ne_none_iff_exists'] at hnan
      obtain ⟨⟨p, hp⟩, q, hq⟩ := hnan
      have ha : a.point? = some p := by simp [Value.point?, hn, hp]
      have hb : b.point? = some q := by simp [Value.point?, hm, hq]
      have hnumeric : Numeric ⟨some a, some b, above, below⟩ := ⟨Side.numeric_some ha, Side.numeric_some hb⟩
      obtain ⟨e, he, hvoid⟩ := isEmpty_spec hnumeric
      cases e with
      | false => exact he
      | true => exact absurd ⟨hlow, hhigh⟩ (not_contains_of_void (hvoid.mp rfl))

theorem narrow_of_lets (hr : r.Lets x) (hs : s.Lets x) : ∃ t : Range, r.narrow s = .ok (some t) ∧ t.Lets x := by
  obtain ⟨a, ha, hax⟩ := tighter_lets (Or.inl rfl) hr.1 hs.1
  obtain ⟨b, hb, hbx⟩ := tighter_lets (Or.inr rfl) hr.2 hs.2
  have hlets : Lets ⟨a.1, b.1, a.2, b.2⟩ x := ⟨hax, hbx⟩
  refine ⟨⟨a.1, b.1, a.2, b.2⟩, ?_, hlets⟩
  unfold low at ha
  unfold high at hb
  simp [narrow, ha, hb, isEmpty_of_lets hlets, bind, Except.bind, pure, Except.pure]

/-- A number that passes a range lies within it. -/
theorem lets_of_check {n : Number} (hx : n.point? = some x) {d : Verdict} (h : r.check (.number n) = .ok d)
    (hd : d.isValid = true) : r.Lets x := by
  obtain ⟨low, hlow, hl⟩ := r.low?_eq n
  obtain ⟨high, hhigh, hh⟩ := r.high?_eq n
  have refused : ∀ {c : Comparison} {a : Side} {verdict : Value → Verdict} {d : Verdict},
      (∀ b, (verdict b).isValid = false) → beyond? (refusal c a.2) a.1 n verdict = .ok (some d) →
      d.isValid = false := by
    intro c a verdict d hno h
    unfold beyond? at h
    cases hv : a.1 with
    | none => simp [hv] at h
    | some b =>
      rw [hv] at h
      obtain ⟨t, -, h⟩ := bind_ok h
      cases t with
      | false => simp [pure, Except.pure] at h
      | true =>
        obtain rfl := Option.some.inj (Except.ok.inj h)
        exact hno b
  unfold check at h
  obtain ⟨o, ho, h⟩ := bind_ok h
  rw [hl] at ho
  cases o with
  | some refusal =>
    obtain rfl := Except.ok.inj h
    simp [refused hlow ho] at hd
  | none =>
    obtain ⟨o, ho', h⟩ := bind_ok h
    rw [hh] at ho'
    cases o with
    | some refusal =>
      obtain rfl := Except.ok.inj h
      simp [refused hhigh ho'] at hd
    | none => exact ⟨lets_of_beyond? (Or.inl rfl) hx ho, lets_of_beyond? (Or.inr rfl) hx ho'⟩

end Range

namespace Constraint

/-- A bound holds the value, and other constraints hold anything. -/
def Bears (v : Value) : Constraint → Prop
  | .range r => ∃ n x, v = .number n ∧ n.point? = some x ∧ r.Lets x
  | .length l => l.Accepts v
  | _ => True

variable {hooks : Hooks} {v : Value} {c d : Constraint}

/-- What a value other than NaN passes holds it. -/
theorem Passes.bears (h : c.Passes hooks v) (hv : v.isNaN = false) : c.Bears v := by
  obtain ⟨verdict, hrun, hvalid⟩ := h
  cases c with
  | range r =>
    have hrun : r.check v = .ok verdict := by
      cases hr : r.check v <;> simp [check, hr, Except.mapError] at hrun
      rw [hrun]
    cases v with
    | number n =>
      cases hx : n.point? with
      | none => simp [Value.isNaN, Number.isNaN_iff.mpr hx] at hv
      | some x => exact ⟨n, x, rfl, hx, Range.lets_of_check hx hrun hvalid⟩
    | _ =>
      obtain rfl := Except.ok.inj hrun
      simp [Range.wrongType, Verdict.refuse, Verdict.isValid] at hvalid
  | length l =>
    obtain rfl := Except.ok.inj hrun
    exact (l.check_isValid v).mp hvalid
  | _ => trivial

/-- A value that has the same number and length is held too. -/
theorem Bears.transfer {w : Value} (h : c.Bears v) (hnumber : ∀ n, v = .number n → w = v)
    (hlength : ∀ l, c = .length l → w.length? = v.length?) : c.Bears w := by
  cases c with
  | range r =>
    obtain ⟨n, x, rfl, hx, hr⟩ := h
    rw [hnumber n rfl]
    exact ⟨n, x, rfl, hx, hr⟩
  | length l =>
    obtain ⟨n, hn, hl⟩ := h
    exact ⟨n, (hlength l rfl).trans hn, hl⟩
  | _ => trivial

/-- Two bounds that hold one value meet in a bound that holds it too. -/
theorem narrow?_of_bears (hd : d.Bears v) (hc : c.Bears v) :
    d.narrow? c = none ∨ ∃ e, d.narrow? c = some (.ok (some e)) ∧ e.Bears v := by
  cases d with
  | range r =>
    cases c with
    | range s =>
      obtain ⟨n, x, rfl, hx, hr⟩ := hd
      obtain ⟨m, y, hm, hy, hs⟩ := hc
      obtain rfl := Value.number.inj hm
      obtain rfl := Option.some.inj (hx.symm.trans hy)
      obtain ⟨t, ht, hlets⟩ := Range.narrow_of_lets hr hs
      exact Or.inr ⟨.range t, by simp [narrow?, ht, Except.map], n, x, rfl, hx, hlets⟩
    | _ => exact Or.inl rfl
  | length a =>
    cases c with
    | length b =>
      rcases Length.narrow?_spec a b with ⟨l, hl, hcontains⟩ | ⟨-, hno⟩
      · exact Or.inr ⟨.length l, by simp [narrow?, hl],
          (Length.accepts_of_contains hcontains v).mpr ⟨hd, hc⟩⟩
      · obtain ⟨n, hn, ha⟩ := hd
        obtain ⟨m, hm, hb⟩ := hc
        obtain rfl := Option.some.inj (hn.symm.trans hm)
        exact absurd ⟨ha, hb⟩ (hno n)
    | _ => exact Or.inl rfl
  | _ => exact Or.inl rfl

variable (disjoint : Constraint → Constraint → Fault) {known cs : List Constraint}

theorem narrowInto_of_bears (hknown : ∀ d ∈ known, d.Bears v) (hc : c.Bears v) :
    ∃ o, narrowInto disjoint c known = .ok o ∧ ∀ gs, o = some gs → ∀ g ∈ gs, g.Bears v := by
  induction known with
  | nil => exact ⟨none, rfl, nofun⟩
  | cons d ds ih =>
    rw [List.forall_mem_cons] at hknown
    unfold narrowInto
    rcases narrow?_of_bears hknown.1 hc with h | ⟨e, h, he⟩
    · obtain ⟨o, ho, hgs⟩ := ih hknown.2
      rw [h]
      refine ⟨o.map (d :: ·), by simp [ho, bind, Except.bind, pure, Except.pure], fun gs hsome => ?_⟩
      obtain ⟨rest, hrest, rfl⟩ := Option.map_eq_some_iff.mp hsome
      exact List.forall_mem_cons.mpr ⟨hknown.1, hgs rest hrest⟩
    · rw [h]
      refine ⟨some (e :: ds), rfl, ?_⟩
      rintro _ ⟨⟩
      exact List.forall_mem_cons.mpr ⟨he, hknown.2⟩

theorem gather_of_bears (hknown : ∀ d ∈ known, d.Bears v) (hc : c.Bears v) :
    ∃ gs, gather disjoint known c = .ok gs ∧ ∀ g ∈ gs, g.Bears v := by
  obtain ⟨o, ho, hgs⟩ := narrowInto_of_bears disjoint hknown hc
  unfold gather
  rw [ho]
  cases o with
  | some gs => exact ⟨gs, rfl, hgs gs rfl⟩
  | none =>
    refine ⟨_, rfl, ?_⟩
    split_ifs
    · exact hknown
    · exact List.forall_mem_append.mpr ⟨hknown, by simpa using hc⟩

/-- Constraints that hold one value gather without conflict. -/
theorem gatherAll_of_bears (h : ∀ c ∈ cs, c.Bears v) : ∃ gs, cs.foldlM (gather disjoint) [] = .ok gs := by
  have run : ∀ cs known : List Constraint, (∀ c ∈ cs, c.Bears v) → (∀ d ∈ known, d.Bears v) →
      ∃ gs, cs.foldlM (gather disjoint) known = .ok gs := by
    intro cs
    induction cs with
    | nil => exact fun known _ _ => ⟨known, rfl⟩
    | cons c cs ih =>
      intro known hcs hknown
      rw [List.forall_mem_cons] at hcs
      obtain ⟨gs, hgs, hbears⟩ := gather_of_bears disjoint hknown hcs.1
      rw [List.foldlM_cons, hgs]
      exact ih gs hcs.2 hbears
  exact run cs [] h nofun

end Constraint
end Schemata
