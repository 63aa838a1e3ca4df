import Schemata.Key
import Schemata.Proofs.Constraint.Line
import Mathlib.Data.Nat.Log
import Mathlib.Tactic.Linarith
import Mathlib.Tactic.LinearCombination
import Mathlib.Tactic.Ring

/-! Decimal text of numbers. The fewest digits that read back to a value are at most seventeen; a value of a ten
thousandth or more, and below ten to the sixteenth, is written with a point between digits, a smaller one with an
exponent. -/
namespace Schemata.Decimal

theorem tenTo_add (m n : Nat) : tenTo (m + n) = tenTo m * tenTo n := Nat.pow_add 10 m n

theorem tenTo_succ (n : Nat) : tenTo (n + 1) = 10 * tenTo n := by rw [tenTo_add, Nat.mul_comm]; rfl

theorem tenTo_pos (n : Nat) : 0 < tenTo n := Nat.pow_pos (by decide)

/-- Powers of ten are compared by their exponents, in whatever unit. -/
theorem lt_of_tenTo_mul {m n : Nat} (unit : Nat) (h : tenTo m * unit < tenTo n * unit) : m < n :=
  (Nat.pow_lt_pow_iff_right (by decide)).mp (Nat.lt_of_mul_lt_mul_right h)

theorem twoTo_add (m n : Nat) : twoTo (m + n) = twoTo m * twoTo n := Nat.pow_add 2 m n

theorem twoTo_dvd {m n : Nat} (h : m ≤ n) : twoTo m ∣ twoTo n := Nat.pow_dvd_pow 2 h

theorem le_log2 {m n : Nat} (hm : 0 < m) (h : twoTo n ≤ m) : n ≤ m.log2 := (Nat.le_log2 hm.ne').mpr h

theorem log2_lt {m n : Nat} (hm : 0 < m) (h : m < twoTo n) : m.log2 < n := (Nat.log2_lt hm.ne').mpr h

theorem unitsPerOne_pos : 0 < unitsPerOne := Number.twoTo_pos 1074

section Digits

variable {n k : Nat}

theorem digitCount_le_iff (hk : 0 < k) : digitCount n ≤ k ↔ n < tenTo k := Nat.length_toDigits_le_iff (by decide) hk

theorem digitCount_eq (hlow : tenTo k ≤ n) (hhigh : n < tenTo (k + 1)) : digitCount n = k + 1 := by
  refine Nat.le_antisymm ((digitCount_le_iff k.succ_pos).mpr hhigh) ?_
  rcases Nat.eq_zero_or_pos k with rfl | hk
  · exact Nat.length_toDigits_pos
  · have hle : ¬ digitCount n ≤ k := fun h => absurd ((digitCount_le_iff hk).mp h) (Nat.not_lt.mpr hlow)
    omega

theorem exists_digitCount (hn : 0 < n) : ∃ k, digitCount n = k + 1 ∧ tenTo k ≤ n ∧ n < tenTo (k + 1) := by
  have hlow : tenTo (Nat.log 10 n) ≤ n := Nat.pow_log_le_self 10 hn.ne'
  have hhigh : n < tenTo (Nat.log 10 n + 1) := Nat.lt_pow_succ_log_self (by decide) n
  exact ⟨Nat.log 10 n, digitCount_eq hlow hhigh, hlow, hhigh⟩

theorem digitCount_mul_ten (hn : 0 < n) : digitCount (n * 10) = digitCount n + 1 := by
  obtain ⟨k, hk, hlow, hhigh⟩ := exists_digitCount hn
  have := tenTo_succ k
  have := tenTo_succ (k + 1)
  rw [hk, digitCount_eq (k := k + 1) (by omega) (by omega)]

end Digits

/-- The place of the first digit is kept when zeros are dropped behind it. -/
theorem stripZeros_spec (fuel : Nat) {s : Scaled} (hs : 0 < s.digits) : 0 < (stripZeros fuel s).digits ∧
    (digitCount (stripZeros fuel s).digits : Int) + (stripZeros fuel s).exponent = digitCount s.digits + s.exponent := by
  induction fuel generalizing s with
  | zero => exact ⟨hs, rfl⟩
  | succ fuel ih =>
    rw [stripZeros]
    split_ifs with hzero
    · have hpos : 0 < s.digits / 10 := by omega
      obtain ⟨hdigits, hplace⟩ := ih (s := ⟨s.digits / 10, s.exponent + 1⟩) hpos
      have hcount : digitCount s.digits = digitCount (s.digits / 10) + 1 := by
        rw [← digitCount_mul_ten hpos, Nat.div_mul_cancel (Nat.dvd_of_mod_eq_zero hzero)]
      refine ⟨hdigits, ?_⟩
      rw [hplace, hcount]
      push_cast
      ring
    · exact ⟨hs, rfl⟩

/-- The first digit of a positive magnitude stands where the magnitude lies between two powers of ten. -/
theorem leadingExponent_spec {m : Nat} (hm : 0 < m) : ∃ k : Nat, leadingExponent m = (k : Int) - 400 ∧
    tenTo k * unitsPerOne ≤ m * tenTo 400 ∧ m * tenTo 400 < tenTo (k + 1) * unitsPerOne := by
  have hsmall : unitsPerOne ≤ tenTo 400 := by decide +kernel
  have hpos : 0 < m * tenTo 400 / unitsPerOne :=
    Nat.div_pos (hsmall.trans (Nat.le_mul_of_pos_left _ hm)) unitsPerOne_pos
  obtain ⟨k, hk, hlow, hhigh⟩ := exists_digitCount hpos
  refine ⟨k, ?_, (Nat.le_div_iff_mul_le unitsPerOne_pos).mp hlow, (Nat.div_lt_iff_lt_mul unitsPerOne_pos).mp hhigh⟩
  rw [leadingExponent, hk]
  push_cast
  ring

section Grid

/-- A multiple of `grain` lies between the ends of the interval, which count if it is closed. -/
def Interval.Holds (i : Interval) (shrink grain c : Nat) : Prop :=
  if i.closed then i.lower * shrink ≤ c * grain ∧ c * grain ≤ i.upper * shrink
  else i.lower * shrink < c * grain ∧ c * grain < i.upper * shrink

instance (i : Interval) (shrink grain c : Nat) : Decidable (i.Holds shrink grain c) :=
  inferInstanceAs (Decidable (ite _ _ _))

variable {i : Interval} {e : Int} {s : Scaled} {shrink grain c : Nat}

theorem Interval.Holds.le_upper (h : i.Holds shrink grain c) : c * grain ≤ i.upper * shrink := by
  unfold Holds at h
  split_ifs at h
  · exact h.2
  · exact h.2.le

theorem Interval.holds_of_lt (hlow : i.lower * shrink < c * grain) (hhigh : c * grain < i.upper * shrink) :
    i.Holds shrink grain c := by
  unfold Holds
  split_ifs
  · exact ⟨hlow.le, hhigh.le⟩
  · exact ⟨hlow, hhigh⟩

/-- A grid offers a neighbour of the value that the interval holds, if it holds one. -/
theorem onGrid?_spec (i : Interval) (e : Int) :
    let shrink := tenTo (-e).toNat
    let grain := tenTo e.toNat * (4 * unitsPerOne)
    let count := i.value * shrink / grain
    (∀ s, onGrid? i e = some s → ∃ c, s = ⟨c, e⟩ ∧ (c = count ∨ c = count + 1) ∧ i.Holds shrink grain c) ∧
      ((∃ c, (c = count ∨ c = count + 1) ∧ i.Holds shrink grain c) → (onGrid? i e).isSome = true) := by
  intro shrink grain count
  have hinside : ∀ c, (if i.closed then decide (i.lower * shrink ≤ c * grain ∧ c * grain ≤ i.upper * shrink)
      else decide (i.lower * shrink < c * grain ∧ c * grain < i.upper * shrink)) = decide (i.Holds shrink grain c) := by
    intro c
    unfold Interval.Holds
    split_ifs <;> simp
  have found : ∀ c, (c = count ∨ c = count + 1) → i.Holds shrink grain c →
      (∀ s, some (Scaled.mk c e) = some s → ∃ c, s = ⟨c, e⟩ ∧ (c = count ∨ c = count + 1) ∧ i.Holds shrink grain c) ∧
        ((∃ c, (c = count ∨ c = count + 1) ∧ i.Holds shrink grain c) → (some (Scaled.mk c e)).isSome = true) :=
    fun c hc hholds => ⟨fun s hs => ⟨c, (Option.some.inj hs).symm, hc, hholds⟩, fun _ => rfl⟩
  unfold onGrid?
  dsimp only
  rw [hinside count, hinside (count + 1)]
  by_cases hdown : i.Holds shrink grain count <;> by_cases hup : i.Holds shrink grain (count + 1) <;>
    simp only [hdown, hup, decide_true, decide_false]
  · split_ifs
    · exact found count (Or.inl rfl) hdown
    · exact found (count + 1) (Or.inr rfl) hup
  · exact found count (Or.inl rfl) hdown
  · exact found (count + 1) (Or.inr rfl) hup
  · simp [hdown, hup]

end Grid

section Shortest

variable {m : Nat}

/-- The distance from a magnitude to the next larger binary64 value, in units. -/
def ulp (m : Nat) : Nat := twoTo (m.log2 - 52)

theorem lt_ulp (m : Nat) : m < twoTo 53 * ulp m := by
  have hlog : m < 2 ^ (m.log2 + 1) := Nat.lt_log2_self
  have hle : 2 ^ (m.log2 + 1) ≤ 2 ^ (53 + (m.log2 - 52)) := Nat.pow_le_pow_right (by decide) (by omega)
  rw [Nat.pow_add 2 53] at hle
  exact hlog.trans_le hle

/-- The interval around a magnitude reaches to the middle of the way to the next larger value. To the next smaller one
the way is shorter behind a power of two. -/
theorem interval_spec (m : Nat) : ∃ below, (interval m).value = 4 * m ∧ (interval m).lower = 4 * m - below ∧
    (interval m).upper = 4 * m + 2 * ulp m ∧
    (below = 2 * ulp m ∨ below = ulp m ∧ m < (twoTo 52 + 1) * ulp m) := by
  refine ⟨_, rfl, rfl, rfl, ?_⟩
  show (if m >>> (m.log2 - 52) = twoTo 52 ∧ 0 < m.log2 - 52 then ulp m else 2 * ulp m) = 2 * ulp m ∨ _
  split_ifs with hpower
  · right
    have hdiv : m / ulp m = twoTo 52 := by
      rw [← hpower.1, Nat.shiftRight_eq_div_pow]
      rfl
    exact ⟨rfl, (Nat.div_lt_iff_lt_mul (Number.twoTo_pos _)).mp (hdiv ▸ Nat.lt_succ_self _)⟩
  · exact Or.inl rfl

/-- On a grid of which the value counts as many as ten to the sixteenth, one of its neighbours reads back. -/
theorem holds_neighbour {shrink grain : Nat} (hshrink : 0 < shrink) (hgrain : 0 < grain)
    (hfine : tenTo 16 * grain ≤ 4 * m * shrink) :
    ∃ c, (c = 4 * m * shrink / grain ∨ c = 4 * m * shrink / grain + 1) ∧ (interval m).Holds shrink grain c := by
  obtain ⟨below, hvalue, hlower, hupper, hbelow⟩ := interval_spec m
  set count := 4 * m * shrink / grain with hcount
  have hdown : count * grain ≤ 4 * m * shrink := Nat.div_mul_le_self _ _
  have hup : 4 * m * shrink < (count + 1) * grain := (Nat.div_lt_iff_lt_mul hgrain).mp (Nat.lt_succ_self _)
  have hnext : (count + 1) * grain = count * grain + grain := Nat.succ_mul _ _
  have hceiling : (interval m).upper * shrink = 4 * m * shrink + 2 * (ulp m * shrink) := by
    rw [hupper]
    ring
  have hfloor : (interval m).lower * shrink = 4 * m * shrink - below * shrink := by
    rw [hlower, Nat.sub_mul]
  have hten : 10000000000000000 * grain ≤ 4 * m * shrink := hfine
  rcases hbelow with rfl | ⟨rfl, hpower⟩
  · -- The nearer neighbour is at most half a grain away.
    have hm : 4 * m * shrink < 4 * 9007199254740992 * (ulp m * shrink) := by
      have : m * shrink < 9007199254740992 * ulp m * shrink := Nat.mul_lt_mul_of_pos_right (lt_ulp m) hshrink
      linarith
    have hgap : 2 * ulp m * shrink = 2 * (ulp m * shrink) := Nat.mul_assoc _ _ _
    by_cases hnear : 4 * m * shrink - count * grain < 2 * (ulp m * shrink)
    · exact ⟨count, Or.inl rfl, Interval.holds_of_lt (by omega) (by omega)⟩
    · exact ⟨count + 1, Or.inr rfl, Interval.holds_of_lt (by omega) (by omega)⟩
  · -- The grid is finer than half the way up.
    have hm : 4 * m * shrink < 4 * 4503599627370497 * (ulp m * shrink) := by
      have : m * shrink < 4503599627370497 * ulp m * shrink := Nat.mul_lt_mul_of_pos_right hpower hshrink
      linarith
    exact ⟨count + 1, Or.inr rfl, Interval.holds_of_lt (by omega) (by omega)⟩

theorem tenTo_shift {n k : Nat} {e : Int} (he : e = (k : Int) - 400 - n) :
    tenTo n * tenTo e.toNat * tenTo 400 = tenTo (-e).toNat * tenTo k := by
  rw [← tenTo_add, ← tenTo_add, ← tenTo_add]
  congr 1
  omega

/-- Where the first digit stands, a grid `n` digits finer counts the value with one digit more than `n`. -/
theorem grid_spec (n : Nat) {k : Nat} (hlow : tenTo k * unitsPerOne ≤ m * tenTo 400)
    (hhigh : m * tenTo 400 < tenTo (k + 1) * unitsPerOne) {e : Int} (he : e = (k : Int) - 400 - n) :
    tenTo n * (tenTo e.toNat * (4 * unitsPerOne)) ≤ 4 * m * tenTo (-e).toNat ∧
      4 * m * tenTo (-e).toNat < tenTo (n + 1) * (tenTo e.toNat * (4 * unitsPerOne)) := by
  have hshift := tenTo_shift he
  have hshrink := tenTo_pos (-e).toNat
  constructor
  · refine Nat.le_of_mul_le_mul_right ?_ (tenTo_pos 400)
    calc tenTo n * (tenTo e.toNat * (4 * unitsPerOne)) * tenTo 400
      _ = 4 * tenTo (-e).toNat * (tenTo k * unitsPerOne) := by linear_combination 4 * unitsPerOne * hshift
      _ ≤ 4 * tenTo (-e).toNat * (m * tenTo 400) := Nat.mul_le_mul_left _ hlow
      _ = 4 * m * tenTo (-e).toNat * tenTo 400 := by ring
  · refine Nat.lt_of_mul_lt_mul_right (a := tenTo 400) ?_
    calc 4 * m * tenTo (-e).toNat * tenTo 400
      _ = 4 * tenTo (-e).toNat * (m * tenTo 400) := by ring
      _ < 4 * tenTo (-e).toNat * (tenTo (k + 1) * unitsPerOne) := Nat.mul_lt_mul_of_pos_left hhigh (by omega)
      _ = tenTo (n + 1) * (tenTo e.toNat * (4 * unitsPerOne)) * tenTo 400 := by
        rw [tenTo_succ, tenTo_succ]
        linear_combination -(40 * unitsPerOne * hshift)

/-- Some grid of seventeen digits at most has a neighbour of the value that reads back. -/
theorem exists_onGrid {k : Nat} (hlead : leadingExponent m = (k : Int) - 400)
    (hlow : tenTo k * unitsPerOne ≤ m * tenTo 400) (hhigh : m * tenTo 400 < tenTo (k + 1) * unitsPerOne) :
    ∃ n < 17, ∃ s, onGrid? (interval m) ((k : Int) - 400 - (n : Nat)) = some s ∧ shortest m = stripZeros 400 s := by
  obtain ⟨hfine, -⟩ := grid_spec 16 hlow hhigh rfl
  have hgrain (e : Int) : 0 < tenTo e.toNat * (4 * unitsPerOne) :=
    Nat.mul_pos (tenTo_pos _) (Nat.mul_pos (by decide) unitsPerOne_pos)
  have hlast := (onGrid?_spec (interval m) _).2 (holds_neighbour (tenTo_pos _) (hgrain _) hfine)
  have hsome : ((List.range 17).findSome? fun n : Nat => onGrid? (interval m) (leadingExponent m - n)).isSome := by
    rw [List.findSome?_isSome_iff, hlead]
    exact ⟨16, List.mem_range.mpr (by decide), hlast⟩
  obtain ⟨s, hs⟩ := Option.isSome_iff_exists.mp hsome
  obtain ⟨n, hrange, hn⟩ := List.exists_of_findSome?_eq_some hs
  refine ⟨n, List.mem_range.mp hrange, s, hlead ▸ hn, ?_⟩
  simp only [shortest, hs, Option.getD_some]

/-- The first digit of the text stands where that of the value does, unless rounding brings the next power of ten. -/
theorem shortest_spec (hm : 0 < m) : 0 < (shortest m).digits ∧ ∃ k : Nat,
    tenTo k * unitsPerOne ≤ m * tenTo 400 ∧ m * tenTo 400 < tenTo (k + 1) * unitsPerOne ∧
    ((digitCount (shortest m).digits : Int) + (shortest m).exponent = (k : Int) - 399 ∨
      (digitCount (shortest m).digits : Int) + (shortest m).exponent = (k : Int) - 398 ∧
        tenTo (k + 1) * (4 * unitsPerOne) ≤ (4 * m + 2 * ulp m) * tenTo 400) := by
  obtain ⟨k, hlead, hlow, hhigh⟩ := leadingExponent_spec hm
  obtain ⟨n, -, s, hs, hshort⟩ := exists_onGrid hlead hlow hhigh
  obtain ⟨c, rfl, hc, hholds⟩ := (onGrid?_spec (interval m) _).1 s hs
  set e : Int := (k : Int) - 400 - n with he
  obtain ⟨hfrom, hto⟩ := grid_spec n hlow hhigh he
  have hgrain : 0 < tenTo e.toNat * (4 * unitsPerOne) :=
    Nat.mul_pos (tenTo_pos _) (Nat.mul_pos (by decide) unitsPerOne_pos)
  have hleast : tenTo n ≤ 4 * m * tenTo (-e).toNat / (tenTo e.toNat * (4 * unitsPerOne)) :=
    (Nat.le_div_iff_mul_le hgrain).mpr hfrom
  have hmost : 4 * m * tenTo (-e).toNat / (tenTo e.toNat * (4 * unitsPerOne)) < tenTo (n + 1) :=
    (Nat.div_lt_iff_lt_mul hgrain).mpr hto
  have hvalue : (interval m).value = 4 * m := rfl
  rw [hvalue] at hc
  have hpos := tenTo_pos n
  obtain ⟨hdigits, hplace⟩ := stripZeros_spec 400 (s := ⟨c, e⟩) (show 0 < c by omega)
  rw [hshort]
  refine ⟨hdigits, k, hlow, hhigh, ?_⟩
  rcases Nat.lt_or_ge c (tenTo (n + 1)) with hbelow | hreached
  · left
    rw [hplace, digitCount_eq (by omega) hbelow]
    push_cast
    omega
  · right
    have hnext := tenTo_succ (n + 1)
    obtain ⟨-, -, -, hupper, -⟩ := interval_spec m
    refine ⟨by rw [hplace, digitCount_eq hreached (by omega)]; push_cast; omega, ?_⟩
    refine Nat.le_of_mul_le_mul_right ?_ (tenTo_pos (-e).toNat)
    have hshift := tenTo_shift he
    calc tenTo (k + 1) * (4 * unitsPerOne) * tenTo (-e).toNat
      _ = tenTo (n + 1) * (tenTo e.toNat * (4 * unitsPerOne)) * tenTo 400 := by
        rw [tenTo_succ, tenTo_succ]
        linear_combination -(40 * unitsPerOne * hshift)
      _ ≤ c * (tenTo e.toNat * (4 * unitsPerOne)) * tenTo 400 :=
        Nat.mul_le_mul_right _ (Nat.mul_le_mul_right _ hreached)
      _ ≤ (interval m).upper * tenTo (-e).toNat * tenTo 400 := Nat.mul_le_mul_right _ hholds.le_upper
      _ = (4 * m + 2 * ulp m) * tenTo 400 * tenTo (-e).toNat := by
        rw [hupper]
        ring

end Shortest

section Layout

/-- Digits of one kind, one at least. -/
def IsDigits (digit : Char → Bool) (cs : List Char) : Prop := cs ≠ [] ∧ ∀ c ∈ cs, digit c = true

/-- Digits, perhaps behind a minus sign, and perhaps before a point with more digits. -/
def IsNumeral (digit : Char → Bool) (cs : List Char) : Prop :=
  ∃ sign whole fraction, cs = sign ++ (whole ++ fraction) ∧ (sign = [] ∨ sign = ['-']) ∧ IsDigits digit whole ∧
    (fraction = [] ∨ ∃ ds, fraction = '.' :: ds ∧ IsDigits digit ds)

variable {digit : Char → Bool} {cs ds : List Char}

theorem IsDigits.append (hcs : ∀ c ∈ cs, digit c = true) (hds : IsDigits digit ds) : IsDigits digit (cs ++ ds) :=
  ⟨List.append_ne_nil_of_right_ne_nil _ hds.1, List.forall_mem_append.mpr ⟨hcs, hds.2⟩⟩

theorem IsDigits.mono {other : Char → Bool} (h : ∀ c, digit c = true → other c = true) (hcs : IsDigits digit cs) :
    IsDigits other cs := ⟨hcs.1, fun c hc => h c (hcs.2 c hc)⟩

theorem IsNumeral.mono {other : Char → Bool} (h : ∀ c, digit c = true → other c = true) (hcs : IsNumeral digit cs) :
    IsNumeral other cs := by
  obtain ⟨sign, whole, fraction, rfl, hsign, hwhole, hfraction⟩ := hcs
  exact ⟨sign, whole, fraction, rfl, hsign, hwhole.mono h,
    hfraction.imp_right fun ⟨ds, heq, hds⟩ => ⟨ds, heq, hds.mono h⟩⟩

theorem IsNumeral.mem (hcs : IsNumeral digit cs) {c : Char} (hc : c ∈ cs) : c = '-' ∨ c = '.' ∨ digit c = true := by
  obtain ⟨sign, whole, fraction, rfl, hsign, hwhole, hfraction⟩ := hcs
  rcases List.mem_append.mp hc with hc | hc
  · rcases hsign with rfl | rfl
    · cases hc
    · exact Or.inl (List.mem_singleton.mp hc)
  · rcases List.mem_append.mp hc with hc | hc
    · exact Or.inr (Or.inr (hwhole.2 c hc))
    · rcases hfraction with rfl | ⟨ds, rfl, hds⟩
      · cases hc
      · rcases List.mem_cons.mp hc with rfl | hc
        · exact Or.inr (Or.inl rfl)
        · exact Or.inr (Or.inr (hds.2 c hc))

theorem isDigits_toDigits (n : Nat) : IsDigits Char.isDigit (Nat.toDigits 10 n) :=
  ⟨Nat.toDigits_ne_nil, fun _ hc => Nat.isDigit_of_mem_toDigits (by decide) (by decide) hc⟩

theorem isDigit_zeros {n : Nat} {c : Char} (hc : c ∈ (zeros n).toList) : c.isDigit = true := by
  rw [zeros, String.toList_ofList] at hc
  obtain rfl := List.eq_of_mem_replicate hc
  rfl

/-- From a ten thousandth on, a value below ten to the sixteenth is written with a point between digits. -/
theorem layout_point {s : Scaled} (hlow : -4 < (digitCount s.digits : Int) + s.exponent)
    (hhigh : (digitCount s.digits : Int) + s.exponent ≤ 16) : ∃ whole ds, (layout s).toList = whole ++ '.' :: ds ∧
      IsDigits Char.isDigit whole ∧ IsDigits Char.isDigit ds := by
  obtain ⟨hne, hdigits⟩ := isDigits_toDigits s.digits
  unfold layout
  dsimp only
  rw [if_pos ⟨hlow, hhigh⟩]
  split_ifs with hsmall hwhole
  · set place := ((Nat.toDigits 10 s.digits).length : Int) + s.exponent
    refine ⟨['0'], (zeros (-place).toNat).toList ++ Nat.toDigits 10 s.digits, by simp, by simp [IsDigits], ?_⟩
    exact IsDigits.append (fun _ => isDigit_zeros) ⟨hne, hdigits⟩
  · refine ⟨Nat.toDigits 10 s.digits ++ (zeros s.exponent.toNat).toList, ['0'], by simp, ?_, by simp [IsDigits]⟩
    exact ⟨by simp [hne], List.forall_mem_append.mpr ⟨hdigits, fun _ => isDigit_zeros⟩⟩
  · set place := ((Nat.toDigits 10 s.digits).length : Int) + s.exponent
    refine ⟨(Nat.toDigits 10 s.digits).take place.toNat, (Nat.toDigits 10 s.digits).drop place.toNat, by simp, ?_, ?_⟩
    · refine ⟨?_, fun c hc => hdigits c (List.mem_of_mem_take hc)⟩
      rw [Ne, List.take_eq_nil_iff]
      rintro (hplace | hnil)
      · omega
      · exact hne hnil
    · refine ⟨?_, fun c hc => hdigits c (List.mem_of_mem_drop hc)⟩
      rw [Ne, List.drop_eq_nil_iff]
      omega

/-- Outside of that range the text has an exponent. -/
theorem layout_exponent {s : Scaled} (h : (digitCount s.digits : Int) + s.exponent ≤ -4 ∨
    16 < (digitCount s.digits : Int) + s.exponent) : 'e' ∈ (layout s).toList := by
  unfold layout
  dsimp only
  rw [if_neg (by rintro ⟨hlow, hhigh⟩; unfold digitCount at h; omega)]
  split_ifs <;> simp

end Layout

section Text

variable {m : Nat}

/-- A magnitude of a binary64 value has no more than fifty-three binary digits between its first and its last one. -/
def IsBinary64 (m : Nat) : Prop := ulp m ∣ m

theorem isBinary64_twoTo (n : Nat) : IsBinary64 (twoTo n) :=
  twoTo_dvd ((Nat.sub_le _ _).trans (Nat.log2_two_pow (n := n)).le)

theorem ulp_le (hm : 0 < m) : ulp m ≤ m :=
  (Nat.pow_le_pow_right (by decide) (Nat.sub_le _ _)).trans (Nat.log2_self_le hm.ne')

/-- From two to the fifty-second on, a binary64 value has no fraction. -/
theorem lt_of_fraction (hm : IsBinary64 m) (hfraction : m % unitsPerOne ≠ 0) : m < twoTo 52 * unitsPerOne := by
  by_contra hlarge
  have hpos : 0 < m := by
    refine Nat.pos_of_ne_zero ?_
    rintro rfl
    exact hfraction (Nat.zero_mod _)
  rw [unitsPerOne, ← twoTo_add, not_lt] at hlarge
  have hlog : 52 + 1074 ≤ m.log2 := le_log2 hpos hlarge
  have hunits : twoTo 1074 ∣ twoTo (m.log2 - 52) := twoTo_dvd (by omega)
  exact hfraction (Nat.mod_eq_zero_of_dvd (hunits.trans hm))

theorem place_of_fraction (hsmall : unitsPerOne ≤ m * tenTo 4) (hlarge : m < twoTo 52 * unitsPerOne) :
    -4 < (digitCount (shortest m).digits : Int) + (shortest m).exponent ∧
      (digitCount (shortest m).digits : Int) + (shortest m).exponent ≤ 16 := by
  have hm : 0 < m := Nat.pos_of_mul_pos_right (unitsPerOne_pos.trans_le hsmall)
  obtain ⟨-, k, hlow, hhigh, hplace⟩ := shortest_spec hm
  have hleast : 396 < k + 1 := by
    refine lt_of_tenTo_mul unitsPerOne ?_
    calc tenTo 396 * unitsPerOne
      _ ≤ tenTo 396 * (m * tenTo 4) := Nat.mul_le_mul_left _ hsmall
      _ = m * tenTo 400 := by rw [tenTo_add 396 4]; ring
      _ < tenTo (k + 1) * unitsPerOne := hhigh
  have hmost : k < 416 := by
    refine lt_of_tenTo_mul unitsPerOne ?_
    calc tenTo k * unitsPerOne
      _ ≤ m * tenTo 400 := hlow
      _ < twoTo 52 * unitsPerOne * tenTo 400 := Nat.mul_lt_mul_of_pos_right hlarge (tenTo_pos _)
      _ ≤ tenTo 16 * unitsPerOne * tenTo 400 := Nat.mul_le_mul_right _ (Nat.mul_le_mul_right _ (by decide))
      _ = tenTo 416 * unitsPerOne := by rw [tenTo_add 16 400]; ring
  rcases hplace with hplace | ⟨hplace, hcarry⟩
  · omega
  · have hnext : k + 1 < 416 := by
      refine lt_of_tenTo_mul (4 * unitsPerOne) ?_
      have hulp := ulp_le hm
      calc tenTo (k + 1) * (4 * unitsPerOne)
        _ ≤ (4 * m + 2 * ulp m) * tenTo 400 := hcarry
        _ ≤ 6 * m * tenTo 400 := Nat.mul_le_mul_right _ (by omega)
        _ < 6 * (twoTo 52 * unitsPerOne) * tenTo 400 :=
          Nat.mul_lt_mul_of_pos_right (Nat.mul_lt_mul_of_pos_left hlarge (by decide)) (tenTo_pos _)
        _ = 6 * twoTo 52 * unitsPerOne * tenTo 400 := by ring
        _ ≤ 4 * tenTo 16 * unitsPerOne * tenTo 400 := Nat.mul_le_mul_right _ (Nat.mul_le_mul_right _ (by decide))
        _ = tenTo 416 * (4 * unitsPerOne) := by rw [tenTo_add 16 400]; ring
    omega

/-- A binary64 value below a ten thousandth is less by more than half the way to the next value. -/
theorem gap_of_tiny (hpos : 0 < m) (hm : IsBinary64 m) (htiny : m * tenTo 4 < unitsPerOne) :
    (4 * m + 2 * ulp m) * tenTo 4 < 4 * unitsPerOne := by
  obtain ⟨w, hw, hone⟩ : ∃ w, 0 < w ∧ unitsPerOne = 73786976294838206464 * (ulp m * w) := by
    have hlog : m.log2 < 1061 := by
      refine log2_lt hpos (Nat.lt_of_mul_lt_mul_right (a := tenTo 4) (htiny.trans_le ?_))
      rw [unitsPerOne, show 1074 = 1061 + 13 from rfl, twoTo_add]
      exact Nat.mul_le_mul_left _ (by decide)
    refine ⟨twoTo (1008 - (m.log2 - 52)), Number.twoTo_pos _, ?_⟩
    rw [ulp, ← twoTo_add, unitsPerOne, show 1074 = 66 + (m.log2 - 52 + (1008 - (m.log2 - 52))) by omega, twoTo_add]
    rfl
  obtain ⟨q, hq⟩ := hm
  have hulp : 0 < ulp m := Number.twoTo_pos _
  have hcount : q < 9007199254740992 := by
    refine Nat.lt_of_mul_lt_mul_right (a := ulp m) ?_
    calc q * ulp m
      _ = m := (Nat.mul_comm _ _).trans hq.symm
      _ < 9007199254740992 * ulp m := lt_ulp m
  have htimes : q * tenTo 4 < 73786976294838206464 * w := by
    refine Nat.lt_of_mul_lt_mul_right (a := ulp m) ?_
    calc q * tenTo 4 * ulp m
      _ = ulp m * q * tenTo 4 := by ring
      _ = m * tenTo 4 := by rw [← hq]
      _ < 73786976294838206464 * (ulp m * w) := hone ▸ htiny
      _ = 73786976294838206464 * w * ulp m := by ring
  -- Next to a ten thousandth itself the remainder of the division decides; below, there is a factor of two.
  have hgap : (4 * q + 2) * tenTo 4 < 4 * (73786976294838206464 * w) := by
    rw [show tenTo 4 = 10000 from rfl] at htimes ⊢
    rcases Nat.eq_or_lt_of_le hw with rfl | hw
    · have hq : q < 7378697629483821 :=
        Nat.lt_of_mul_lt_mul_right (a := 10000) (htimes.trans_le (by norm_num))
      linarith
    · linarith
  calc (4 * m + 2 * ulp m) * tenTo 4
    _ = (4 * (ulp m * q) + 2 * ulp m) * tenTo 4 := by rw [← hq]
    _ = (4 * q + 2) * tenTo 4 * ulp m := by ring
    _ < 4 * (73786976294838206464 * w) * ulp m := Nat.mul_lt_mul_of_pos_right hgap hulp
    _ = 4 * (73786976294838206464 * (ulp m * w)) := by ring
    _ = 4 * unitsPerOne := by rw [hone]

theorem place_of_tiny (hpos : 0 < m) (hm : IsBinary64 m) (htiny : m * tenTo 4 < unitsPerOne) :
    (digitCount (shortest m).digits : Int) + (shortest m).exponent ≤ -4 := by
  obtain ⟨-, k, hlow, -, hplace⟩ := shortest_spec hpos
  have hmost : k < 396 := by
    refine lt_of_tenTo_mul unitsPerOne ?_
    calc tenTo k * unitsPerOne
      _ ≤ m * tenTo 400 := hlow
      _ = m * tenTo 4 * tenTo 396 := by rw [tenTo_add 4 396]; ring
      _ < unitsPerOne * tenTo 396 := Nat.mul_lt_mul_of_pos_right htiny (tenTo_pos _)
      _ = tenTo 396 * unitsPerOne := Nat.mul_comm _ _
  rcases hplace with hplace | ⟨hplace, hcarry⟩
  · omega
  · have hnext : k + 1 < 396 := by
      refine lt_of_tenTo_mul (4 * unitsPerOne) ?_
      calc tenTo (k + 1) * (4 * unitsPerOne)
        _ ≤ (4 * m + 2 * ulp m) * tenTo 400 := hcarry
        _ = (4 * m + 2 * ulp m) * tenTo 4 * tenTo 396 := by rw [tenTo_add 4 396]; ring
        _ < 4 * unitsPerOne * tenTo 396 := Nat.mul_lt_mul_of_pos_right (gap_of_tiny hpos hm htiny) (tenTo_pos _)
        _ = tenTo 396 * (4 * unitsPerOne) := Nat.mul_comm _ _
    omega

end Text

end Schemata.Decimal

namespace Schemata.Number
open Decimal

/-- An integer of any size, or a finite binary64 value. -/
def IsFinite : Number → Prop
  | .int _ => True
  | .double (.finite _ m) => IsBinary64 m
  | .double _ => False

/-- Nearer to zero than a ten thousandth, and not zero. -/
def IsTiny : Number → Prop
  | .double (.finite _ m) => 0 < m ∧ m * tenTo 4 < unitsPerOne
  | _ => False

instance : (n : Number) → Decidable n.IsTiny
  | .int _ => inferInstanceAs (Decidable False)
  | .double (.nan _) => inferInstanceAs (Decidable False)
  | .double (.infinite _) => inferInstanceAs (Decidable False)
  | .double (.finite _ m) => inferInstanceAs (Decidable (0 < m ∧ m * tenTo 4 < unitsPerOne))

/-- The text that a number has as a key. -/
def keyText (n : Number) : String :=
  match n.toInt? with
  | some i => toString i
  | none => n.text

theorem ofValue?_number (n : Number) : Key.ofValue? (.number n) = some (.name n.keyText) := rfl

theorem isNumeral_int (i : Int) : IsNumeral Char.isDigit (toString i).toList := by
  cases i with
  | ofNat n =>
    refine ⟨[], Nat.toDigits 10 n, [], ?_, Or.inl rfl, isDigits_toDigits n, Or.inl rfl⟩
    show (Nat.repr n).toList = _
    simp
  | negSucc n =>
    refine ⟨['-'], Nat.toDigits 10 (n + 1), [], ?_, Or.inr rfl, isDigits_toDigits _, Or.inl rfl⟩
    show ("-" ++ Nat.repr (n + 1)).toList = _
    simp

theorem text_of_pos {m : Nat} (hm : 0 < m) (negative : Bool) :
    (Double.finite negative m).text = (if negative then "-" else "") ++ layout (shortest m) := by
  obtain ⟨m, rfl⟩ := Nat.exists_eq_succ_of_ne_zero hm.ne'
  rfl

/-- As a key a finite number is written with digits alone, perhaps with a sign and a point, unless it is tiny. -/
theorem isNumeral_keyText {n : Number} (hn : n.IsFinite) (htiny : ¬ n.IsTiny) :
    IsNumeral Char.isDigit n.keyText.toList := by
  cases hint : n.toInt? with
  | some i =>
    rw [keyText, hint]
    exact isNumeral_int i
  | none =>
    obtain _ | (_ | _ | ⟨negative, m⟩) := n
    · cases hint
    · exact hn.elim
    · exact hn.elim
    · have hfraction : m % unitsPerOne ≠ 0 := fun h => by
        rw [toInt?, Double.toInt?, if_pos h] at hint
        cases hint
      have hpos : 0 < m := by
        refine Nat.pos_of_ne_zero ?_
        rintro rfl
        exact hfraction (Nat.zero_mod _)
      have hsmall : unitsPerOne ≤ m * tenTo 4 := Nat.not_lt.mp fun h => htiny ⟨hpos, h⟩
      obtain ⟨hlow, hhigh⟩ := place_of_fraction hsmall (lt_of_fraction hn hfraction)
      obtain ⟨whole, ds, htext, hwhole, hds⟩ := layout_point hlow hhigh
      have hkey : (keyText (.double (.finite negative m))).toList =
          (if negative then ['-'] else []) ++ (whole ++ '.' :: ds) := by
        rw [keyText, hint]
        show (Double.finite negative m).text.toList = _
        rw [text_of_pos hpos, String.toList_append, htext]
        cases negative <;> rfl
      refine ⟨_, whole, '.' :: ds, hkey, ?_, hwhole, Or.inr ⟨ds, rfl, hds⟩⟩
      cases negative
      · exact Or.inl rfl
      · exact Or.inr rfl

/-- A tiny number is written with an exponent. -/
theorem exponent_keyText {n : Number} (hn : n.IsFinite) (htiny : n.IsTiny) : 'e' ∈ n.keyText.toList := by
  obtain _ | (_ | _ | ⟨negative, m⟩) := n
  · exact htiny.elim
  · exact htiny.elim
  · exact htiny.elim
  · obtain ⟨hpos, hsmall⟩ := htiny
    have hlt : m < unitsPerOne := Nat.lt_of_le_of_lt (Nat.le_mul_of_pos_right m (tenTo_pos 4)) hsmall
    have hint : toInt? (.double (.finite negative m)) = none := by
      rw [toInt?, Double.toInt?, if_neg (by rw [Nat.mod_eq_of_lt hlt]; exact hpos.ne')]
    rw [keyText, hint]
    show 'e' ∈ (Double.finite negative m).text.toList
    rw [text_of_pos hpos, String.toList_append]
    exact List.mem_append_right _ (layout_exponent (Or.inl (place_of_tiny hpos hn hsmall)))

end Schemata.Number
