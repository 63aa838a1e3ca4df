import Schemata.Algebra.Intersection
import Schemata.Proofs.Constraint.Implication

/-! Sound constraints: what they are made of can be used. Their patterns are regular expressions, their bounds are
numbers, and no check, comparison or narrowing of them stops with an error. -/
namespace Schemata

namespace Range

/-- The bounds are numbers; a truth value counts as one, and so does NaN. -/
structure Ordered (r : Range) : Prop where
  least : ∀ v ∈ r.least, v.asNumber?.isSome = true
  greatest : ∀ v ∈ r.greatest, v.asNumber?.isSome = true

variable {c : Comparison} {a b : Option Value × Bool} {r s : Range}

theorem beyond?_answers {bound : Option Value} (hb : ∀ v ∈ bound, v.asNumber?.isSome = true) (n : Number)
    (refusal : Value → Verdict) : ∃ o, beyond? c bound n refusal = .ok o := by
  cases bound with
  | none => exact ⟨none, rfl⟩
  | some v =>
    obtain ⟨m, hm⟩ := Option.isSome_iff_exists.mp (hb v rfl)
    exact ⟨_, by simp only [beyond?, Value.holds_of_numbers (c := c) (v := .number n) rfl hm]; rfl⟩

theorem Ordered.check (h : r.Ordered) (v : Value) : ∃ d, r.check v = .ok d := by
  cases v with
  | number n =>
    obtain ⟨low, hlow⟩ : ∃ o, r.low? n = .ok o := by
      unfold low?
      split_ifs <;> exact beyond?_answers h.least _ _
    obtain ⟨high, hhigh⟩ : ∃ o, r.high? n = .ok o := by
      unfold high?
      split_ifs <;> exact beyond?_answers h.greatest _ _
    simp only [Range.check, hlow, hhigh, bind, Except.bind]
    cases low with
    | some refusal => exact ⟨refusal, rfl⟩
    | none => exact ⟨high.getD .valid, rfl⟩
  | _ => exact ⟨_, rfl⟩

theorem tighter_ordered (ha : ∀ v ∈ a.1, v.asNumber?.isSome = true) (hb : ∀ v ∈ b.1, v.asNumber?.isSome = true) :
    ∃ t, tighter c a b = .ok t ∧ ∀ v ∈ t.1, v.asNumber?.isSome = true := by
  obtain ⟨v, o⟩ := a
  obtain ⟨w, u⟩ := b
  match v, w with
  | none, w => exact ⟨(w, u), by simp [tighter], hb⟩
  | some v, none => exact ⟨(some v, o), by simp [tighter], ha⟩
  | some v, some w =>
    obtain ⟨n, hn⟩ := Option.isSome_iff_exists.mp (ha v rfl)
    obtain ⟨m, hm⟩ := Option.isSome_iff_exists.mp (hb w rfl)
    cases heq : v.equal w with
    | true => exact ⟨(some v, o || u), by simp [tighter, heq], ha⟩
    | false =>
      simp only [tighter, heq, Value.holds_of_numbers hm hn]
      cases Value.numbersHold c m n with
      | true => exact ⟨_, rfl, hb⟩
      | false => exact ⟨_, rfl, ha⟩

theorem Ordered.isEmpty (h : r.Ordered) : ∃ b, r.isEmpty = .ok b := by
  unfold Range.isEmpty
  cases hl : r.least with
  | none => exact ⟨false, rfl⟩
  | some v =>
    cases hg : r.greatest with
    | none => exact ⟨false, rfl⟩
    | some w =>
      obtain ⟨n, hn⟩ := Option.isSome_iff_exists.mp (h.least v hl)
      obtain ⟨m, hm⟩ := Option.isSome_iff_exists.mp (h.greatest w hg)
      simp only [Value.holds_of_numbers hn hm]
      cases Value.numbersHold .greater n m <;> exact ⟨_, rfl⟩

theorem Ordered.narrow (hr : r.Ordered) (hs : s.Ordered) : ∃ o, r.narrow s = .ok o ∧ ∀ t ∈ o, t.Ordered := by
  obtain ⟨low, hlow, hleast⟩ := tighter_ordered (c := .greater) (a := (r.least, r.aboveLeast))
    (b := (s.least, s.aboveLeast)) hr.least hs.least
  obtain ⟨high, hhigh, hgreatest⟩ := tighter_ordered (c := .less) (a := (r.greatest, r.belowGreatest))
    (b := (s.greatest, s.belowGreatest)) hr.greatest hs.greatest
  have ht : Ordered ⟨low.1, high.1, low.2, high.2⟩ := ⟨hleast, hgreatest⟩
  obtain ⟨b, hb⟩ := ht.isEmpty
  simp only [Range.narrow, hlow, hhigh, hb, bind, Except.bind]
  cases b with
  | true => exact ⟨none, rfl, by simp⟩
  | false => exact ⟨some _, rfl, by simpa using ht⟩

theorem Ordered.covers (hr : r.Ordered) (hs : s.Ordered) : ∃ b, r.covers s = .ok b := by
  obtain ⟨o, ho, -⟩ := hr.narrow hs
  simp only [Range.covers, ho, bind, Except.bind]
  cases o <;> exact ⟨_, rfl⟩

end Range

namespace Constraint

variable {c d : Constraint}

/-- Bounds on numbers are numbers, and patterns are regular expressions. -/
def Sound : Constraint → Prop
  | .range r => r.Ordered
  | .pattern p => p.Compiles
  | _ => True

/-- What is wrong with a value is a verdict. -/
theorem Sound.check (h : c.Sound) (hooks : Hooks) (v : Value) : ∃ d, c.check hooks v = .ok d := by
  cases c with
  | range r =>
    obtain ⟨d, hd⟩ := Range.Ordered.check h v
    exact ⟨d, by simp [Constraint.check, hd, Except.mapError]⟩
  | pattern p =>
    obtain ⟨d, hd, -⟩ := Pattern.check_spec h v
    exact ⟨d, by simp [Constraint.check, hd, Except.mapError]⟩
  | _ => exact ⟨_, rfl⟩

theorem Sound.covers (hc : c.Sound) (hd : d.Sound) : ∃ b, c.covers d = .ok b := by
  cases c with
  | range r =>
    cases d with
    | range s => exact Range.Ordered.covers hc hd
    | _ => exact ⟨_, rfl⟩
  | length l => cases d <;> exact ⟨_, rfl⟩
  | _ => exact ⟨_, rfl⟩

/-- Sound constraints narrow to a sound one, and what they narrow to may be part of a key. -/
theorem Sound.narrow? {x : Except Incomparable (Option Constraint)} (hc : c.Sound) (hd : d.Sound)
    (h : c.narrow? d = some x) : ∃ o, x = .ok o ∧ ∀ e ∈ o, e.Sound ∧ e.changeable? = none := by
  have fixed : ∀ {o : Option Value}, (∀ v ∈ o, v.asNumber?.isSome = true) → o.bind (·.changeable?) = none := by
    intro o ho
    cases o with
    | none => rfl
    | some v =>
      have hv := ho v rfl
      cases v <;> first | rfl | simp [Value.asNumber?] at hv
  cases c with
  | range r =>
    cases d with
    | range s =>
      obtain ⟨o, ho, hordered⟩ := Range.Ordered.narrow hc hd
      obtain rfl := Option.some.inj h
      refine ⟨o.map .range, by simp [ho, Except.map], fun e he => ?_⟩
      obtain ⟨t, ht, rfl⟩ := Option.mem_map.mp he
      have ht := hordered t ht
      exact ⟨ht, by simp [changeable?, fixed ht.least, fixed ht.greatest]⟩
    | _ => simp [Constraint.narrow?] at h
  | length l =>
    cases d with
    | length k =>
      obtain rfl := Option.some.inj h
      refine ⟨_, rfl, fun e he => ?_⟩
      obtain ⟨t, -, rfl⟩ := Option.mem_map.mp he
      exact ⟨trivial, rfl⟩
    | _ => simp [Constraint.narrow?] at h
  | _ => simp [Constraint.narrow?] at h

variable {cs ds : List Constraint} {Q : Fault → Prop}

theorem impliedBy_ends (hc : c.Sound) (hcs : ∀ d ∈ cs, d.Sound) : Ends (c.impliedBy cs) (fun _ => True) Q := by
  refine Ends.anyM fun d hd => ?_
  split_ifs
  · trivial
  · obtain ⟨b, hb⟩ := hc.covers (hcs d hd)
    rw [hb]
    trivial

theorem allAccept_ends (hooks : Hooks) (v : Value) (hcs : ∀ c ∈ cs, c.Sound) :
    Ends (allAccept hooks v cs) (fun _ => True) Q := by
  refine Ends.allM fun c hc => ?_
  obtain ⟨d, hd⟩ := (hcs c hc).check hooks v
  rw [hd]
  trivial

/-- A constraint that can be used: it is sound, and where no data that may change is quoted it can be part of a key. -/
structure Usable (quoted : Prop) (c : Constraint) : Prop where
  sound : c.Sound
  fixed : quoted ∨ c.changeable? = none

section Gathering

variable {quoted : Prop} {disjoint : Constraint → Constraint → Fault} (hdisjoint : ∀ c d, Q (disjoint c d))
include hdisjoint

theorem narrowInto_ends (hc : c.Usable quoted) (hcs : ∀ d ∈ cs, d.Usable quoted) :
    Ends (narrowInto disjoint c cs) (fun o => ∀ es ∈ o, ∀ e ∈ es, e.Usable quoted) Q := by
  induction cs with
  | nil => exact nofun
  | cons d cs ih =>
    obtain ⟨hd, hcs⟩ := List.forall_mem_cons.mp hcs
    unfold narrowInto
    cases hn : d.narrow? c with
    | none =>
      refine (ih hcs).bind fun o ho es hes => ?_
      obtain ⟨fs, hfs, rfl⟩ := Option.mem_map.mp hes
      exact List.forall_mem_cons.mpr ⟨hd, ho fs hfs⟩
    | some x =>
      obtain ⟨o, rfl, ho⟩ := hd.sound.narrow? hc.sound hn
      cases o with
      | none => exact hdisjoint d c
      | some e =>
        rintro _ ⟨⟩
        exact List.forall_mem_cons.mpr ⟨⟨(ho e rfl).1, Or.inr (ho e rfl).2⟩, hcs⟩

/-- Gathering usable constraints stops with nothing but an error of disjoint bounds. -/
theorem gatherAll_ends (hcs : ∀ c ∈ cs, c.Usable quoted) :
    Ends (cs.foldlM (gather disjoint) []) (fun gs => ∀ g ∈ gs, g.Usable quoted) Q := by
  refine Ends.foldlM (I := fun _ (gs : List Constraint) => ∀ g ∈ gs, g.Usable quoted) (by simp)
    fun seen c rest known hsplit hknown => ?_
  have hc : c.Usable quoted := hcs c (by simp [hsplit])
  refine (narrowInto_ends hdisjoint hc hknown).bind fun o ho => ?_
  cases o with
  | some es => exact ho es rfl
  | none =>
    show ∀ g ∈ if known.any fun d => d.same c then known else known ++ [c], g.Usable quoted
    split_ifs
    · exact hknown
    · exact List.forall_mem_append.mpr ⟨hknown, by simpa using hc⟩

end Gathering

end Constraint
end Schemata
