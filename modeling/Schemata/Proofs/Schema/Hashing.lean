import Schemata.Algebra.Subset
import Schemata.Proofs.Constraint.Line
import Schemata.Proofs.Schema.Parts
import Schemata.Proofs.Value.Labels

/-! What can be part of a key: values, constraints and schemas without a container that may change. Each is the same
as itself, so a pair that was put in a list of pairs is found there again. -/
namespace Schemata

theorem Number.same_self (n : Number) : n.same n = true := by
  rw [same_iff]
  cases hp : n.point? with
  | none => exact Or.inr ⟨rfl, rfl⟩
  | some p => exact Or.inl ⟨p, rfl, rfl⟩

namespace Value

theorem anyChangeable?_eq_none {vs : List Value} : anyChangeable? vs = none ↔ ∀ v ∈ vs, v.changeable? = none := by
  induction vs with
  | nil => simp [anyChangeable?]
  | cons v vs ih => simp [anyChangeable?, ih]

theorem sameAll_self {vs : List Value} (h : ∀ v ∈ vs, v.same v = true) : sameAll vs vs = true := by
  induction vs with
  | nil => rfl
  | cons v vs ih =>
    rw [List.forall_mem_cons] at h
    simp [sameAll, h.1, ih h.2]

theorem same_self {v : Value} (h : v.changeable? = none) : v.same v = true := by
  induction v using induction_on_parts with
  | _ v ih =>
    have parts : anyChangeable? v.parts = none → sameAll v.parts v.parts = true := fun h =>
      sameAll_self fun w hw => ih w hw (anyChangeable?_eq_none.mp h w hw)
    cases v with
    | list xs => simp [changeable?] at h
    | mapping es => simp [changeable?] at h
    | back l c => cases c <;> simp [changeable?] at h
    | tuple l xs => exact parts h
    | record kind token xs =>
      cases token with
      | none =>
        have hparts : sameAll xs xs = true := parts h
        simp [same, hparts]
      | some t => simp [same]
    | knot l body => simp [same, label?]
    | bool b => simp [same, numberSame, asNumber?, Number.same_self]
    | number n => simp [same, numberSame, asNumber?, Number.same_self]
    | _ => simp [same]

end Value

namespace Constraint

theorem same_self {c : Constraint} (h : c.changeable? = none) : c.same c = true := by
  have bound : ∀ {o : Option Value}, o.bind (·.changeable?) = none → sameBound o o = true := by
    intro o ho
    cases o with
    | none => rfl
    | some v => exact Value.same_self ho
  cases c with
  | range r =>
    simp only [changeable?, Option.or_eq_none_iff] at h
    simp [same, Range.same, bound h.1, bound h.2]
  | equals v => exact Value.same_self h
  | _ => simp [same]

theorem sameAll_self {cs : List Constraint} (h : Schema.anyConstraintChangeable? cs = none) : sameAll cs cs = true := by
  induction cs with
  | nil => rfl
  | cons c cs ih =>
    simp only [Schema.anyConstraintChangeable?, Option.or_eq_none_iff] at h
    simp [sameAll, same_self h.1, ih h.2]

end Constraint

theorem Presence.same_self (p : Presence) : p.same p = true := by cases p <;> simp [same, Producer.same]

theorem Role.same_self (r : Role) : r.same r = true := by cases r <;> simp [same, Producer.same]

namespace Schema

variable {a b s : Schema} {pairs : List (Schema × Schema)}

theorem anyChangeable?_eq_none {ss : List Schema} : anyChangeable? ss = none ↔ ∀ s ∈ ss, s.changeable? = none := by
  induction ss with
  | nil => simp [anyChangeable?]
  | cons s ss ih => simp [anyChangeable?, ih]

theorem anyConstraintChangeable?_eq_none {cs : List Constraint} :
    anyConstraintChangeable? cs = none ↔ ∀ c ∈ cs, c.changeable? = none := by
  induction cs with
  | nil => simp [anyConstraintChangeable?]
  | cons c cs ih => simp [anyConstraintChangeable?, ih]

theorem anyPropertyChangeable?_eq_none {ps : List (Property Schema)} :
    anyPropertyChangeable? ps = none ↔ ∀ p ∈ ps, p.value.changeable? = none := by
  induction ps with
  | nil => simp [anyPropertyChangeable?]
  | cons p ps ih => simp [anyPropertyChangeable?, ih]

theorem anyElementChangeable?_eq_none {es : List (Element Schema)} :
    anyElementChangeable? es = none ↔ ∀ e ∈ es, e.value.changeable? = none := by
  induction es with
  | nil => simp [anyElementChangeable?]
  | cons e es ih => simp [anyElementChangeable?, ih]

theorem indexChangeable?_eq_none {i : Option (IndexSignature Schema)} :
    indexChangeable? i = none ↔ ∀ t ∈ IndexSignature.parts i, t.changeable? = none := by
  cases i <;> simp [indexChangeable?, IndexSignature.parts]

theorem sameAll_self {ss : List Schema} (h : ∀ s ∈ ss, s.same s = true) : sameAll ss ss = true := by
  induction ss with
  | nil => rfl
  | cons s ss ih =>
    rw [List.forall_mem_cons] at h
    simp [sameAll, h.1, ih h.2]

theorem sameProperties_self {ps : List (Property Schema)} (h : ∀ p ∈ ps, p.value.same p.value = true) :
    sameProperties ps ps = true := by
  induction ps with
  | nil => rfl
  | cons p ps ih =>
    rw [List.forall_mem_cons] at h
    simp [sameProperties, h.1, ih h.2, Presence.same_self]

theorem sameElements_self {es : List (Element Schema)} (h : ∀ e ∈ es, e.value.same e.value = true) :
    sameElements es es = true := by
  induction es with
  | nil => rfl
  | cons e es ih =>
    rw [List.forall_mem_cons] at h
    simp [sameElements, h.1, ih h.2, Role.same_self]

theorem sameIndex_self {i : Option (IndexSignature Schema)} (h : ∀ t ∈ IndexSignature.parts i, t.same t = true) :
    sameIndex i i = true := by
  cases i with
  | none => rfl
  | some i => simpa [sameIndex, IndexSignature.parts] using h

theorem same_self (h : s.changeable? = none) : s.same s = true := by
  induction s using induction_on_parts with
  | _ s ih =>
    cases s with
    | keyword k => simp [same]
    | literal v => simp [same, Value.same_self h]
    | constrained s cs =>
      simp only [changeable?, Option.or_eq_none_iff] at h
      simp [same, ih s (by simp [parts]) h.1, Constraint.sameAll_self h.2]
    | union bs => exact sameAll_self fun s hs => ih s hs (anyChangeable?_eq_none.mp h s hs)
    | intersection ms => exact sameAll_self fun s hs => ih s hs (anyChangeable?_eq_none.mp h s hs)
    | ref r => simp [same]
    | object o =>
      obtain ⟨ps, i, u⟩ := o
      simp only [changeable?, Option.or_eq_none_iff, anyPropertyChangeable?_eq_none, indexChangeable?_eq_none] at h
      have hps : sameProperties ps ps = true := sameProperties_self fun p hp =>
        ih _ (List.mem_append_left _ (List.mem_map_of_mem hp)) (h.1 p hp)
      have hi : sameIndex i i = true := sameIndex_self fun t ht => ih t (List.mem_append_right _ ht) (h.2 t ht)
      simp [same, hps, hi]
    | tuple es =>
      exact sameElements_self fun e he => ih _ (List.mem_map_of_mem he) (anyElementChangeable?_eq_none.mp h e he)

theorem changeable?_of_hashable (h : a.hashable b = .ok ()) : a.changeable? = none ∧ b.changeable? = none := by
  unfold hashable at h
  cases hor : a.changeable?.or b.changeable? with
  | none => simpa using hor
  | some typeName => simp [hor] at h

/-- A pair that can be part of a key is found in every list that has it. -/
theorem pairIn_of_mem (h : a.hashable b = .ok ()) (hmem : (a, b) ∈ pairs) : a.pairIn b pairs = true := by
  obtain ⟨ha, hb⟩ := changeable?_of_hashable h
  exact List.any_eq_true.mpr ⟨(a, b), hmem, by simp [same_self ha, same_self hb]⟩

end Schema
end Schemata
