import Schemata.Proofs.Schema.Likeness
import Schemata.Proofs.Value.Hashable

/-! Schemas with values that can be part of a key. Equality of such schemas is an equivalence, and schemas of all
kinds are alike as keys when their values are the same ones, or can be part of a key and are equal. -/
namespace Schemata

/-- One and the same thing, or two things of a kind that are equal. -/
def Exchange {α : Type} (H : α → Prop) (E : α → α → Prop) (a b : α) : Prop := a = b ∨ (H a ∧ H b) ∧ E a b

namespace Exchange

variable {α : Type} {H : α → Prop} {E : α → α → Prop} {a b c : α}

theorem symm (hE : ∀ a b, H a → H b → E a b → E b a) (h : Exchange H E a b) : Exchange H E b a := by
  rcases h with rfl | ⟨⟨ha, hb⟩, h⟩
  · exact Or.inl rfl
  · exact Or.inr ⟨⟨hb, ha⟩, hE a b ha hb h⟩

theorem trans (hE : ∀ a b c, H a → H b → H c → E a b → E b c → E a c) (h : Exchange H E a b)
    (k : Exchange H E b c) : Exchange H E a c := by
  rcases h with rfl | ⟨⟨ha, hb⟩, h⟩
  · exact k
  · rcases k with rfl | ⟨⟨-, hc⟩, k⟩
    · exact Or.inr ⟨⟨ha, hb⟩, h⟩
    · exact Or.inr ⟨⟨ha, hc⟩, hE a b c ha hb hc h k⟩

/-- What holds of all things of the kind holds of both sides or of none. -/
theorem iff {P : α → Prop} (hP : ∀ a, H a → P a) (h : Exchange H E a b) : P a ↔ P b := by
  rcases h with rfl | ⟨⟨ha, hb⟩, -⟩
  · exact Iff.rfl
  · exact iff_of_true (hP a ha) (hP b hb)

end Exchange

namespace Value

/-- The value equals itself, and it can be part of a key unless something inside it may change. Only what is written
like nothing that exists is otherwise, such as a knot around nothing that may change. -/
def IsRegular (v : Value) : Prop := v.same v = true ∧ (v.changeable? = none → v.isHashable = true)

theorem isHashable_of_scalar {v : Value} (h : v.isScalar = true) : v.isHashable = true := by
  cases v <;> first | rfl | exact absurd h Bool.false_ne_true

theorem isRegular_of_hashable {v : Value} (h : v.isHashable = true) : v.IsRegular :=
  ⟨same_self_of_hashable h, fun _ => h⟩

/-- Equal values of one domain. -/
def Equals (v w : Value) : Prop := v.same w = true ∧ v.domain = w.domain

theorem Equals.symm {v w : Value} (hv : v.isHashable = true) (hw : w.isHashable = true) (h : v.Equals w) : w.Equals v :=
  ⟨same_symm_of_hashable hv hw h.1, h.2.symm⟩

theorem Equals.trans {u v w : Value} (hu : u.isHashable = true) (hv : v.isHashable = true) (hw : w.isHashable = true)
    (h : u.Equals v) (k : v.Equals w) : u.Equals w := ⟨same_trans_of_hashable hu hv hw h.1 k.1, h.2.trans k.2⟩

end Value

namespace Constraint

/-- The values that are written in a constraint. -/
def values : Constraint → List Value
  | .range r => r.least.toList ++ r.greatest.toList
  | .equals v => [v]
  | _ => []

def IsHashable (c : Constraint) : Prop := ∀ v ∈ c.values, v.isHashable = true

def IsRegular (c : Constraint) : Prop := ∀ v ∈ c.values, v.IsRegular

theorem isRegular_of_hashable {c : Constraint} (h : c.IsHashable) : c.IsRegular := fun v hv =>
  Value.isRegular_of_hashable (h v hv)

theorem isHashable_of_plain {c : Constraint} (h : c.Plain) : c.IsHashable := by
  cases c with
  | range r =>
    have bound : ∀ {o : Option Value}, (∀ b ∈ o, ∃ p, b.point? = some p) → ∀ v ∈ o.toList, v.isHashable = true := by
      intro o ho v hv
      obtain ⟨p, hp⟩ := ho v (Option.mem_toList.mp hv)
      cases v <;> first | rfl | exact absurd hp nofun
    intro v hv
    rcases List.mem_append.mp hv with hv | hv
    · exact bound h.1 v hv
    · exact bound h.2 v hv
  | equals v => exact h.elim
  | _ => exact List.forall_mem_nil _

theorem sameBound_euclidean {k o p : Option Value} (ho : ∀ v ∈ o.toList, v.isHashable = true)
    (hp : ∀ v ∈ p.toList, v.isHashable = true) (h : sameBound k o = true) (h' : sameBound k p = true) :
    sameBound o p = true := by
  cases k <;> cases o <;> cases p <;> simp only [sameBound, Bool.false_eq_true] at h h' ⊢
  exact Value.same_euclidean (ho _ (by simp)) (hp _ (by simp)) h h'

theorem same_euclidean {k c d : Constraint} (hc : c.IsHashable) (hd : d.IsHashable) (h : k.same c = true)
    (h' : k.same d = true) : c.same d = true := by
  cases k <;> cases c <;> simp only [same, Bool.false_eq_true, beq_iff_eq] at h <;>
    cases d <;> simp only [same, Bool.false_eq_true, beq_iff_eq] at h'
  case range.range.range r q p =>
    simp only [Range.same, Bool.and_eq_true, beq_iff_eq] at h h'
    have hleast : sameBound q.least p.least = true :=
      sameBound_euclidean (fun v hv => hc v (List.mem_append_left _ hv)) (fun v hv => hd v (List.mem_append_left _ hv))
        h.1.1.1 h'.1.1.1
    have hgreatest : sameBound q.greatest p.greatest = true :=
      sameBound_euclidean (fun v hv => hc v (List.mem_append_right _ hv))
        (fun v hv => hd v (List.mem_append_right _ hv)) h.1.1.2 h'.1.1.2
    simp [same, Range.same, hleast, hgreatest, ← h.1.2, ← h'.1.2, ← h.2, ← h'.2]
  case equals.equals.equals =>
    exact Value.same_euclidean (hc _ (List.mem_singleton.mpr rfl)) (hd _ (List.mem_singleton.mpr rfl)) h h'
  all_goals simp [same, ← h, ← h']

theorem same_self_of_values {c : Constraint} (h : ∀ v ∈ c.values, v.same v = true) : c.same c = true := by
  have bound : ∀ {o : Option Value}, (∀ v ∈ o.toList, v.same v = true) → sameBound o o = true := by
    intro o ho
    cases o with
    | none => rfl
    | some v => exact ho v (by simp)
  cases c with
  | range r =>
    simp [same, Range.same, bound fun v hv => h v (List.mem_append_left _ hv),
      bound fun v hv => h v (List.mem_append_right _ hv)]
  | equals v => exact h v (List.mem_singleton.mpr rfl)
  | _ => simp [same]

theorem same_symm_of_hashable {c d : Constraint} (hc : c.IsHashable) (hd : d.IsHashable) (h : c.same d = true) :
    d.same c = true :=
  same_euclidean hd hc h (same_self_of_values fun v hv => Value.same_self_of_hashable (hc v hv))

theorem same_trans_of_hashable {c d e : Constraint} (hc : c.IsHashable) (hd : d.IsHashable) (he : e.IsHashable)
    (h : c.same d = true) (k : d.same e = true) : c.same e = true :=
  same_euclidean hc he (same_symm_of_hashable hc hd h) k

theorem values_changeable {c : Constraint} (h : c.changeable? = none) : ∀ v ∈ c.values, v.changeable? = none := by
  cases c with
  | range r =>
    simp only [changeable?, Option.or_eq_none_iff, Option.bind_eq_none_iff] at h
    intro v hv
    rcases List.mem_append.mp hv with hv | hv
    · exact h.1 v (Option.mem_toList.mp hv)
    · exact h.2 v (Option.mem_toList.mp hv)
  | equals v => exact fun w hw => List.mem_singleton.mp hw ▸ h
  | _ => exact List.forall_mem_nil _

end Constraint

namespace Likeness

/-- Alike as parts of keys. -/
def keyed : Likeness :=
  ⟨Exchange (fun v => v.isHashable = true) Value.Equals, Exchange Constraint.IsHashable fun c d => c.same d = true,
    fun p q => p.same q = true, fun _ => True⟩

theorem keyed_domain {v w : Value} (h : keyed.literal v w) : v.domain = w.domain := by
  rcases h with rfl | ⟨-, -, h⟩
  · rfl
  · exact h

theorem keyed_flip : keyed.flip.Within keyed := by
  refine ⟨fun v w h => ?_, fun c d h => ?_, fun p q h => ?_, fun r h => h⟩
  · exact Exchange.symm (E := Value.Equals) (fun _ _ => Value.Equals.symm) h
  · exact Exchange.symm (H := Constraint.IsHashable) (fun _ _ => Constraint.same_symm_of_hashable) h
  · simp only [keyed, flip, Producer.same, beq_iff_eq] at h ⊢
    exact h.symm

theorem keyed_comp : (keyed.comp keyed).Within keyed := by
  refine ⟨?_, ?_, ?_, fun r h => h.1⟩
  · rintro u w ⟨v, h, k⟩
    exact Exchange.trans (E := Value.Equals) (fun _ _ _ => Value.Equals.trans) h k
  · rintro c e ⟨d, h, k⟩
    exact Exchange.trans (H := Constraint.IsHashable) (fun _ _ _ => Constraint.same_trans_of_hashable) h k
  · rintro p r ⟨q, h, k⟩
    simp only [keyed, Producer.same, beq_iff_eq] at h k ⊢
    exact h.trans k

end Likeness

namespace Schema

/-- The values that are written at a node. -/
def values : Schema → List Value
  | .literal v => [v]
  | .constrained _ cs => cs.flatMap Constraint.values
  | _ => []

/-- Everything that is written in the schema can be part of a key. -/
def IsHashable (s : Schema) : Prop := s.Every fun t => ∀ v ∈ t.values, v.isHashable = true

def IsRegular (s : Schema) : Prop := s.Every fun t => ∀ v ∈ t.values, v.IsRegular

variable {s t u : Schema}

theorem changeable?_eq_none (h : s.changeable? = none) :
    (∀ v ∈ s.values, v.changeable? = none) ∧ ∀ t ∈ s.parts, t.changeable? = none := by
  cases s with
  | keyword k => exact ⟨List.forall_mem_nil _, List.forall_mem_nil _⟩
  | literal v => exact ⟨fun w hw => List.mem_singleton.mp hw ▸ h, List.forall_mem_nil _⟩
  | constrained s cs =>
    simp only [changeable?, Option.or_eq_none_iff, anyConstraintChangeable?_eq_none] at h
    refine ⟨fun v hv => ?_, fun t ht => List.mem_singleton.mp ht ▸ h.1⟩
    obtain ⟨c, hc, hv⟩ := List.mem_flatMap.mp hv
    exact Constraint.values_changeable (h.2 c hc) v hv
  | union bs => exact ⟨List.forall_mem_nil _, anyChangeable?_eq_none.mp h⟩
  | intersection ms => exact ⟨List.forall_mem_nil _, anyChangeable?_eq_none.mp h⟩
  | ref r => exact ⟨List.forall_mem_nil _, List.forall_mem_nil _⟩
  | object o =>
    obtain ⟨ps, i, u⟩ := o
    simp only [changeable?, Option.or_eq_none_iff, anyPropertyChangeable?_eq_none, indexChangeable?_eq_none] at h
    refine ⟨List.forall_mem_nil _, fun t ht => ?_⟩
    rcases List.mem_append.mp ht with ht | ht
    · obtain ⟨p, hp, rfl⟩ := List.mem_map.mp ht
      exact h.1 p hp
    · exact h.2 t ht
  | tuple es =>
    refine ⟨List.forall_mem_nil _, fun t ht => ?_⟩
    obtain ⟨e, he, rfl⟩ := List.mem_map.mp ht
    exact anyElementChangeable?_eq_none.mp h e he

theorem IsRegular.hashable (h : s.IsRegular) (hs : s.changeable? = none) : s.IsHashable := by
  induction h with
  | intro hv _ ih =>
    obtain ⟨hvalues, hparts⟩ := changeable?_eq_none hs
    exact .intro (fun v hmem => (hv v hmem).2 (hvalues v hmem)) fun t ht => ih t ht (hparts t ht)

namespace Alike

theorem keyed_refl (s : Schema) : Alike .keyed s s :=
  .self (fun _ => Or.inl rfl) (fun _ => Or.inl rfl) (fun p => by simp [Likeness.keyed, Producer.same])
    (.all fun _ _ _ => trivial)

theorem keyed_symm (h : Alike .keyed s t) : Alike .keyed t s := h.flip.within Likeness.keyed_flip

theorem keyed_trans (h : Alike .keyed s t) (k : Alike .keyed t u) : Alike .keyed s u :=
  (h.comp k).within Likeness.keyed_comp

/-- Equal schemas that can be part of a key are alike as keys. -/
theorem keyed_of_same (hs : s.IsHashable) (ht : t.IsHashable) (h : s.same t = true) : Alike .keyed s t := by
  refine (alike_of_same h).change hs ht fun s t hs ht hform => hform.change ?_ ?_ (fun _ _ _ _ h => h) fun _ _ h => h
  · rintro v w rfl rfl h
    exact Or.inr ⟨⟨hs v (by simp [values]), ht w (by simp [values])⟩, h⟩
  · intro c hc d hd h
    have hashable : ∀ {s : Schema} {c : Constraint}, (∀ v ∈ s.values, v.isHashable = true) → c ∈ s.split.2 →
        c.IsHashable := by
      intro s c hs hc v hv
      cases s with
      | constrained s cs => exact hs v (List.mem_flatMap.mpr ⟨c, hc, hv⟩)
      | _ => exact absurd hc List.not_mem_nil
    exact Or.inr ⟨⟨hashable hs hc, hashable ht hd⟩, h⟩

end Alike

theorem regular_constrained {cs : List Constraint} :
    (∀ v ∈ (constrained s cs).values, v.IsRegular) ↔ ∀ c ∈ cs, c.IsRegular := by
  simp only [values, List.mem_flatMap]
  exact ⟨fun h c hc v hv => h v ⟨c, hc, hv⟩, fun h v ⟨c, hc, hv⟩ => h c hc v hv⟩

/-- What is alike as a key to something regular is regular. -/
theorem isRegular_of_keyed (h : Alike .keyed s t) : s.IsRegular ↔ t.IsRegular := by
  have hall : ∀ {cs ds : List Constraint}, List.Forall₂ Likeness.keyed.constraint cs ds →
      ((∀ c ∈ cs, c.IsRegular) ↔ ∀ d ∈ ds, d.IsRegular) := by
    intro cs ds h
    induction h with
    | nil => simp
    | cons hcd _ ih =>
      rw [List.forall_mem_cons, List.forall_mem_cons, ih]
      exact and_congr_left fun _ =>
        Exchange.iff (E := fun c d : Constraint => c.same d = true) (fun _ => Constraint.isRegular_of_hashable) hcd
  refine h.every_iff fun s t hform => ?_
  cases s <;> cases t <;> simp only [Form] at hform
  case literal.literal =>
    simpa [values] using Exchange.iff (P := Value.IsRegular) (E := Value.Equals)
      (fun _ => Value.isRegular_of_hashable) hform
  case constrained.constrained => exact regular_constrained.trans ((hall hform).trans regular_constrained.symm)
  all_goals exact iff_of_true (List.forall_mem_nil _) (List.forall_mem_nil _)

/-- What is alike as a key to something regular equals it. -/
theorem same_of_keyed (h : Alike .keyed s t) (ht : t.IsRegular) : s.same t = true := by
  have hs : s.IsRegular := (isRegular_of_keyed h).mpr ht
  refine same_of_alike (h.change hs ht fun s t hs ht hform => hform.change ?_ ?_ (fun _ _ _ _ h => h) fun _ _ h => h)
  · rintro v w rfl rfl h
    rcases h with rfl | ⟨-, h⟩
    · exact ⟨(hs v (by simp [values])).1, rfl⟩
    · exact h
  · intro c hc d hd h
    rcases h with rfl | ⟨-, h⟩
    · refine Constraint.same_self_of_values fun v hv => ?_
      cases s with
      | constrained s cs => exact (hs v (List.mem_flatMap.mpr ⟨c, hc, hv⟩)).1
      | _ => exact absurd hc List.not_mem_nil
    · exact h

theorem IsHashable.regular (h : s.IsHashable) : s.IsRegular :=
  h.mono fun _ ht v hv => Value.isRegular_of_hashable (ht v hv)

theorem same_symm_of_hashable (hs : s.IsHashable) (ht : t.IsHashable) (h : s.same t = true) : t.same s = true :=
  same_of_keyed (Alike.keyed_of_same hs ht h).keyed_symm hs.regular

theorem same_trans_of_hashable (hs : s.IsHashable) (ht : t.IsHashable) (hu : u.IsHashable) (h : s.same t = true)
    (k : t.same u = true) : s.same u = true :=
  same_of_keyed ((Alike.keyed_of_same hs ht h).keyed_trans (Alike.keyed_of_same ht hu k)) hu.regular

section Fragment

variable {d : Dialect}

/-- The literals of a fragment are scalars, and its constraints are written with numbers only. -/
theorem isHashable_of_fits (h : s.Every (Fits d)) : s.IsHashable := by
  refine h.mono fun t ht v hv => ?_
  cases t with
  | literal w => exact List.mem_singleton.mp hv ▸ Value.isHashable_of_scalar ht
  | constrained t cs =>
    obtain ⟨c, hc, hv⟩ := List.mem_flatMap.mp hv
    exact Constraint.isHashable_of_plain (ht c hc) v hv
  | _ => exact absurd hv List.not_mem_nil

theorem same_symm (hs : s.Every (Fits d)) (ht : t.Every (Fits d)) (h : s.same t = true) : t.same s = true :=
  same_symm_of_hashable (isHashable_of_fits hs) (isHashable_of_fits ht) h

theorem same_trans (hs : s.Every (Fits d)) (ht : t.Every (Fits d)) (hu : u.Every (Fits d)) (h : s.same t = true)
    (k : t.same u = true) : s.same u = true :=
  same_trans_of_hashable (isHashable_of_fits hs) (isHashable_of_fits ht) (isHashable_of_fits hu) h k

end Fragment

end Schema
end Schemata
