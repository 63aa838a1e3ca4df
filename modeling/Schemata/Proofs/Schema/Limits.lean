import Schemata.Proofs.Schema.References

/-! Limits on the references that may stand in a schema and on the keys of its index signatures. -/
namespace Schemata

/-- The references that a schema may use, and the keys that its index signatures may have. -/
structure Limits where
  ref : Ref → Prop
  key : Schema → Prop

/-- A single node keeps to the limits. -/
def Limits.Node (l : Limits) : Schema → Prop
  | .ref r => l.ref r
  | .object o => ∀ i, o.index = some i → l.key i.key
  | _ => True

namespace Schema

variable {l : Limits} {s t : Schema}

/-- All nodes of the schema keep to the limits. -/
def Within (l : Limits) (s : Schema) : Prop := s.Every l.Node

namespace Within

theorem mono {l' : Limits} (h : s.Within l) (href : ∀ r, l.ref r → l'.ref r) (hkey : ∀ k, l.key k → l'.key k) :
    s.Within l' := by
  refine Every.mono (fun t ht => ?_) h
  cases t with
  | ref r => exact href r ht
  | object o => exact fun i hi => hkey i.key (ht i hi)
  | _ => trivial

theorem part (h : s.Within l) (ht : t ∈ s.parts) : t.Within l := Every.part h ht

/-- Limits on references can be joined to others. -/
theorem into {S : Ref → Prop} (h : s.Within l) (hS : s.Into S) : s.Within ⟨fun r => l.ref r ∧ S r, l.key⟩ := by
  refine (Every.and h hS).mono fun t ht => ?_
  cases t with
  | ref r => exact ⟨ht.1, ht.2 r rfl⟩
  | object o => exact ht.1
  | _ => trivial

end Within

theorem into_iff_within {S : Ref → Prop} : s.Into S ↔ s.Within ⟨S, fun _ => True⟩ := by
  constructor
  · refine Every.mono fun t ht => ?_
    cases t with
    | ref r => exact ht r rfl
    | _ => simp [Limits.Node]
  · rintro h
    refine Every.mono (fun t ht r hr => ?_) h
    subst hr
    exact ht

@[simp] theorem within_ref {r : Ref} : (ref r).Within l ↔ l.ref r :=
  ⟨Every.root, fun h => .intro h (by simp [parts])⟩

@[simp] theorem within_keyword {k : Keyword} : (keyword k).Within l := .intro trivial (by simp [parts])

@[simp] theorem within_literal {v : Value} : (literal v).Within l := .intro trivial (by simp [parts])

@[simp] theorem within_constrained {cs : List Constraint} : (constrained s cs).Within l ↔ s.Within l :=
  ⟨fun h => h.base, fun h => .intro trivial (List.forall_mem_singleton.mpr h)⟩

@[simp] theorem within_union {bs : List Schema} : (union bs).Within l ↔ ∀ b ∈ bs, b.Within l :=
  ⟨fun h _ hb => h.branch hb, fun h => .intro trivial h⟩

@[simp] theorem within_intersection {ms : List Schema} : (intersection ms).Within l ↔ ∀ m ∈ ms, m.Within l :=
  ⟨fun h _ hm => h.member hm, fun h => .intro trivial h⟩

@[simp] theorem within_tuple {es : List (Element Schema)} : (tuple es).Within l ↔ ∀ e ∈ es, e.value.Within l :=
  ⟨fun h _ he => h.element he, fun h => .intro trivial (List.forall_mem_map.mpr h)⟩

@[simp] theorem within_array : (array s).Within l ↔ s.Within l := by simp [array]

@[simp] theorem within_never : never.Within l := by simp [never]

end Schema

/-- An index signature keeps to the limits, its key among them. -/
structure IndexSignature.Within (l : Limits) (i : IndexSignature Schema) : Prop where
  key : i.key.Within l
  value : i.value.Within l
  allowed : l.key i.key

/-- The parts of an object keep to the limits. -/
structure ObjectShape.Within (l : Limits) (o : ObjectShape Schema) : Prop where
  properties : ∀ p ∈ o.properties, p.value.Within l
  index : ∀ i, o.index = some i → i.Within l

namespace Schema

variable {l : Limits} {s t : Schema}

@[simp] theorem within_object {o : ObjectShape Schema} : (object o).Within l ↔ o.Within l := by
  constructor
  · refine fun h => ⟨fun p hp => h.property hp, fun i hi => ⟨?_, ?_, h.root i hi⟩⟩
    · exact h.part (List.mem_append_right _ (by simp [IndexSignature.parts, hi]))
    · exact h.part (List.mem_append_right _ (by simp [IndexSignature.parts, hi]))
  · refine fun h => .intro (fun i hi => (h.index i hi).allowed)
      (List.forall_mem_append.mpr ⟨List.forall_mem_map.mpr h.properties, fun t ht => ?_⟩)
    cases hi : o.index with
    | none => simp [IndexSignature.parts, hi] at ht
    | some i =>
      obtain rfl | rfl : t = i.key ∨ t = i.value := by simpa [IndexSignature.parts, hi] using ht
      · exact (h.index i hi).key
      · exact (h.index i hi).value

/-- Equal schemas keep to the same limits where these do not tell equal keys apart. -/
theorem within_of_alike (hl : ∀ k k', Alike .equality k k' → (l.key k ↔ l.key k')) (h : Alike .equality s t) :
    s.Within l ↔ t.Within l := by
  have split : ∀ s : Schema, s.Within l ↔ l.Node s ∧ ∀ t ∈ s.parts, t.Within l := fun s =>
    ⟨fun h => ⟨h.root, fun _ => h.part⟩, fun h => .intro h.1 h.2⟩
  refine Alike.induct (P := fun s t => s.Within l ↔ t.Within l) (fun s t hf hparts => ?_) h
  have hnode : l.Node s ↔ l.Node t := by
    cases s <;> cases t <;> simp only [Form] at hf
    case ref.ref => rw [hf.1]
    case object.object o q =>
      obtain ⟨hproperties, hindex, -⟩ := hf
      have hkeys := ((forall₂_object_parts hproperties.length_eq hindex).mp hparts).2
      unfold Limits.Node
      dsimp only
      generalize o.index = i at hkeys ⊢
      generalize q.index = j at hkeys ⊢
      cases hkeys with
      | none => simp
      | some hij => simpa using hl _ _ hij.1.1
    all_goals exact Iff.rfl
  rw [split, split, hnode]
  exact and_congr_right fun _ => forall₂_all_iff hparts fun _ _ _ _ h => h.2

theorem within_constrain {cs : List Constraint} : (s.constrain cs).Within l ↔ s.Within l := by
  unfold constrain
  split <;> simp

theorem within_split (h : s.Within l) : s.split.1.Within l := by
  cases s <;> simp_all [split]

theorem within_members (h : s.Within l) : ∀ m ∈ s.members, m.Within l := by
  cases s <;> simp_all [members]

theorem within_distinct {ss : List Schema} (h : ∀ s ∈ ss, s.Within l) : ∀ s ∈ distinct ss, s.Within l :=
  every_distinct h

end Schema
end Schemata
