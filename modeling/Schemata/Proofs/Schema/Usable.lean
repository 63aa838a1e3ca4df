import Schemata.Proofs.Algebra.Inheritance
import Schemata.Proofs.Algebra.Intersection
import Schemata.Proofs.Schema.Hashing
import Schemata.Proofs.Validation.Totality

/-! Schemas that can be used. Their constraints are sound, their constants can be copied, and their literals and
constraints can be part of a key unless data that may change was quoted. -/
namespace Schemata

/-- A constant can be copied. -/
abbrev Producer.Copyable (p : Producer) : Prop := p.isFactory = false → p.source.isCopyable = true

namespace Schema

variable {quoted : Prop} {s t : Schema}

/-- What stands at the node itself can be part of a key. -/
def Fixed : Schema → Prop
  | .literal v => v.changeable? = none
  | .constrained _ cs => ∀ c ∈ cs, c.changeable? = none
  | _ => True

theorem changeable?_of_fixed (h : s.Every Fixed) : s.changeable? = none := by
  induction h with
  | @intro s hs _ ih =>
    cases s with
    | literal v => exact hs
    | constrained s cs =>
      simp [changeable?, ih s (by simp [parts]), anyConstraintChangeable?_eq_none.mpr hs]
    | union bs => exact anyChangeable?_eq_none.mpr ih
    | intersection ms => exact anyChangeable?_eq_none.mpr ih
    | object o =>
      obtain ⟨ps, i, u⟩ := o
      have hps : anyPropertyChangeable? ps = none := anyPropertyChangeable?_eq_none.mpr fun p hp =>
        ih _ (List.mem_append_left _ (List.mem_map_of_mem hp))
      have hi : indexChangeable? i = none := indexChangeable?_eq_none.mpr fun t ht => ih t (List.mem_append_right _ ht)
      simp [changeable?, hps, hi]
    | tuple es =>
      exact anyElementChangeable?_eq_none.mpr fun e he => ih _ (List.mem_map_of_mem he)
    | _ => rfl

/-- The node's constraints are sound, its constants can be copied, and it can be part of a key unless data that may
change was quoted. -/
structure UsableNode (quoted : Prop) (s : Schema) : Prop where
  sound : s.Sound
  copyable : s.Copyable
  fixed : quoted ∨ s.Fixed

/-- Every node can be used. -/
abbrev Usable (quoted : Prop) (s : Schema) : Prop := s.Every (UsableNode quoted)

/-- Without quoted data a usable schema can be part of a key. -/
theorem Usable.changeable? (h : s.Usable quoted) : quoted ∨ s.changeable? = none := by
  by_cases hquoted : quoted
  · exact Or.inl hquoted
  · exact Or.inr (changeable?_of_fixed (h.mono fun t ht => ht.fixed.resolve_left hquoted))

/-- A node without constraints, defaults and data of its own. -/
theorem usableNode_of_bare (h : s.Sound ∧ s.defaults = [] ∧ s.Fixed) : s.UsableNode quoted :=
  ⟨h.1, by simp [Copyable, h.2.1], Or.inr h.2.2⟩

@[simp] theorem usable_keyword {k : Keyword} : (keyword k).Usable quoted :=
  .intro (usableNode_of_bare ⟨trivial, rfl, trivial⟩) nofun

@[simp] theorem usable_ref {r : Ref} : (ref r).Usable quoted :=
  .intro (usableNode_of_bare ⟨trivial, rfl, trivial⟩) nofun

@[simp] theorem usable_literal {v : Value} : (literal v).Usable quoted ↔ quoted ∨ v.changeable? = none :=
  ⟨fun h => h.root.fixed, fun h => .intro ⟨trivial, by simp [Copyable, defaults], h⟩ nofun⟩

@[simp] theorem usable_union {bs : List Schema} : (union bs).Usable quoted ↔ ∀ b ∈ bs, b.Usable quoted :=
  ⟨fun h _ hb => h.part hb, fun h => .intro (usableNode_of_bare ⟨trivial, rfl, trivial⟩) h⟩

theorem usable_never : never.Usable quoted := by simp [never]

@[simp] theorem usable_intersection {ms : List Schema} :
    (intersection ms).Usable quoted ↔ ∀ m ∈ ms, m.Usable quoted :=
  ⟨fun h _ hm => h.part hm, fun h => .intro (usableNode_of_bare ⟨trivial, rfl, trivial⟩) h⟩

theorem usableNode_constrained {cs : List Constraint} :
    (constrained s cs).UsableNode quoted ↔ ∀ c ∈ cs, c.Usable quoted := by
  constructor
  · exact fun h c hc => ⟨h.sound c hc, h.fixed.imp_right fun hfixed => hfixed c hc⟩
  · refine fun h => ⟨fun c hc => (h c hc).sound, by simp [Copyable, defaults], ?_⟩
    by_cases hquoted : quoted
    · exact Or.inl hquoted
    · exact Or.inr fun c hc => (h c hc).fixed.resolve_left hquoted

theorem usable_constrain {cs : List Constraint} (hs : s.Usable quoted) (hcs : ∀ c ∈ cs, c.Usable quoted) :
    (s.constrain cs).Usable quoted := by
  refine every_constrain hs fun t ds _ hds => usableNode_constrained.mpr fun c hc => ?_
  rcases List.mem_append.mp (hds hc) with hc | hc
  · exact hcs c hc
  · cases s with
    | constrained base es => exact usableNode_constrained.mp hs.root c hc
    | _ => simp [split] at hc

theorem usable_split (hs : s.Usable quoted) : s.split.1.Usable quoted ∧ ∀ c ∈ s.split.2, c.Usable quoted := by
  cases s with
  | constrained base cs => exact ⟨hs.base, usableNode_constrained.mp hs.root⟩
  | _ => exact ⟨hs, nofun⟩

theorem usable_object {o : ObjectShape Schema} : (object o).Usable quoted ↔
    (∀ p ∈ o.properties, p.Made (Usable quoted) Producer.Copyable) ∧
      ∀ i, o.index = some i → i.key.Usable quoted ∧ i.value.Usable quoted := by
  constructor
  · refine fun h => ⟨fun p hp => ⟨h.property hp, fun d hd => ?_⟩, fun i hi => ⟨h.part ?_, h.part ?_⟩⟩
    · exact h.root.copyable d (List.mem_filterMap.mpr ⟨p, hp, hd⟩)
    all_goals exact List.mem_append_right _ (by simp [IndexSignature.parts, hi])
  · rintro ⟨hproperties, hindex⟩
    refine .intro ⟨trivial, fun d hd => ?_, Or.inr trivial⟩
      (List.forall_mem_append.mpr ⟨List.forall_mem_map.mpr fun p hp => (hproperties p hp).value, fun t ht => ?_⟩)
    · obtain ⟨p, hp, hd⟩ := List.mem_filterMap.mp hd
      exact (hproperties p hp).default d hd
    · cases hi : o.index with
      | none => simp [IndexSignature.parts, hi] at ht
      | some i =>
        obtain rfl | rfl : t = i.key ∨ t = i.value := by simpa [IndexSignature.parts, hi] using ht
        · exact (hindex i hi).1
        · exact (hindex i hi).2

theorem usable_tuple {es : List (Element Schema)} :
    (tuple es).Usable quoted ↔ ∀ e ∈ es, e.Made (Usable quoted) Producer.Copyable := by
  constructor
  · refine fun h e he => ⟨h.element he, fun d hd => ?_⟩
    exact h.root.copyable d (List.mem_filterMap.mpr ⟨e, he, hd⟩)
  · refine fun h => .intro ⟨trivial, fun d hd => ?_, Or.inr trivial⟩ (List.forall_mem_map.mpr fun e he => (h e he).value)
    obtain ⟨e, he, hd⟩ := List.mem_filterMap.mp hd
    exact (h e he).default d hd

end Schema
end Schemata
