import Schemata.Proofs.Algebra.Union
import Schemata.Proofs.Schema.Likeness

/-! The references of a schema: those that stand anywhere in it. What schemas lead to is not looked at. -/
namespace Schemata
namespace Schema

variable {S T : Ref → Prop} {s t : Schema}

/-- All references that stand in the schema satisfy `S`. -/
def Into (S : Ref → Prop) (s : Schema) : Prop := s.Every fun t => ∀ r, t = .ref r → S r

namespace Into

theorem mono (h : s.Into S) (hST : ∀ r, S r → T r) : s.Into T := Every.mono (fun _ h r hr => hST r (h r hr)) h

theorem and (hS : s.Into S) (hT : s.Into T) : s.Into fun r => S r ∧ T r :=
  (Every.and hS hT).mono fun _ h r hr => ⟨h.1 r hr, h.2 r hr⟩

theorem part (h : s.Into S) (ht : t ∈ s.parts) : t.Into S := Every.part h ht

theorem ofParts (hs : s.isRef = false) (h : ∀ t ∈ s.parts, t.Into S) : s.Into S := by
  refine .intro (fun r hr => ?_) h
  rw [hr] at hs
  simp [isRef] at hs

end Into

@[simp] theorem into_ref {r : Ref} : (ref r).Into S ↔ S r :=
  ⟨fun h => h.root r rfl, fun h => .intro (fun _ hq => Schema.ref.inj hq ▸ h) (by simp [parts])⟩

@[simp] theorem into_keyword {k : Keyword} : (keyword k).Into S := .ofParts rfl (by simp [parts])

@[simp] theorem into_literal {v : Value} : (literal v).Into S := .ofParts rfl (by simp [parts])

@[simp] theorem into_constrained {cs : List Constraint} : (constrained s cs).Into S ↔ s.Into S :=
  ⟨fun h => h.base, fun h => .ofParts rfl (by simpa [parts] using h)⟩

@[simp] theorem into_union {bs : List Schema} : (union bs).Into S ↔ ∀ b ∈ bs, b.Into S :=
  ⟨fun h _ hb => h.branch hb, fun h => .ofParts rfl h⟩

@[simp] theorem into_intersection {ms : List Schema} : (intersection ms).Into S ↔ ∀ m ∈ ms, m.Into S :=
  ⟨fun h _ hm => h.member hm, fun h => .ofParts rfl h⟩

@[simp] theorem into_tuple {es : List (Element Schema)} : (tuple es).Into S ↔ ∀ e ∈ es, e.value.Into S :=
  ⟨fun h _ he => h.element he, fun h => .ofParts rfl (List.forall_mem_map.mpr h)⟩

end Schema

/-- The references of an index signature satisfy `S`. -/
def IndexSignature.Into (S : Ref → Prop) (i : IndexSignature Schema) : Prop := i.key.Into S ∧ i.value.Into S

namespace ObjectShape

/-- The references of an object's parts satisfy `S`. -/
structure Into (S : Ref → Prop) (o : ObjectShape Schema) : Prop where
  properties : ∀ p ∈ o.properties, p.value.Into S
  index : ∀ i, o.index = some i → i.Into S

end ObjectShape

namespace Schema

variable {S T : Ref → Prop} {s t : Schema}

@[simp] theorem into_object {o : ObjectShape Schema} : (object o).Into S ↔ o.Into S := by
  constructor
  · intro h
    refine ⟨fun p hp => h.property hp, fun i hi => ⟨?_, ?_⟩⟩
    · exact h.part (List.mem_append_right _ (by simp [IndexSignature.parts, hi]))
    · exact h.part (List.mem_append_right _ (by simp [IndexSignature.parts, hi]))
  · intro h
    refine .ofParts rfl (List.forall_mem_append.mpr ⟨List.forall_mem_map.mpr h.properties, fun t ht => ?_⟩)
    cases hi : o.index with
    | none => simp [IndexSignature.parts, hi] at ht
    | some i =>
      obtain rfl | rfl : t = i.key ∨ t = i.value := by simpa [IndexSignature.parts, hi] using ht
      · exact (h.index i hi).1
      · exact (h.index i hi).2

@[simp] theorem into_array : (array s).Into S ↔ s.Into S := by simp [array]

@[simp] theorem into_never : never.Into S := by simp [never]

end Schema

namespace Env

variable {env : Env} {known : Ref → Prop} {r q : Ref}

/-- Every known reference leads to a schema, whose references are known. -/
def Complete (env : Env) (known : Ref → Prop) : Prop := ∀ r, known r → ∃ t, env.target r = .filled t ∧ t.Into known

theorem Complete.resolve (h : env.Complete known) (hr : known r) : ∃ t, env.resolve r = .ok t ∧ t.Into known := by
  obtain ⟨t, ht, hinto⟩ := h r hr
  exact ⟨t, by simp [Env.resolve, ht], hinto⟩

theorem target_of_resolve {t : Schema} (h : env.resolve r = .ok t) : env.target r = .filled t := by
  cases ht : env.target r <;> simp_all [Env.resolve]

/-- Behind a schema stands the schema that its name leads to, or itself. -/
theorem target_or_eq_of_behind {s t : Schema} (h : env.behind? s = .ok (some t)) :
    (∃ r, s = .ref r ∧ env.target r = .filled t) ∨ t = s := by
  cases s with
  | ref r =>
    have h : env.resolve? r = .ok (some t) := h
    exact Or.inl ⟨r, rfl, by cases ht : env.target r <;> simp_all [Env.resolve?]⟩
  | _ => exact Or.inr (Option.some.inj (Except.ok.inj h)).symm

/-- The name of a reference is for reading. -/
theorem target_congr (harena : q.arena = r.arena) (hhandle : q.handle = r.handle) : env.target q = env.target r := by
  simp only [target, Arena.target, harena, hhandle]

end Env
end Schemata
