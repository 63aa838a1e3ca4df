import Schemata.Proofs.Constraint.Spelling
import Schemata.Proofs.Validation.Likeness

/-! Checks of property keys. A key is a scalar that no number equals, so equal schemas take the same keys, and
they take them under every configuration that follows as many references. -/
namespace Schemata

theorem Key.toValue_injective : Function.Injective Key.toValue := by
  intro k l h
  cases k <;> cases l <;> simp_all [toValue]

namespace Value

/-- The value is a key as it stands in a checked mapping. -/
def IsKey (v : Value) : Prop := ∃ k : Key, v = k.toValue

variable {v a b : Value}

theorem IsKey.isScalar (h : v.IsKey) : v.isScalar = true := by
  obtain ⟨k, rfl⟩ := h
  cases k <;> rfl

theorem IsKey.tied (h : v.IsKey) : v.Tied := by
  obtain ⟨k, rfl⟩ := h
  cases k <;> trivial

/-- Only a key itself equals a key. -/
theorem IsKey.same_iff (h : v.IsKey) (ha : a.Tied) : a.same v = true ↔ a = v := by
  obtain ⟨k, rfl⟩ := h
  cases a with
  | knot l body => cases body <;> cases k <;> simp [Tied, Key.toValue, same, unfold, label?] at ha ⊢
  | _ => cases k <;> simp [Key.toValue, same, numberSame, asNumber?, unfold, label?]

theorem IsKey.same_iff_left (h : v.IsKey) : v.same b = true ↔ v = b := by
  obtain ⟨k, rfl⟩ := h
  cases k <;> cases b <;> simp [Key.toValue, same]

theorem IsKey.literalEqual_iff (h : v.IsKey) (ha : a.Tied) : a.literalEqual v = true ↔ a = v := by
  have hsame := h.same_iff ha
  obtain ⟨k, rfl⟩ := h
  have hequal : a.literalEqual k.toValue = (a.typeName == k.toValue.typeName && equal a k.toValue) ∨
      a.literalEqual k.toValue = false ∧ a ≠ k.toValue := by
    cases a <;> cases k <;> simp [literalEqual, Key.toValue]
  rcases hequal with hequal | ⟨hno, hne⟩
  · rw [hequal]
    constructor
    · intro heq
      simp only [equal, Bool.and_eq_true] at heq
      exact hsame.mp heq.2.2
    · rintro rfl
      cases k <;> simp [Key.toValue, equal, same, isNaN]
  · simp [hno, hne]

theorem IsKey.eq_of_literalEqual (h : v.IsKey) (hequal : v.literalEqual b = true) : v = b := by
  refine h.same_iff_left.mp ?_
  obtain ⟨k, rfl⟩ := h
  cases k <;> cases b <;> simp_all [Key.toValue, literalEqual, equal]

end Value

namespace Schema

/-- A single node of a schema of keys: values written in it are well formed, and it has no references unless it
is `linked`. -/
def KeyNode (linked : Prop) : Schema → Prop
  | .literal v => v.Tied
  | .constrained _ cs => ∀ c ∈ cs, c.Written
  | .ref _ => linked
  | _ => True

end Schema

/-- Values and constraints that no key tells apart. -/
def Likeness.keys (linked : Prop) : Likeness where
  literal v w := v = w ∨ v.Tied ∧ w.Tied ∧ v.same w = true ∧ v.domain = w.domain
  constraint c d := c = d ∨ c.Written ∧ d.Written ∧ c.same d = true
  default _ _ := True
  named _ := linked

namespace Likeness

variable {linked : Prop}

/-- Equal values are the same key or no key. -/
theorem eq_key_iff {v a b : Value} (h : v.IsKey) (ha : a.Tied) (hab : a.same b = true) :
    a = v ↔ b = v := by
  constructor
  · rintro rfl
    exact (h.same_iff_left.mp hab).symm
  · rintro rfl
    exact (h.same_iff ha).mp hab

theorem like_of_eq {hooks : Hooks} {V : Value → Value → Prop} (hV : ∀ v w, V v w → v = w) (c : Constraint) :
    c.Like hooks V c := by
  intro v w hv
  rw [hV v w hv]
  apply Agree.refl
  · exact fun e _ => .refl (e := .check e) rfl
  · exact fun _ => rfl

/-- Equal constraints answer alike on keys. -/
theorem keys_constraint {hooks : Hooks} {c d : Constraint} (hc : c.Written) (hd : d.Written) (h : c.same d = true) :
    c.Like hooks (fun v w => v = w ∧ v.IsKey) d := by
  have same : c = d → c.Like hooks (fun v w => v = w ∧ v.IsKey) d := fun heq => heq ▸ like_of_eq (fun _ _ h => h.1) c
  cases c <;> cases d <;> simp only [Constraint.same, Bool.false_eq_true] at h
  case range.range r s =>
    rintro v _ ⟨rfl, k, rfl⟩
    cases k <;> exact rfl
  case equals.equals a b =>
    rintro v _ ⟨rfl, hv⟩
    show (a.checkLiteral v).isValid = (b.checkLiteral v).isValid
    have valid : ∀ {a : Value}, (a.checkLiteral v).isValid = a.literalEqual v := by
      intro a
      unfold Value.checkLiteral
      cases a.literalEqual v <;> rfl
    rw [valid, valid, Bool.eq_iff_iff, hv.literalEqual_iff hc, hv.literalEqual_iff hd]
    exact eq_key_iff hv hc h
  case length.length => exact same (by rw [eq_of_beq h])
  case pattern.pattern => exact same (by rw [eq_of_beq h])
  case type.type => exact same (by rw [eq_of_beq h])
  case predicate.predicate => exact same (by rw [eq_of_beq h])

theorem keys_suits (env : Env) (config config' : Config) :
    (keys linked).Suits env config config' fun v w => v = w ∧ v.IsKey where
  keyword := by
    rintro v _ ⟨rfl, -⟩ k
    rfl
  domain := by
    rintro v _ ⟨rfl, -⟩
    rfl
  literal := by
    rintro a b (rfl | ⟨ha, hb, hab, -⟩) v _ ⟨rfl, hv⟩
    · rfl
    · rw [hv.literalEqual_iff ha, hv.literalEqual_iff hb, eq_key_iff hv ha hab]
      constructor
      · rintro ⟨-, rfl⟩
        exact ⟨rfl, rfl⟩
      · rintro ⟨-, rfl⟩
        exact ⟨congrArg Value.domain ((eq_key_iff hv ha hab).mpr rfl).symm, rfl⟩
  literals := by
    rintro a b (rfl | ⟨-, -, -, h⟩)
    · rfl
    · exact h
  constraint := by
    rintro c d (rfl | ⟨hc, hd, h⟩)
    · exact like_of_eq (fun _ _ h => h.1) c
    · exact keys_constraint hc hd h
  containers := Or.inl fun v w h => ⟨h.2.isScalar, h.1 ▸ h.2.isScalar⟩

end Likeness

namespace Schema

variable {linked : Prop} {s t : Schema}

/-- A schema is alike itself, whatever is written in it. -/
theorem keys_refl (hs : s.Every fun t => t.isRef = true → linked) : Alike (.keys linked) s s := by
  apply Alike.self
  · exact fun v => Or.inl rfl
  · exact fun c => Or.inl rfl
  · exact fun p => trivial
  · refine hs.mono ?_
    rintro t ht r rfl
    exact ht rfl

theorem KeyNode.isRef (h : s.KeyNode linked) (hr : s.isRef = true) : linked := by
  cases s <;> first | exact h | simp [Schema.isRef] at hr

theorem KeyNode.not_isRef (h : s.KeyNode False) : s.isRef = false := Bool.eq_false_iff.mpr h.isRef

theorem KeyNode.constraint (h : s.KeyNode linked) {c : Constraint} (hc : c ∈ s.split.2) : c.Written := by
  cases s with
  | constrained t cs => exact h c hc
  | _ => simp [split] at hc

theorem keys_of_same (hs : s.Every (KeyNode linked)) (ht : t.Every (KeyNode linked)) (h : s.same t = true) :
    Alike (.keys linked) s t := by
  refine (alike_of_same h).change hs ht fun s t hs ht hform => ?_
  refine hform.change ?_ (fun c hc d hd h => Or.inr ⟨hs.constraint hc, ht.constraint hd, h⟩)
    (fun _ _ _ _ _ => trivial) ?_
  · rintro v w rfl rfl h
    exact Or.inr ⟨hs, ht, h.1, h.2⟩
  · rintro r rfl -
    exact hs

/-- Equal schemas have references at the same places. -/
theorem KeyNode.of_same (ht : t.Every (KeyNode linked)) (hs : s.Every (KeyNode True))
    (h : s.same t = true ∨ t.same s = true) : s.Every (KeyNode linked) := by
  have isRef : ∀ s t, Form .equality s t → (s.isRef = true → linked ↔ t.isRef = true → linked) := by
    intro s t hform
    cases s <;> cases t <;> first | exact Iff.rfl | exact hform.elim
  have refs : s.Every fun s => s.isRef = true → linked := by
    have ht := ht.mono fun _ => KeyNode.isRef
    rcases h with h | h
    · exact (Alike.every_iff isRef (alike_of_same h)).mpr ht
    · exact (Alike.every_iff isRef (alike_of_same h)).mp ht
  refine (hs.and refs).mono fun s hs => ?_
  cases s <;> first | exact hs.1 | exact hs.2 rfl

end Schema

namespace Env

variable {env : Env} {config config' : Config} {linked : Prop} {s t : Schema}

/-- Schemas of keys that nothing tells apart take the same keys. -/
theorem accepts_key (hdepth : linked → config.maxDepth = config'.maxDepth) (h : Schema.Alike (.keys linked) s t)
    (k : Key) : Agree Fault.Akin (· = ·) (env.accepts config s k.toValue) (env.accepts config' t k.toValue) := by
  refine accepts_alike (Likeness.keys_suits env config config') (fun r hr => ⟨hdepth hr, fun t _ => ?_⟩) h
    ⟨rfl, k, rfl⟩
  exact Schema.keys_refl (.all fun t _ => hr)

end Env
end Schemata
