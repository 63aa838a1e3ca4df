import Schemata.Proofs.Schema.Sameness

/-! Schemas of one form: trees with the same nodes, up to what their literals, constraints and defaults may
differ in. -/
namespace Schemata

/-- What literals, constraints and defaults in the same place have to do with each other, and the references
that may stand anywhere. -/
structure Likeness where
  literal : Value → Value → Prop
  constraint : Constraint → Constraint → Prop
  default : Producer → Producer → Prop
  named : Ref → Prop

namespace Likeness

variable (l : Likeness)

def presence : Presence → Presence → Prop
  | .required, .required => True
  | .optional, .optional => True
  | .defaultable p, .defaultable q => l.default p q
  | _, _ => False

def role : Role → Role → Prop
  | .leading, .leading => True
  | .defaultable p, .defaultable q => l.default p q
  | .optional, .optional => True
  | .variadic, .variadic => True
  | .trailing, .trailing => True
  | _, _ => False

variable {l}

theorem presence_eq {p q : Presence} (hl : ∀ p q, l.default p q → p = q) (h : l.presence p q) : p = q := by
  cases p <;> cases q <;> simp only [presence] at h ⊢
  rw [hl _ _ h]

theorem role_eq {r s : Role} (hl : ∀ p q, l.default p q → p = q) (h : l.role r s) : r = s := by
  cases r <;> cases s <;> simp only [role] at h ⊢
  rw [hl _ _ h]

end Likeness

theorem forall₂_and {α β : Type} {R S : α → β → Prop} {as : List α} {bs : List β} (h : List.Forall₂ R as bs)
    (k : List.Forall₂ S as bs) : List.Forall₂ (fun a b => R a b ∧ S a b) as bs := by
  induction h with
  | nil => exact .nil
  | cons hab _ ih =>
    cases k with
    | cons hab' k => exact .cons ⟨hab, hab'⟩ (ih k)

namespace Schema

variable {l : Likeness} {s t : Schema}

/-- Two nodes of one kind, their parts apart. -/
def Form (l : Likeness) : Schema → Schema → Prop
  | .keyword k, .keyword k' => k = k'
  | .literal v, .literal w => l.literal v w
  | .constrained _ cs, .constrained _ ds => List.Forall₂ l.constraint cs ds
  | .union _, .union _ => True
  | .intersection _, .intersection _ => True
  | .ref r, .ref q => r = q ∧ l.named r
  | .object o, .object q => List.Forall₂ (fun p q => p.key = q.key ∧ l.presence p.presence q.presence) o.properties
      q.properties ∧ o.index.isSome = q.index.isSome ∧ o.undeclared = q.undeclared
  | .tuple es, .tuple fs => List.Forall₂ (fun e f => l.role e.role f.role) es fs
  | _, _ => False

/-- Nodes of one kind over parts that are alike in their order. -/
inductive Alike (l : Likeness) : Schema → Schema → Prop
  | intro {s t : Schema} : Form l s t → s.parts.length = t.parts.length →
      (∀ p ∈ s.parts.zip t.parts, Alike l p.1 p.2) → Alike l s t

namespace Alike

theorem form (h : Alike l s t) : Form l s t := by
  cases h
  assumption

theorem parts (h : Alike l s t) : List.Forall₂ (Alike l) s.parts t.parts := by
  cases h with
  | intro _ hlen h => exact List.forall₂_iff_zip.mpr ⟨hlen, fun hp => h _ hp⟩

theorem of_parts (hf : Form l s t) (h : List.Forall₂ (Alike l) s.parts t.parts) : Alike l s t := by
  obtain ⟨hlen, h⟩ := List.forall₂_iff_zip.mp h
  exact .intro hf hlen fun p hp => h hp

/-- What holds of two nodes of one kind whenever it holds of their parts holds of schemas that are alike. -/
theorem induct {P : Schema → Schema → Prop}
    (step : ∀ s t, Form l s t → List.Forall₂ (fun a b => Alike l a b ∧ P a b) s.parts t.parts → P s t)
    (h : Alike l s t) : P s t := by
  induction h with
  | intro hf hlen h ih => exact step _ _ hf (List.forall₂_iff_zip.mpr ⟨hlen, fun hp => ⟨h _ hp, ih _ hp⟩⟩)

theorem refl (h : s.Every fun t => Form l t t) : Alike l s s := by
  induction h with
  | intro hf _ ih => exact .of_parts hf (List.forall₂_same.mpr ih)

/-- A schema is alike itself in every way in which what is written in it is alike itself. -/
theorem self (hliteral : ∀ v, l.literal v v) (hconstraint : ∀ c, l.constraint c c) (hdefault : ∀ p, l.default p p)
    (hnamed : s.Every fun t => ∀ r, t = .ref r → l.named r) : Alike l s s := by
  have presence : ∀ p : Presence, l.presence p p := by
    intro p
    cases p <;> first | trivial | exact hdefault _
  have role : ∀ r : Role, l.role r r := by
    intro r
    cases r <;> first | trivial | exact hdefault _
  refine .refl (hnamed.mono fun t ht => ?_)
  cases t with
  | keyword k => rfl
  | literal v => exact hliteral v
  | constrained t cs => exact List.forall₂_same.mpr fun c _ => hconstraint c
  | union bs => trivial
  | intersection ms => trivial
  | ref r => exact ⟨rfl, ht r rfl⟩
  | object o => exact ⟨List.forall₂_same.mpr fun p _ => ⟨rfl, presence _⟩, rfl, rfl⟩
  | tuple es => exact List.forall₂_same.mpr fun e _ => role _

/-- What nodes of one form have in common whole schemas have in common. -/
theorem every_iff {p q : Schema → Prop} (hpq : ∀ s t, Form l s t → (p s ↔ q t)) (h : Alike l s t) :
    s.Every p ↔ t.Every q := by
  have split : ∀ (p : Schema → Prop) s, s.Every p ↔ p s ∧ ∀ t ∈ s.parts, t.Every p := fun p s =>
    ⟨fun h => ⟨h.root, fun _ => h.part⟩, fun h => .intro h.1 h.2⟩
  refine Alike.induct (P := fun s t => s.Every p ↔ t.Every q) (fun s t hf hparts => ?_) h
  rw [split, split, hpq s t hf]
  exact and_congr_right fun _ => forall₂_all_iff hparts fun _ _ _ _ h => h.2

end Alike

section Forms

variable {R : Schema → Schema → Prop}

/-- The parts of two objects of one form, property by property and of the index signatures. -/
theorem forall₂_object_parts {o q : ObjectShape Schema} (hlen : o.properties.length = q.properties.length)
    (hindex : o.index.isSome = q.index.isSome) :
    List.Forall₂ R (Schema.object o).parts (Schema.object q).parts ↔
      List.Forall₂ (fun p q => R p.value q.value) o.properties q.properties ∧
        Option.Rel (fun i j => R i.key j.key ∧ R i.value j.value) o.index q.index := by
  obtain ⟨ps, i, u⟩ := o
  obtain ⟨qs, j, w⟩ := q
  have split : List.Forall₂ R (ps.map (·.value) ++ IndexSignature.parts i)
      (qs.map (·.value) ++ IndexSignature.parts j) ↔ List.Forall₂ R (ps.map (·.value)) (qs.map (·.value)) ∧
        List.Forall₂ R (IndexSignature.parts i) (IndexSignature.parts j) := by
    constructor
    · intro h
      have htake := List.forall₂_take ps.length h
      have hdrop := List.forall₂_drop ps.length h
      rw [List.take_left' (by simp), List.take_left' (by simpa using hlen.symm)] at htake
      rw [List.drop_left' (by simp), List.drop_left' (by simpa using hlen.symm)] at hdrop
      exact ⟨htake, hdrop⟩
    · exact fun h => List.rel_append h.1 h.2
  refine split.trans (and_congr (by rw [List.forall₂_map_left_iff, List.forall₂_map_right_iff]) ?_)
  cases i <;> cases j <;> simp [IndexSignature.parts] at hindex ⊢

end Forms

/-- The producers of a node's defaults. -/
def defaults : Schema → List Producer
  | .object o => o.properties.filterMap fun p => p.presence.default?
  | .tuple es => es.filterMap fun e => e.role.default?
  | _ => []

/-- Two nodes of one form have another form too where what is written in them allows it. -/
theorem Form.change {l' : Likeness} (h : Form l s t)
    (hliteral : ∀ v w, s = .literal v → t = .literal w → l.literal v w → l'.literal v w)
    (hconstraint : ∀ c ∈ s.split.2, ∀ d ∈ t.split.2, l.constraint c d → l'.constraint c d)
    (hdefault : ∀ p ∈ s.defaults, ∀ q ∈ t.defaults, l.default p q → l'.default p q)
    (hnamed : ∀ r, s = .ref r → l.named r → l'.named r) : Form l' s t := by
  cases s <;> cases t <;> simp only [Form] at h
  case keyword.keyword => exact h
  case literal.literal => exact hliteral _ _ rfl rfl h
  case constrained.constrained => exact forall₂_imp_of_mem h hconstraint
  case union.union => trivial
  case intersection.intersection => trivial
  case ref.ref => exact ⟨h.1, hnamed _ rfl h.2⟩
  case object.object =>
    refine ⟨forall₂_imp_of_mem h.1 fun p hp q hq hpq => ⟨hpq.1, ?_⟩, h.2⟩
    have hdefault : ∀ x y, p.presence = .defaultable x → q.presence = .defaultable y → l.default x y → l'.default x y :=
      fun x y hx hy => hdefault x (List.mem_filterMap.mpr ⟨p, hp, by rw [hx]; rfl⟩) y
        (List.mem_filterMap.mpr ⟨q, hq, by rw [hy]; rfl⟩)
    have hpresence := hpq.2
    generalize p.presence = x at hpresence hdefault ⊢
    generalize q.presence = y at hpresence hdefault ⊢
    cases x <;> cases y <;> first | exact hdefault _ _ rfl rfl hpresence | exact hpresence
  case tuple.tuple =>
    refine forall₂_imp_of_mem h fun e he f hf hef => ?_
    have hdefault : ∀ x y, e.role = .defaultable x → f.role = .defaultable y → l.default x y → l'.default x y :=
      fun x y hx hy => hdefault x (List.mem_filterMap.mpr ⟨e, he, by rw [hx]; rfl⟩) y
        (List.mem_filterMap.mpr ⟨f, hf, by rw [hy]; rfl⟩)
    generalize e.role = x at hef hdefault ⊢
    generalize f.role = y at hef hdefault ⊢
    cases x <;> cases y <;> first | exact hdefault _ _ rfl rfl hef | exact hef

/-- Where single nodes of two classes that are alike in one way are so in another, whole schemas are. -/
theorem Alike.change {l' : Likeness} {p q : Schema → Prop} (h : Alike l s t) (hs : s.Every p) (ht : t.Every q)
    (hform : ∀ s t, p s → q t → Form l s t → Form l' s t) : Alike l' s t := by
  refine Alike.induct (P := fun s t => s.Every p → t.Every q → Alike l' s t) (fun s t hf hparts hs ht => ?_) h hs ht
  exact .of_parts (hform s t hs.root ht.root hf)
    (forall₂_imp_of_mem hparts fun a ha b hb h => h.2 (hs.part ha) (ht.part hb))

end Schema

/-- Equality, place by place. -/
def Likeness.equality : Likeness :=
  ⟨fun v w => v.same w = true ∧ v.domain = w.domain, fun c d => c.same d = true, fun p q => p.same q = true,
    fun _ => True⟩

theorem Likeness.equality_presence {p q : Presence} (h : p.same q = true) : equality.presence p q := by
  cases p <;> cases q <;> trivial

theorem Likeness.equality_role {r s : Role} (h : r.same s = true) : equality.role r s := by
  cases r <;> cases s <;> trivial

theorem Schema.alike_of_same {s t : Schema} (h : s.same t = true) : Alike .equality s t := by
  induction s using induction_on_parts generalizing t with
  | _ s ih =>
    have parts : ∀ {ss ts : List Schema}, ss ⊆ s.parts → List.Forall₂ (fun s t => s.same t = true) ss ts →
        List.Forall₂ (Alike .equality) ss ts := by
      intro ss ts hss h
      induction h with
      | nil => exact .nil
      | cons hst _ ih' =>
        obtain ⟨hs, hss⟩ := List.cons_subset.mp hss
        exact .cons (ih _ hs hst) (ih' hss)
    cases s <;> cases t <;> simp only [same, Bool.and_eq_true, beq_iff_eq, Bool.false_eq_true] at h
    case keyword.keyword => exact .of_parts h .nil
    case literal.literal => exact .of_parts h .nil
    case constrained.constrained =>
      exact .of_parts (Constraint.sameAll_iff.mp h.2) (parts (List.Subset.refl _) (.cons h.1 .nil))
    case union.union => exact .of_parts trivial (parts (List.Subset.refl _) (sameAll_iff.mp h))
    case intersection.intersection => exact .of_parts trivial (parts (List.Subset.refl _) (sameAll_iff.mp h))
    case ref.ref => exact .of_parts ⟨h, trivial⟩ .nil
    case object.object o q =>
      obtain ⟨ps, i, u⟩ := o
      obtain ⟨⟨hprops, hindex⟩, hpolicy⟩ := h
      have hprops := sameProperties_iff.mp hprops
      have hsignature : i.isSome = q.index.isSome ∧
          List.Forall₂ (fun s t => s.same t = true) (IndexSignature.parts i) (IndexSignature.parts q.index) := by
        generalize q.index = j at hindex ⊢
        cases i <;> cases j <;> simp [sameIndex, IndexSignature.parts] at hindex ⊢
        exact hindex
      refine .of_parts ⟨hprops.imp fun p q h => ⟨h.1, Likeness.equality_presence h.2.2⟩, hsignature.1, hpolicy⟩
        (parts (List.Subset.refl _) (List.rel_append ?_ hsignature.2))
      show List.Forall₂ _ (ps.map (·.value)) (q.properties.map (·.value))
      rw [List.forall₂_map_left_iff, List.forall₂_map_right_iff]
      exact hprops.imp fun p q h => h.2.1
    case tuple.tuple es fs =>
      have helements := sameElements_iff.mp h
      refine .of_parts (helements.imp fun e f h => Likeness.equality_role h.1) (parts (List.Subset.refl _) ?_)
      show List.Forall₂ _ (es.map (·.value)) (fs.map (·.value))
      rw [List.forall₂_map_left_iff, List.forall₂_map_right_iff]
      exact helements.imp fun e f h => h.2

namespace Likeness

variable {l m l' : Likeness}

/-- What is alike in one way to something that is alike in another way. -/
def comp (l m : Likeness) : Likeness where
  literal := Relation.Comp l.literal m.literal
  constraint := Relation.Comp l.constraint m.constraint
  default := Relation.Comp l.default m.default
  named r := l.named r ∧ m.named r

/-- The same with the sides exchanged. -/
def flip (l : Likeness) : Likeness where
  literal v w := l.literal w v
  constraint c d := l.constraint d c
  default p q := l.default q p
  named := l.named

/-- What is alike in the first way is alike in the second. -/
structure Within (l l' : Likeness) : Prop where
  literal : ∀ v w, l.literal v w → l'.literal v w
  constraint : ∀ c d, l.constraint c d → l'.constraint c d
  default : ∀ p q, l.default p q → l'.default p q
  named : ∀ r, l.named r → l'.named r

theorem presence_comp {p q r : Presence} (h : l.presence p q) (k : m.presence q r) : (l.comp m).presence p r := by
  cases p <;> cases q <;> first | exact h.elim | skip
  all_goals cases r <;> first | exact k.elim | trivial | exact ⟨_, h, k⟩

theorem role_comp {p q r : Role} (h : l.role p q) (k : m.role q r) : (l.comp m).role p r := by
  cases p <;> cases q <;> first | exact h.elim | skip
  all_goals cases r <;> first | exact k.elim | trivial | exact ⟨_, h, k⟩

theorem same_of_equality_presence {p q : Presence} (h : equality.presence p q) : p.same q = true := by
  cases p <;> cases q <;> first | rfl | exact h | exact h.elim

theorem same_of_equality_role {p q : Role} (h : equality.role p q) : p.same q = true := by
  cases p <;> cases q <;> first | rfl | exact h | exact h.elim

theorem presence_flip {p q : Presence} (h : l.presence p q) : l.flip.presence q p := by
  cases p <;> cases q <;> exact h

theorem role_flip {p q : Role} (h : l.role p q) : l.flip.role q p := by
  cases p <;> cases q <;> exact h

end Likeness

namespace Schema

variable {l m l' : Likeness} {s t u : Schema}

theorem forall₂_comp {α β γ : Type} {R : α → β → Prop} {S : β → γ → Prop} {T : α → γ → Prop} {as : List α}
    {bs : List β} {cs : List γ} (h : List.Forall₂ R as bs) (k : List.Forall₂ S bs cs)
    (hT : ∀ a b c, R a b → S b c → T a c) : List.Forall₂ T as cs := by
  induction h generalizing cs with
  | nil =>
    cases k with
    | nil => exact .nil
  | cons hab _ ih =>
    cases k with
    | cons hbc k => exact .cons (hT _ _ _ hab hbc) (ih k)

theorem Form.comp (h : Form l s t) (k : Form m t u) : Form (l.comp m) s u := by
  cases s <;> cases t <;> simp only [Form] at h
  all_goals cases u <;> simp only [Form] at k
  case keyword.keyword.keyword => exact h.trans k
  case literal.literal.literal => exact ⟨_, h, k⟩
  case constrained.constrained.constrained => exact forall₂_comp h k fun c d e hc hd => ⟨d, hc, hd⟩
  case union.union.union => trivial
  case intersection.intersection.intersection => trivial
  case ref.ref.ref =>
    obtain ⟨rfl, h⟩ := h
    exact ⟨k.1, h, k.2⟩
  case object.object.object =>
    refine ⟨forall₂_comp h.1 k.1 fun p q r hp hq => ?_, h.2.1.trans k.2.1, h.2.2.trans k.2.2⟩
    exact ⟨hp.1.trans hq.1, Likeness.presence_comp hp.2 hq.2⟩
  case tuple.tuple.tuple => exact forall₂_comp h k fun e f g he hf => Likeness.role_comp he hf

theorem Form.flip (h : Form l s t) : Form l.flip t s := by
  cases s <;> cases t <;> simp only [Form] at h
  case keyword.keyword => exact h.symm
  case literal.literal => exact h
  case constrained.constrained => exact h.flip
  case union.union => trivial
  case intersection.intersection => trivial
  case ref.ref =>
    obtain ⟨rfl, h⟩ := h
    exact ⟨rfl, h⟩
  case object.object =>
    exact ⟨h.1.flip.imp fun p q hp => ⟨hp.1.symm, Likeness.presence_flip hp.2⟩, h.2.1.symm, h.2.2.symm⟩
  case tuple.tuple => exact h.flip.imp fun e f he => Likeness.role_flip he

namespace Alike

theorem comp (h : Alike l s t) (k : Alike m t u) : Alike (l.comp m) s u := by
  refine Alike.induct (P := fun s t => ∀ u, Alike m t u → Alike (l.comp m) s u) (fun s t hf hparts u k => ?_) h u k
  exact .of_parts (hf.comp k.form) (forall₂_comp hparts k.parts fun a b c hab hbc => hab.2 c hbc)

theorem flip (h : Alike l s t) : Alike l.flip t s := by
  refine Alike.induct (P := fun s t => Alike l.flip t s) (fun s t hf hparts => ?_) h
  exact .of_parts hf.flip (hparts.flip.imp fun a b hab => hab.2)

theorem within (h : Alike l s t) (hl : l.Within l') : Alike l' s t := by
  refine h.change (.all fun _ => trivial) (.all fun _ => trivial) (p := fun _ => True) (q := fun _ => True)
    fun s t _ _ hform => ?_
  exact hform.change (fun v w _ _ => hl.literal v w) (fun c _ d _ => hl.constraint c d)
    (fun p _ q _ => hl.default p q) fun r _ => hl.named r

end Alike

/-- Schemas that are the same in every place are equal. -/
theorem same_of_alike (h : Alike .equality s t) : s.same t = true := by
  refine Alike.induct (P := fun s t => s.same t = true) (fun s t hf hparts => ?_) h
  replace hparts := hparts.imp fun a b hab => hab.2
  cases s <;> cases t <;> simp only [Form] at hf
  case keyword.keyword => simpa [same] using hf
  case literal.literal =>
    simp only [same, Bool.and_eq_true, beq_iff_eq]
    exact hf
  case constrained.constrained =>
    simp only [same, Bool.and_eq_true]
    exact ⟨(List.forall₂_cons.mp hparts).1, Constraint.sameAll_iff.mpr hf⟩
  case union.union => exact sameAll_iff.mpr hparts
  case intersection.intersection => exact sameAll_iff.mpr hparts
  case ref.ref => simpa [same] using hf.1
  case object.object o q =>
    obtain ⟨ps, i, u⟩ := o
    obtain ⟨qs, j, w⟩ := q
    obtain ⟨hprops, hindex, hpolicy⟩ := hf
    obtain ⟨hvalues, hsignature⟩ := (forall₂_object_parts hprops.length_eq hindex).mp hparts
    simp only [same, Bool.and_eq_true, beq_iff_eq]
    refine ⟨⟨sameProperties_iff.mpr ?_, ?_⟩, hpolicy⟩
    · exact (forall₂_and hprops hvalues).imp fun p q h => ⟨h.1.1, h.2, Likeness.same_of_equality_presence h.1.2⟩
    · cases hsignature with
      | none => rfl
      | some h => simpa [sameIndex] using h
  case tuple.tuple es fs =>
    have hvalues := List.forall₂_map_left_iff.mp (List.forall₂_map_right_iff.mp hparts)
    exact sameElements_iff.mpr ((forall₂_and hf hvalues).imp fun e f h => ⟨Likeness.same_of_equality_role h.1, h.2⟩)

theorem size_alike (h : Alike l s t) : s.size = t.size := by
  refine Alike.induct (P := fun s t => s.size = t.size) (fun s t _ hparts => ?_) h
  have hsizes : s.parts.map size = t.parts.map size := by
    rw [← List.forall₂_eq_eq_eq, List.forall₂_map_left_iff, List.forall₂_map_right_iff]
    exact hparts.imp fun a b hab => hab.2
  rw [size_eq_parts, size_eq_parts, hsizes]

end Schema
end Schemata
