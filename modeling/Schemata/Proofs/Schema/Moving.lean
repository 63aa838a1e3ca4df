import Schemata.Proofs.Schema.References

/-! Schemas whose references stand for other slots, and whose default producers have other numbers. Nothing that is
said about a schema alone depends on either. -/
namespace Schemata

/-- Other places for slots, no two in one. -/
structure Moving where
  slot : Nat × Nat → Nat × Nat
  injective : Function.Injective slot

def Ref.moved (m : Moving) (r : Ref) : Ref :=
  ⟨(m.slot (r.arena, r.handle)).1, (m.slot (r.arena, r.handle)).2, r.name⟩

theorem Ref.moved_inj {m : Moving} {r q : Ref} : r.moved m = q.moved m ↔ r = q := by
  refine ⟨fun h => ?_, fun h => h ▸ rfl⟩
  obtain ⟨arena, handle, name⟩ := r
  obtain ⟨arena', handle', name'⟩ := q
  simp only [moved, Ref.mk.injEq] at h
  obtain ⟨harena, hhandle, rfl⟩ := h
  obtain ⟨rfl, rfl⟩ := Prod.mk.inj (m.injective (Prod.ext harena hhandle))
  rfl

theorem Ref.beq_moved {m : Moving} (r q : Ref) : (r.moved m == q.moved m) = (r == q) := by
  rw [Bool.eq_iff_iff, beq_iff_eq, beq_iff_eq, moved_inj]

def Producer.moved (n : Nat) (p : Producer) : Producer := { p with token := ⟨p.token.id + n, p.token.copy⟩ }

def Presence.moved (n : Nat) : Presence → Presence
  | .defaultable p => .defaultable (p.moved n)
  | p => p

def Role.moved (n : Nat) : Role → Role
  | .defaultable p => .defaultable (p.moved n)
  | r => r

namespace Schema

mutual
/-- The schema with its references moved and the numbers of its producers raised. -/
def moved (m : Moving) (n : Nat) : Schema → Schema
  | .keyword k => .keyword k
  | .literal v => .literal v
  | .constrained s cs => .constrained (moved m n s) cs
  | .union bs => .union (movedAll m n bs)
  | .intersection ms => .intersection (movedAll m n ms)
  | .ref r => .ref (r.moved m)
  | .object ⟨ps, i, u⟩ => .object ⟨movedProperties m n ps, movedIndex m n i, u⟩
  | .tuple es => .tuple (movedElements m n es)
termination_by structural s => s
def movedAll (m : Moving) (n : Nat) : List Schema → List Schema
  | [] => []
  | s :: rest => moved m n s :: movedAll m n rest
termination_by structural ss => ss
def movedProperties (m : Moving) (n : Nat) : List (Property Schema) → List (Property Schema)
  | [] => []
  | ⟨k, s, p⟩ :: rest => ⟨k, moved m n s, p.moved n⟩ :: movedProperties m n rest
termination_by structural ps => ps
def movedIndex (m : Moving) (n : Nat) : Option (IndexSignature Schema) → Option (IndexSignature Schema)
  | none => none
  | some ⟨k, s⟩ => some ⟨moved m n k, moved m n s⟩
termination_by structural i => i
def movedElements (m : Moving) (n : Nat) : List (Element Schema) → List (Element Schema)
  | [] => []
  | ⟨r, s⟩ :: rest => ⟨r.moved n, moved m n s⟩ :: movedElements m n rest
termination_by structural es => es
end

end Schema

def Property.moved (m : Moving) (n : Nat) (p : Property Schema) : Property Schema :=
  ⟨p.key, p.value.moved m n, p.presence.moved n⟩

def IndexSignature.moved (m : Moving) (n : Nat) (i : IndexSignature Schema) : IndexSignature Schema :=
  ⟨i.key.moved m n, i.value.moved m n⟩

def ObjectShape.moved (m : Moving) (n : Nat) (o : ObjectShape Schema) : ObjectShape Schema :=
  ⟨o.properties.map (Property.moved m n), o.index.map (IndexSignature.moved m n), o.undeclared⟩

def Element.moved (m : Moving) (n : Nat) (e : Element Schema) : Element Schema := ⟨e.role.moved n, e.value.moved m n⟩

section Parts

variable {m : Moving} {n : Nat}

@[simp] theorem Presence.moved_isOptional (p : Presence) : (p.moved n).isOptional = p.isOptional := by cases p <;> rfl

theorem Presence.moved_zero (p : Presence) : p.moved 0 = p := by cases p <;> rfl

theorem Producer.same_moved (p q : Producer) : (p.moved n).same (q.moved n) = p.same q := by
  obtain ⟨⟨id, copy⟩, source, isFactory⟩ := p
  obtain ⟨⟨id', copy'⟩, source', isFactory'⟩ := q
  rw [Bool.eq_iff_iff]
  simp [same, moved]

theorem Presence.same_moved (p q : Presence) : (p.moved n).same (q.moved n) = p.same q := by
  cases p <;> cases q <;> first | rfl | exact Producer.same_moved _ _

@[simp] theorem Role.moved_rank (r : Role) : (r.moved n).rank = r.rank := by cases r <;> rfl

@[simp] theorem Role.moved_name (r : Role) : (r.moved n).name = r.name := by cases r <;> rfl

@[simp] theorem Role.moved_isLeading (r : Role) : (r.moved n).isLeading = r.isLeading := by cases r <;> rfl

@[simp] theorem Role.moved_isVariadic (r : Role) : (r.moved n).isVariadic = r.isVariadic := by cases r <;> rfl

@[simp] theorem Role.moved_isTrailing (r : Role) : (r.moved n).isTrailing = r.isTrailing := by cases r <;> rfl

theorem Role.moved_zero (r : Role) : r.moved 0 = r := by cases r <;> rfl

theorem Role.same_moved (r q : Role) : (r.moved n).same (q.moved n) = r.same q := by
  cases r <;> cases q <;> first | rfl | exact Producer.same_moved _ _

@[simp] theorem Producer.moved_expression (p : Producer) : (p.moved n).expression = p.expression := rfl

theorem Property.textWith_moved (key : Key) (p : Presence) (text : String) :
    textWith key (p.moved n) text = textWith key p text := by
  cases p <;> rfl

theorem Element.textWith_moved (r : Role) (text : String) : textWith (r.moved n) text = textWith r text := by
  cases r <;> rfl

@[simp] theorem ObjectShape.moved_keys (o : ObjectShape Schema) : (o.moved m n).keys = o.keys := by
  simp [keys, moved, Property.moved]

end Parts

namespace Schema

variable {m : Moving} {n : Nat}

theorem movedAll_eq (ss : List Schema) : movedAll m n ss = ss.map (moved m n) := by
  induction ss with
  | nil => rfl
  | cons s ss ih => simp [movedAll, ih]

theorem movedProperties_eq (ps : List (Property Schema)) : movedProperties m n ps = ps.map (Property.moved m n) := by
  induction ps with
  | nil => rfl
  | cons p ps ih => simp [movedProperties, Property.moved, ih]

theorem movedIndex_eq (i : Option (IndexSignature Schema)) : movedIndex m n i = i.map (IndexSignature.moved m n) := by
  cases i <;> rfl

theorem movedElements_eq (es : List (Element Schema)) : movedElements m n es = es.map (Element.moved m n) := by
  induction es with
  | nil => rfl
  | cons e es ih => simp [movedElements, Element.moved, ih]

@[simp] theorem moved_keyword (k : Keyword) : (keyword k).moved m n = keyword k := rfl

@[simp] theorem moved_literal (v : Value) : (literal v).moved m n = literal v := rfl

@[simp] theorem moved_constrained (s : Schema) (cs : List Constraint) :
    (constrained s cs).moved m n = constrained (s.moved m n) cs := rfl

@[simp] theorem moved_union (bs : List Schema) : (union bs).moved m n = union (bs.map (moved m n)) := by
  rw [moved, movedAll_eq]

@[simp] theorem moved_intersection (ms : List Schema) :
    (intersection ms).moved m n = intersection (ms.map (moved m n)) := by
  rw [moved, movedAll_eq]

@[simp] theorem moved_ref (r : Ref) : (ref r).moved m n = ref (r.moved m) := rfl

@[simp] theorem moved_object (o : ObjectShape Schema) : (object o).moved m n = object (o.moved m n) := by
  obtain ⟨ps, i, u⟩ := o
  rw [moved, movedProperties_eq, movedIndex_eq]
  rfl

@[simp] theorem moved_tuple (es : List (Element Schema)) : (tuple es).moved m n = tuple (es.map (Element.moved m n)) := by
  rw [moved, movedElements_eq]

@[simp] theorem moved_array (s : Schema) : (array s).moved m n = array (s.moved m n) := rfl

@[simp] theorem moved_isPlain (s : Schema) : (s.moved m n).isPlain = s.isPlain := by cases s <;> simp [isPlain]

@[simp] theorem moved_isStructure (s : Schema) : (s.moved m n).isStructure = s.isStructure := by
  cases s <;> simp [isStructure]

theorem moved_constrain (s : Schema) (cs : List Constraint) : (s.constrain cs).moved m n = (s.moved m n).constrain cs := by
  cases cs with
  | nil => cases s <;> simp [constrain]
  | cons c cs => cases s <;> simp [constrain]

theorem branches_moved (s : Schema) : (s.moved m n).branches = s.branches.map (moved m n) := by
  cases s <;> simp [branches]

/-- What refers to nothing that moves stays as it is. -/
theorem moved_eq_self {s : Schema} (h : s.Into fun r => r.moved m = r) : s.moved m 0 = s := by
  induction s using induction_on_parts with
  | _ s ih =>
    have ih : ∀ t ∈ s.parts, t.moved m 0 = t := fun t ht => ih t ht (h.part ht)
    have same : ∀ {α : Type} {f : α → α} {as : List α}, (∀ a ∈ as, f a = a) → as.map f = as := fun hf =>
      (List.map_congr_left hf).trans (List.map_id' _)
    cases s with
    | keyword k => rfl
    | literal v => rfl
    | constrained s cs => rw [moved_constrained, ih s (List.mem_singleton_self s)]
    | union bs => exact (moved_union bs).trans (congrArg union (same ih))
    | intersection ms => exact (moved_intersection ms).trans (congrArg intersection (same ih))
    | ref r => rw [moved_ref, into_ref.mp h]
    | object o =>
      obtain ⟨ps, i, u⟩ := o
      have hvalues : ∀ p ∈ ps, Property.moved m 0 p = p := fun p hp => by
        rw [Property.moved, ih _ (List.mem_append_left _ (List.mem_map_of_mem hp)), p.presence.moved_zero]
      have hindex : i.map (IndexSignature.moved m 0) = i := by
        cases i with
        | none => rfl
        | some i =>
          rw [Option.map_some, IndexSignature.moved, ih _ (List.mem_append_right _ List.mem_cons_self),
            ih _ (List.mem_append_right _ (List.mem_cons_of_mem _ (List.mem_singleton_self _)))]
      rw [moved_object, ObjectShape.moved, same hvalues, hindex]
    | tuple es =>
      have hvalues : ∀ e ∈ es, Element.moved m 0 e = e := fun e he => by
        rw [Element.moved, ih _ (List.mem_map_of_mem he), e.role.moved_zero]
      rw [moved_tuple, same hvalues]

/-! What is said about schemas. -/

mutual
theorem same_moved : (s t : Schema) → (s.moved m n).same (t.moved m n) = s.same t
  | .keyword k, t => by cases t <;> simp [same]
  | .literal v, t => by cases t <;> simp [same]
  | .constrained s cs, t => by cases t <;> simp [same, same_moved s]
  | .union bs, t => by cases t <;> simp [same, sameAll_moved bs]
  | .intersection ms, t => by cases t <;> simp [same, sameAll_moved ms]
  | .ref r, t => by cases t <;> simp [same, Ref.beq_moved]
  | .object ⟨ps, i, u⟩, t => by
    cases t <;> simp [same, ObjectShape.moved, sameProperties_moved ps, sameIndex_moved i]
  | .tuple es, t => by cases t <;> simp [same, sameElements_moved es]
termination_by structural s => s
theorem sameAll_moved : (ss ts : List Schema) → sameAll (ss.map (moved m n)) (ts.map (moved m n)) = sameAll ss ts
  | [], [] | [], _ :: _ | _ :: _, [] => rfl
  | s :: ss, t :: ts => by simp [sameAll, same_moved s t, sameAll_moved ss ts]
termination_by structural ss => ss
theorem sameProperties_moved : (ps qs : List (Property Schema)) →
    sameProperties (ps.map (Property.moved m n)) (qs.map (Property.moved m n)) = sameProperties ps qs
  | [], [] | [], _ :: _ | _ :: _, [] => rfl
  | ⟨k, s, p⟩ :: ps, q :: qs => by
    simp [sameProperties, Property.moved, same_moved s q.value, Presence.same_moved, sameProperties_moved ps qs]
termination_by structural ps => ps
theorem sameIndex_moved : (i j : Option (IndexSignature Schema)) →
    sameIndex (i.map (IndexSignature.moved m n)) (j.map (IndexSignature.moved m n)) = sameIndex i j
  | none, none | none, some _ | some _, none => rfl
  | some ⟨k, s⟩, some j => by simp [sameIndex, IndexSignature.moved, same_moved k j.key, same_moved s j.value]
termination_by structural i => i
theorem sameElements_moved : (es fs : List (Element Schema)) →
    sameElements (es.map (Element.moved m n)) (fs.map (Element.moved m n)) = sameElements es fs
  | [], [] | [], _ :: _ | _ :: _, [] => rfl
  | ⟨r, s⟩ :: es, f :: fs => by
    simp [sameElements, Element.moved, same_moved s f.value, Role.same_moved, sameElements_moved es fs]
termination_by structural es => es
end

theorem wrapped_moved (s : Schema) (text : String) : (s.moved m n).wrapped text = s.wrapped text := by
  cases s <;> simp [wrapped]

theorem wrappedElement_moved (s : Schema) (text : String) : (s.moved m n).wrappedElement text = s.wrappedElement text := by
  cases s with
  | union bs => rcases bs with _ | ⟨b, _ | ⟨c, bs⟩⟩ <;> simp [wrappedElement]
  | _ => simp [wrappedElement]

mutual
theorem expression_moved : (s : Schema) → (s.moved m n).expression = s.expression
  | .keyword _ | .literal _ => rfl
  | .constrained s cs => by rw [moved_constrained, expression, expression_moved s, expression]
  | .union [] => rfl
  | .union (b :: bs) => by
    rw [moved_union, List.map_cons, expression, expression, expression_moved b, wrapped_moved, wrappedExpressions_moved bs]
  | .intersection ms => by rw [moved_intersection, expression, expression, wrappedExpressions_moved ms]
  | .ref _ => rfl
  | .object ⟨ps, i, u⟩ => by
    rw [moved_object, ObjectShape.moved, expression, expression, propertyExpressions_moved ps, indexExpressions_moved i]
  | .tuple [] => rfl
  | .tuple [⟨r, s⟩] => by
    cases r <;> simp [expression, elementExpressions, Element.moved, Role.moved, expression_moved s, wrappedElement_moved,
      Element.textWith]
  | .tuple (⟨r, s⟩ :: f :: es) => by
    have h := elementExpressions_moved (⟨r, s⟩ :: f :: es)
    rw [moved_tuple]
    simp only [List.map_cons, Element.moved] at h ⊢
    cases r <;> simp only [expression, Role.moved] at h ⊢ <;> rw [h]
termination_by structural s => s
theorem wrappedExpressions_moved : (ss : List Schema) → wrappedExpressions (ss.map (moved m n)) = wrappedExpressions ss
  | [] => rfl
  | s :: ss => by
    rw [List.map_cons, wrappedExpressions, wrappedExpressions, expression_moved s, wrapped_moved,
      wrappedExpressions_moved ss]
termination_by structural ss => ss
theorem propertyExpressions_moved : (ps : List (Property Schema)) →
    propertyExpressions (ps.map (Property.moved m n)) = propertyExpressions ps
  | [] => rfl
  | ⟨k, s, p⟩ :: ps => by
    rw [List.map_cons, Property.moved, propertyExpressions, propertyExpressions, expression_moved s,
      Property.textWith_moved, propertyExpressions_moved ps]
termination_by structural ps => ps
theorem indexExpressions_moved : (i : Option (IndexSignature Schema)) →
    indexExpressions (i.map (IndexSignature.moved m n)) = indexExpressions i
  | none => rfl
  | some ⟨k, s⟩ => by
    rw [Option.map_some, IndexSignature.moved, indexExpressions, indexExpressions, expression_moved k, expression_moved s]
termination_by structural i => i
theorem elementExpressions_moved : (es : List (Element Schema)) →
    elementExpressions (es.map (Element.moved m n)) = elementExpressions es
  | [] => rfl
  | ⟨r, s⟩ :: es => by
    rw [List.map_cons, Element.moved, elementExpressions, elementExpressions, expression_moved s, wrappedElement_moved,
      Element.textWith_moved, elementExpressions_moved es]
termination_by structural es => es
end

section Shapes

variable (roles : List Role)

theorem secondVariadic?_moved : Role.secondVariadic? (roles.map (Role.moved n)) = Role.secondVariadic? roles := by
  have hfilter : ∀ l : List (Role × Nat), (l.map (Prod.map (Role.moved n) id)).filter (fun r => r.1.isVariadic) =
      (l.filter fun r => r.1.isVariadic).map (Prod.map (Role.moved n) id) := fun l => by
    simp [List.filter_map, Function.comp_def]
  unfold Role.secondVariadic?
  rw [List.zipIdx_map, hfilter, List.getElem?_map, Option.map_map]
  rfl

theorem besideTrailing?_moved : Role.besideTrailing? (roles.map (Role.moved n)) =
    (Role.besideTrailing? roles).map (Prod.map (Role.moved n) id) := by
  have hany : (roles.map (Role.moved n)).any Role.isTrailing = roles.any Role.isTrailing := by
    simp [List.any_map, Function.comp_def]
  unfold Role.besideTrailing? Role.omissible?
  rw [hany, List.zipIdx_map, List.find?_map]
  simp only [Function.comp_def, Prod.map_fst, Role.moved_rank]
  split_ifs <;> rfl

theorem strayTrailing?_moved (i : Nat) :
    Role.strayTrailing? i (roles.map (Role.moved n)) = Role.strayTrailing? i roles := by
  induction roles generalizing i with
  | nil => rfl
  | cons r roles ih => simp [Role.strayTrailing?, ih]

theorem descent?_moved (i : Nat) : Role.descent? i (roles.map (Role.moved n)) =
    (Role.descent? i roles).map fun d => (d.1.moved n, d.2.1.moved n, d.2.2) := by
  induction roles generalizing i with
  | nil => rfl
  | cons r roles ih =>
    cases roles with
    | nil => rfl
    | cons s roles =>
      simp only [List.map_cons] at ih ⊢
      simp only [Role.descent?, Role.moved_rank, ih]
      split_ifs <;> rfl

theorem shapeError?_moved : Role.shapeError? (roles.map (Role.moved n)) = Role.shapeError? roles := by
  unfold Role.shapeError?
  rw [secondVariadic?_moved, besideTrailing?_moved, strayTrailing?_moved, descent?_moved]
  cases Role.secondVariadic? roles with
  | some i => rfl
  | none =>
    cases Role.besideTrailing? roles with
    | some r => simp
    | none =>
      cases Role.strayTrailing? 0 roles with
      | some i => rfl
      | none => cases Role.descent? 0 roles <;> simp

end Shapes

/-- The legal orders of a tuple do not depend on its defaults. -/
theorem makeTuple_moved (es : List (Element Schema)) :
    makeTuple (es.map (Element.moved m n)) = (makeTuple es).map (moved m n) := by
  have hroles : (es.map (Element.moved m n)).map (·.role) = (es.map (·.role)).map (Role.moved n) := by
    rw [List.map_map, List.map_map]
    rfl
  unfold makeTuple
  rw [hroles, shapeError?_moved]
  cases Role.shapeError? (es.map (·.role)) with
  | some e => rfl
  | none => exact congrArg Except.ok (moved_tuple es).symm

section Domains

variable {S : Ref → Prop} {follow follow' : Ref → Except Fault (Option DomainSet)}

theorem unionDomains_map {f : Schema → Schema} {bs : List Schema}
    (h : ∀ b ∈ bs, (f b).domainsWith follow' = b.domainsWith follow) :
    unionDomains follow' (bs.map f) = unionDomains follow bs := by
  induction bs with
  | nil => rfl
  | cons b bs ih =>
    obtain ⟨hb, hbs⟩ := List.forall_mem_cons.mp h
    rw [List.map_cons, unionDomains, unionDomains, hb, ih hbs]

theorem memberDomains_map {f : Schema → Schema} {ms : List Schema}
    (h : ∀ t ∈ ms, (f t).domainsWith follow' = t.domainsWith follow) :
    memberDomains follow' (ms.map f) = memberDomains follow ms := by
  induction ms with
  | nil => rfl
  | cons t ms ih =>
    obtain ⟨ht, hms⟩ := List.forall_mem_cons.mp h
    rw [List.map_cons, memberDomains, memberDomains, ht, ih hms]

/-- A schema is bounded as before when its references are. -/
theorem domainsWith_moved (hfollow : ∀ r, S r → follow' (r.moved m) = follow r) {s : Schema} (hs : s.Into S) :
    (s.moved m n).domainsWith follow' = s.domainsWith follow := by
  induction s using induction_on_parts with
  | _ s ih =>
    have ih : ∀ t ∈ s.parts, (t.moved m n).domainsWith follow' = t.domainsWith follow := fun t ht => ih t ht (hs.part ht)
    cases s with
    | constrained s cs => exact ih s (List.mem_singleton_self s)
    | union bs => exact (congrArg (domainsWith follow') (moved_union bs)).trans (unionDomains_map ih)
    | intersection ms =>
      rw [moved_intersection, domainsWith, domainsWith]
      exact congrArg (· >>= fun ds => pure (meetKnown ds)) (memberDomains_map ih)
    | ref r => exact hfollow r (into_ref.mp hs)
    | _ => rfl

end Domains

end Schema
end Schemata
