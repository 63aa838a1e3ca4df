import Schemata.Algebra.Union
import Schemata.Proofs.Constraint.Spelling
import Schemata.Proofs.Schema.Likeness

/-! Schemas that differ in the spelling of their numbers: they are equal to the same schemas and have the same
size, and lists of them have the same repetitions. -/
namespace Schemata

namespace Schema

/-- First container written at the node itself that may change. -/
def ownChangeable? : Schema → Option String
  | .literal v => v.changeable?
  | .constrained _ cs => anyConstraintChangeable? cs
  | _ => none

/-- The first answer of a list. -/
def firstOf (os : List (Option String)) : Option String := os.foldr Option.or none

theorem firstOf_append (os os' : List (Option String)) : firstOf (os ++ os') = (firstOf os).or (firstOf os') := by
  induction os with
  | nil => rfl
  | cons o os ih => rw [List.cons_append, firstOf, List.foldr_cons, ← firstOf, ih, ← Option.or_assoc]; rfl

theorem changeable?_eq_parts (s : Schema) : s.changeable? = (firstOf (s.parts.map changeable?)).or s.ownChangeable? := by
  have all : ∀ ss, anyChangeable? ss = firstOf (ss.map changeable?) := by
    intro ss
    induction ss with
    | nil => rfl
    | cons s ss ih => rw [anyChangeable?, ih]; rfl
  have properties : ∀ ps, anyPropertyChangeable? ps = firstOf (ps.map fun p => p.value.changeable?) := by
    intro ps
    induction ps with
    | nil => rfl
    | cons p ps ih => rw [anyPropertyChangeable?, ih]; rfl
  have elements : ∀ es, anyElementChangeable? es = firstOf (es.map fun e => e.value.changeable?) := by
    intro es
    induction es with
    | nil => rfl
    | cons e es ih => rw [anyElementChangeable?, ih]; rfl
  cases s with
  | constrained s cs => simp [changeable?, parts, firstOf, ownChangeable?]
  | union bs =>
    rw [changeable?, all]
    exact Option.or_none.symm
  | intersection ms =>
    rw [changeable?, all]
    exact Option.or_none.symm
  | object o =>
    obtain ⟨ps, i, u⟩ := o
    have index : indexChangeable? i = firstOf ((IndexSignature.parts i).map changeable?) := by
      cases i <;> simp [indexChangeable?, IndexSignature.parts, firstOf]
    rw [changeable?, properties, index, parts, List.map_append, firstOf_append, List.map_map]
    exact Option.or_none.symm
  | tuple es =>
    rw [changeable?, elements, parts, List.map_map]
    exact Option.or_none.symm
  | _ => rfl

end Schema

/-- Schemas that differ in the spelling of numbers only. Numbers of literals may differ in it where `blind` holds,
and where it holds nothing asks for a class of numbers. -/
def Likeness.spelling (blind : Prop) : Likeness where
  literal v w := v.Respells w ∧ (v = w ∨ blind)
  constraint := Constraint.Respells blind
  default p q := p = q
  named _ := True

namespace Schema

variable {blind : Prop} {a b c a' b' s t : Schema}

theorem Alike.respelled (h : Alike (.spelling blind) a b) : Alike (.spelling blind) b a := by
  refine h.flip.within ⟨fun v w h => ⟨h.1.symm, h.2.imp Eq.symm id⟩, fun c d h => h.symm, fun p q h => h.symm, ?_⟩
  exact fun r _ => trivial

theorem Alike.respell (h : Alike (.spelling blind) a b) (k : Alike (.spelling blind) b c) :
    Alike (.spelling blind) a c := by
  refine (h.comp k).within ⟨?_, ?_, ?_, fun r _ => trivial⟩
  · rintro v w ⟨x, hx, hw⟩
    refine ⟨hx.1.trans hw.1, ?_⟩
    rcases hx.2 with rfl | hblind
    · exact hw.2
    · exact Or.inr hblind
  · rintro c d ⟨e, hc, hd⟩
    exact hc.trans hd
  · rintro p q ⟨r, hp, hq⟩
    exact hp.trans hq

/-- Equality of schemas does not look at spellings. -/
theorem same_alike (ha : Alike (.spelling blind) a a') (hb : Alike (.spelling blind) b b') : a.same b = a'.same b' := by
  have towards : ∀ {a b a' b' : Schema}, Alike (.spelling blind) a a' → Alike (.spelling blind) b b' →
      a.same b = true → a'.same b' = true := by
    intro a b a' b' ha hb h
    refine same_of_alike (((ha.flip.comp (alike_of_same h)).comp hb).within ⟨?_, ?_, ?_, fun _ _ => trivial⟩)
    · rintro v' w' ⟨w, ⟨v, hv, hsame⟩, hw⟩
      exact ⟨(Value.same_weighs hv.1.weighs hw.1.weighs).symm.trans hsame.1,
        hv.1.domain.symm.trans (hsame.2.trans hw.1.domain)⟩
    · rintro c' d' ⟨d, ⟨c, hc, hsame⟩, hd⟩
      exact (hc.same hd).symm.trans hsame
    · rintro p' q' ⟨q, ⟨p, rfl, hsame⟩, rfl⟩
      exact hsame
  exact Bool.eq_iff_iff.mpr ⟨towards ha hb, towards ha.respelled hb.respelled⟩

theorem changeable?_alike (h : Alike (.spelling blind) s t) : s.changeable? = t.changeable? := by
  refine Alike.induct (P := fun s t => s.changeable? = t.changeable?) (fun s t hf hparts => ?_) h
  have hfirst : s.parts.map changeable? = t.parts.map changeable? := by
    rw [← List.forall₂_eq_eq_eq, List.forall₂_map_left_iff, List.forall₂_map_right_iff]
    exact hparts.imp fun a b hab => hab.2
  have hconstraints : ∀ {cs ds : List Constraint}, List.Forall₂ (Constraint.Respells blind) cs ds →
      anyConstraintChangeable? cs = anyConstraintChangeable? ds := by
    intro cs ds h
    induction h with
    | nil => rfl
    | cons hc _ ih => rw [anyConstraintChangeable?, anyConstraintChangeable?, hc.changeable?, ih]
  have hown : s.ownChangeable? = t.ownChangeable? := by
    cases s <;> cases t <;> first | rfl | exact hf.elim | skip
    · exact hf.1.weighs.changeable?
    · exact hconstraints hf
  rw [changeable?_eq_parts, changeable?_eq_parts, hfirst, hown]

theorem hashable_alike (ha : Alike (.spelling blind) a a') (hb : Alike (.spelling blind) b b') :
    a.hashable b = a'.hashable b' := by
  unfold hashable
  rw [changeable?_alike ha, changeable?_alike hb]

/-- Lists of schemas that differ in spellings only. -/
abbrev AllAlike (blind : Prop) : List Schema → List Schema → Prop := List.Forall₂ (Alike (.spelling blind))

variable {ss ts : List Schema}

theorem isIn_alike (hs : Alike (.spelling blind) s t) (h : AllAlike blind ss ts) : s.isIn ss = t.isIn ts := by
  unfold isIn
  induction h with
  | nil => rfl
  | cons hab _ ih => rw [List.any_cons, List.any_cons, same_alike hab hs, ih]

theorem distinct_alike (h : AllAlike blind ss ts) : AllAlike blind (distinct ss) (distinct ts) := by
  have fold : ∀ {ss ts kept kept' : List Schema}, AllAlike blind ss ts → AllAlike blind kept kept' →
      AllAlike blind (ss.foldl (fun kept s => if s.isIn kept then kept else kept ++ [s]) kept)
        (ts.foldl (fun kept s => if s.isIn kept then kept else kept ++ [s]) kept') := by
    intro ss ts kept kept' h hkept
    induction h generalizing kept kept' with
    | nil => exact hkept
    | cons hab _ ih =>
      refine ih ?_
      dsimp only
      rw [isIn_alike hab hkept]
      split_ifs
      · exact hkept
      · exact List.rel_append hkept (.cons hab .nil)
  exact fold h .nil

end Schema

section Parts

variable (blind : Prop)

/-- Properties that differ in spellings only. -/
structure Property.Respells (p q : Property Schema) : Prop where
  key : p.key = q.key
  presence : p.presence = q.presence
  value : Schema.Alike (.spelling blind) p.value q.value

structure IndexSignature.Respells (i j : IndexSignature Schema) : Prop where
  key : Schema.Alike (.spelling blind) i.key j.key
  value : Schema.Alike (.spelling blind) i.value j.value

structure ObjectShape.Respells (o q : ObjectShape Schema) : Prop where
  properties : List.Forall₂ (Property.Respells blind) o.properties q.properties
  index : Option.Rel (IndexSignature.Respells blind) o.index q.index
  undeclared : o.undeclared = q.undeclared

structure Element.Respells (e f : Element Schema) : Prop where
  role : e.role = f.role
  value : Schema.Alike (.spelling blind) e.value f.value

end Parts

namespace Schema

variable {blind : Prop} {a b a' b' s t : Schema}

/-- Two nodes that differ in spellings only, by their kind. -/
inductive Respells (blind : Prop) : Schema → Schema → Prop
  | keyword (k : Keyword) : Respells blind (.keyword k) (.keyword k)
  | literal {v w : Value} : v.Respells w → v = w ∨ blind → Respells blind (.literal v) (.literal w)
  | constrained {s t : Schema} {cs ds : List Constraint} : Alike (.spelling blind) s t →
      List.Forall₂ (Constraint.Respells blind) cs ds → Respells blind (.constrained s cs) (.constrained t ds)
  | union {bs cs : List Schema} : AllAlike blind bs cs → Respells blind (.union bs) (.union cs)
  | intersection {ms ns : List Schema} : AllAlike blind ms ns → Respells blind (.intersection ms) (.intersection ns)
  | ref (r : Ref) : Respells blind (.ref r) (.ref r)
  | object {o q : ObjectShape Schema} : o.Respells blind q → Respells blind (.object o) (.object q)
  | tuple {es fs : List (Element Schema)} : List.Forall₂ (Element.Respells blind) es fs →
      Respells blind (.tuple es) (.tuple fs)

theorem Respells.alike (h : Respells blind s t) : Alike (.spelling blind) s t := by
  have presence : ∀ p : Presence, (Likeness.spelling blind).presence p p := fun p => by cases p <;> trivial
  have role : ∀ r : Role, (Likeness.spelling blind).role r r := fun r => by cases r <;> trivial
  cases h with
  | keyword k => exact .of_parts rfl .nil
  | literal hv hblind => exact .of_parts ⟨hv, hblind⟩ .nil
  | constrained hs hcs => exact .of_parts hcs (.cons hs .nil)
  | union h => exact .of_parts trivial h
  | intersection h => exact .of_parts trivial h
  | ref r => exact .of_parts ⟨rfl, trivial⟩ .nil
  | @object o q h =>
    obtain ⟨hprops, hindex, hpolicy⟩ := h
    have hsome : o.index.isSome = q.index.isSome := by
      generalize o.index = i at hindex ⊢
      generalize q.index = j at hindex ⊢
      cases hindex <;> rfl
    refine .of_parts ⟨hprops.imp fun p q h => ⟨h.key, h.presence ▸ presence _⟩, hsome, hpolicy⟩ ?_
    refine (forall₂_object_parts hprops.length_eq hsome).mpr ⟨hprops.imp fun p q h => h.value, ?_⟩
    generalize o.index = i at hindex ⊢
    generalize q.index = j at hindex ⊢
    cases hindex with
    | none => exact .none
    | some h => exact .some ⟨h.key, h.value⟩
  | tuple h =>
    refine .of_parts (h.imp fun e f h => h.role ▸ role _) ?_
    exact List.forall₂_map_left_iff.mpr (List.forall₂_map_right_iff.mpr (h.imp fun e f h => h.value))

theorem Alike.nodes (h : Alike (.spelling blind) s t) : Respells blind s t := by
  have hf := h.form
  have hparts := h.parts
  cases s <;> cases t <;> simp only [Form] at hf
  case keyword.keyword => exact hf ▸ .keyword _
  case literal.literal => exact .literal hf.1 hf.2
  case constrained.constrained => exact .constrained (List.forall₂_cons.mp hparts).1 hf
  case union.union => exact .union hparts
  case intersection.intersection => exact .intersection hparts
  case ref.ref => exact hf.1 ▸ .ref _
  case object.object o q =>
    obtain ⟨hprops, hindex, hpolicy⟩ := hf
    obtain ⟨hvalues, hsignature⟩ := (forall₂_object_parts hprops.length_eq hindex).mp hparts
    refine .object ⟨(forall₂_and hprops hvalues).imp fun p q h =>
      ⟨h.1.1, Likeness.presence_eq (fun _ _ h => h) h.1.2, h.2⟩, ?_, hpolicy⟩
    generalize o.index = i at hsignature ⊢
    generalize q.index = j at hsignature ⊢
    cases hsignature with
    | none => exact .none
    | some h => exact .some ⟨h.1, h.2⟩
  case tuple.tuple =>
    have hvalues := List.forall₂_map_left_iff.mp (List.forall₂_map_right_iff.mp hparts)
    exact .tuple ((forall₂_and hf hvalues).imp fun e f h => ⟨Likeness.role_eq (fun _ _ h => h) h.1, h.2⟩)

variable {ss ts : List Schema}

theorem isUnknown_alike (h : Alike (.spelling blind) s t) : s.isUnknown = t.isUnknown := by
  cases h.nodes <;> rfl

theorem isNever_alike (h : Alike (.spelling blind) s t) : s.isNever = t.isNever := by
  cases h.nodes with
  | union hbranches => cases hbranches <;> rfl
  | _ => rfl

theorem isRef_alike (h : Alike (.spelling blind) s t) : s.isRef = t.isRef := by
  cases h.nodes <;> rfl

theorem isPlain_alike (h : Alike (.spelling blind) s t) : s.isPlain = t.isPlain := by
  cases h.nodes <;> rfl

theorem branches_alike (h : Alike (.spelling blind) s t) : AllAlike blind s.branches t.branches := by
  cases h.nodes with
  | union hbranches => exact hbranches
  | _ => exact .cons h .nil

theorem members_alike (h : Alike (.spelling blind) s t) : AllAlike blind s.members t.members := by
  cases h.nodes with
  | intersection hmembers => exact hmembers
  | _ => exact .cons h .nil

theorem split_alike (h : Alike (.spelling blind) s t) :
    Alike (.spelling blind) s.split.1 t.split.1 ∧ List.Forall₂ (Constraint.Respells blind) s.split.2 t.split.2 := by
  cases h.nodes with
  | constrained hs hcs => exact ⟨hs, hcs⟩
  | _ => exact ⟨h, .nil⟩

theorem constrain_alike (h : Alike (.spelling blind) s t) {cs ds : List Constraint}
    (hcs : List.Forall₂ (Constraint.Respells blind) cs ds) : Alike (.spelling blind) (s.constrain cs) (t.constrain ds) := by
  cases hcs with
  | nil => exact h
  | cons hc hcs =>
    cases h.nodes with
    | constrained hs hold => exact Respells.alike (.constrained hs (List.rel_append hold (.cons hc hcs)))
    | _ => exact Respells.alike (.constrained h (.cons hc hcs))

theorem ofBranches_alike (h : AllAlike blind ss ts) : Alike (.spelling blind) (ofBranches ss) (ofBranches ts) := by
  cases h with
  | nil => exact Respells.alike (.union .nil)
  | cons hst h =>
    cases h with
    | nil => exact hst
    | cons hst' h => exact Respells.alike (.union (.cons hst (.cons hst' h)))

theorem flatMap_branches_alike (h : AllAlike blind ss ts) :
    AllAlike blind (ss.flatMap branches) (ts.flatMap branches) := by
  induction h with
  | nil => exact .nil
  | cons hst _ ih =>
    rw [List.flatMap_cons, List.flatMap_cons]
    exact List.rel_append (branches_alike hst) ih

/-- The scan for a first element stops at the same place in related lists. -/
theorem forall₂_span {α β : Type} {R : α → β → Prop} {p : α → Bool} {q : β → Bool} (hpq : ∀ a b, R a b → p a = q b)
    {as : List α} {bs : List β} (h : List.Forall₂ R as bs) :
    List.Forall₂ R (as.takeWhile p) (bs.takeWhile q) ∧ List.Forall₂ R (as.dropWhile p) (bs.dropWhile q) := by
  induction h with
  | nil => exact ⟨.nil, .nil⟩
  | cons hab h ih =>
    rw [List.takeWhile_cons, List.takeWhile_cons, List.dropWhile_cons, List.dropWhile_cons, hpq _ _ hab]
    split_ifs
    · exact ⟨.cons hab ih.1, ih.2⟩
    · exact ⟨.nil, .cons hab h⟩

theorem collapseBooleans_alike (h : AllAlike blind ss ts) :
    AllAlike blind (collapseBooleans ss) (collapseBooleans ts) := by
  have self : ∀ b, Alike (.spelling blind) (.literal (.bool b)) (.literal (.bool b)) := fun b =>
    Respells.alike (.literal (Or.inl ⟨rfl, trivial⟩) (Or.inl rfl))
  have yes : Alike (.spelling blind) trueLiteral trueLiteral := self true
  have no : Alike (.spelling blind) falseLiteral falseLiteral := self false
  have truth : ∀ s t, Alike (.spelling blind) s t →
      (!(s.same trueLiteral || s.same falseLiteral)) = !(t.same trueLiteral || t.same falseLiteral) := by
    intro s t hst
    rw [same_alike hst yes, same_alike hst no]
  unfold collapseBooleans
  rw [isIn_alike yes h, isIn_alike no h]
  split_ifs
  · obtain ⟨hbefore, hbehind⟩ := forall₂_span truth h
    refine List.rel_append hbefore (.cons (Respells.alike (.keyword .boolean)) ?_)
    exact List.rel_filter (fun s t hst => Bool.eq_iff_iff.mp (truth s t hst)) hbehind
  · exact h

/-- Pairs of schemas that differ in spellings only. -/
abbrev PairsAlike (blind : Prop) : List (Schema × Schema) → List (Schema × Schema) → Prop :=
  List.Forall₂ fun p q => Alike (.spelling blind) p.1 q.1 ∧ Alike (.spelling blind) p.2 q.2

theorem pairIn_alike {pairs pairs' : List (Schema × Schema)} (hs : Alike (.spelling blind) a a')
    (ht : Alike (.spelling blind) b b') (h : PairsAlike blind pairs pairs') : a.pairIn b pairs = a'.pairIn b' pairs' := by
  unfold pairIn
  induction h with
  | nil => rfl
  | cons hpq _ ih => rw [List.any_cons, List.any_cons, same_alike hpq.1 hs, same_alike hpq.2 ht, ih]

end Schema
end Schemata
