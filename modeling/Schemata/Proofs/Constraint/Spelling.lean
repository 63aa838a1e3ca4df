import Schemata.Algebra.Intersection
import Schemata.Proofs.Value.Spelling

/-! Constraints that differ in the spelling of their numbers. They are equal to the same constraints, cover the
same ones and narrow each other in the same way. -/
namespace Schemata
namespace Range

open Value (Weighs)

/-- Bounds of one weight, open or closed alike. -/
structure Respells (r s : Range) : Prop where
  least : Option.Rel Weighs r.least s.least
  greatest : Option.Rel Weighs r.greatest s.greatest
  aboveLeast : r.aboveLeast = s.aboveLeast
  belowGreatest : r.belowGreatest = s.belowGreatest

variable {r s r' s' : Range}

section Bounds

variable {o p o' p' : Option Value}

theorem bound_symm (h : Option.Rel Weighs o p) : Option.Rel Weighs p o := by
  cases h with
  | none => exact .none
  | some h => exact .some h.symm

theorem bound_trans (h : Option.Rel Weighs o p) (k : Option.Rel Weighs p o') : Option.Rel Weighs o o' := by
  cases h with
  | none => exact k
  | some h =>
    cases k with
    | some k => exact .some (h.trans k)

theorem sameBound_weighs (h : Option.Rel Weighs o p) (k : Option.Rel Weighs o' p') :
    sameBound o o' = sameBound p p' := by
  cases h <;> cases k <;> first | rfl | skip
  rename_i h _ _ k
  exact Value.same_weighs h k

theorem changeable_weighs (h : Option.Rel Weighs o p) : o.bind (·.changeable?) = p.bind (·.changeable?) := by
  cases h with
  | none => rfl
  | some h => exact h.changeable?

/-- Two bounds of one weight, both open or both closed. -/
def Tallies (a b : Option Value × Bool) : Prop := Option.Rel Weighs a.1 b.1 ∧ a.2 = b.2

theorem tighter_respells (c : Comparison) {a a' b b' : Option Value × Bool} (ha : Tallies a a')
    (hb : Tallies b b') :
    Agree (fun _ _ => True) Tallies (tighter c a b) (tighter c a' b') := by
  obtain ⟨a, aOpen⟩ := a
  obtain ⟨a', _⟩ := a'
  obtain ⟨b, bOpen⟩ := b
  obtain ⟨b', _⟩ := b'
  obtain ⟨ha, rfl⟩ := ha
  obtain ⟨hb, rfl⟩ := hb
  cases ha with
  | none => exact ⟨hb, rfl⟩
  | @some x x' hx =>
    cases hb with
    | none => exact ⟨.some hx, rfl⟩
    | @some y y' hy =>
      unfold tighter
      dsimp only
      rw [Value.equal_weighs hx hy]
      split_ifs
      · exact ⟨.some hx, rfl⟩
      · refine (Value.holds_weighs c hy hx).bind ?_
        rintro tight _ rfl
        have hchosen : (if tight then y else x).Weighs (if tight then y' else x') := by
          split_ifs
          · exact hy
          · exact hx
        refine ⟨.some hchosen, ?_⟩
        dsimp only
        rw [Value.equal_weighs hchosen hx]

end Bounds

namespace Respells

theorem symm (h : r.Respells s) : s.Respells r :=
  ⟨bound_symm h.least, bound_symm h.greatest, h.aboveLeast.symm, h.belowGreatest.symm⟩

theorem trans (h : r.Respells s) (k : s.Respells r') : r.Respells r' :=
  ⟨bound_trans h.least k.least, bound_trans h.greatest k.greatest, h.aboveLeast.trans k.aboveLeast,
    h.belowGreatest.trans k.belowGreatest⟩

theorem same (h : r.Respells s) (k : r'.Respells s') : r.same r' = s.same s' := by
  unfold Range.same
  rw [sameBound_weighs h.least k.least, sameBound_weighs h.greatest k.greatest, h.aboveLeast, h.belowGreatest,
    k.aboveLeast, k.belowGreatest]

theorem isEmpty (h : r.Respells s) : Agree (fun _ _ => True) (· = ·) r.isEmpty s.isEmpty := by
  obtain ⟨least, greatest, above, below⟩ := r
  obtain ⟨least', greatest', _, _⟩ := s
  obtain ⟨hlow, hhigh, rfl, rfl⟩ := h
  unfold Range.isEmpty
  cases hlow with
  | none => exact rfl
  | some hlow =>
    cases hhigh with
    | none => exact rfl
    | some hhigh =>
      refine (Value.holds_weighs .greater hlow hhigh).bind ?_
      rintro beyond _ rfl
      rw [Value.equal_weighs hlow hhigh]
      split_ifs <;> exact rfl

theorem narrow (h : r.Respells s) (k : r'.Respells s') :
    Agree (fun _ _ => True) (Option.Rel Respells) (r.narrow r') (s.narrow s') := by
  refine (tighter_respells .greater ⟨h.least, h.aboveLeast⟩ ⟨k.least, k.aboveLeast⟩).bind fun low low' hlow => ?_
  refine (tighter_respells .less ⟨h.greatest, h.belowGreatest⟩ ⟨k.greatest, k.belowGreatest⟩).bind
    fun high high' hhigh => ?_
  have met : Respells ⟨low.1, high.1, low.2, high.2⟩ ⟨low'.1, high'.1, low'.2, high'.2⟩ :=
    ⟨hlow.1, hhigh.1, hlow.2, hhigh.2⟩
  refine met.isEmpty.bind ?_
  rintro empty _ rfl
  cases empty with
  | true => exact .none
  | false => exact .some met

theorem covers (h : r.Respells s) (k : r'.Respells s') :
    Agree (fun _ _ => True) (· = ·) (r.covers r') (s.covers s') := by
  refine (h.narrow k).bind fun o o' ho => ?_
  cases ho with
  | none => exact rfl
  | some hmet => exact hmet.same k

end Respells
end Range

namespace Constraint

/-- Values written in a constraint are well formed. -/
def Written : Constraint → Prop
  | .range r => (∀ v ∈ r.least, v.Tied) ∧ ∀ v ∈ r.greatest, v.Tied
  | .equals v => v.Tied
  | _ => True

/-- The constraint asks for no class of numbers. What a narrowing function asks for cannot be told. -/
def Blind : Constraint → Prop
  | .type t => t ≠ .int ∧ t ≠ .float
  | .predicate _ => False
  | _ => True

/-- Constraints with the same numbers in them, however these are spelled. Where `blind` holds, none of them asks
for a class of numbers. -/
inductive Respells (blind : Prop) : Constraint → Constraint → Prop
  | range {r s : Range} : r.Respells s → Respells blind (.range r) (.range s)
  | length (l : Length) : Respells blind (.length l) (.length l)
  | pattern (p : Pattern) : Respells blind (.pattern p) (.pattern p)
  | equals {v w : Value} : v.Respells w → Respells blind (.equals v) (.equals w)
  | type (t : TypeTag) : (blind → (Constraint.type t).Blind) → Respells blind (.type t) (.type t)
  | predicate (p : Predicate) : ¬ blind → Respells blind (.predicate p) (.predicate p)

variable {blind : Prop} {c d c' d' : Constraint}

namespace Respells

theorem symm (h : Respells blind c d) : Respells blind d c := by
  cases h with
  | range h => exact .range h.symm
  | equals h => exact .equals h.symm
  | length l => exact .length l
  | pattern p => exact .pattern p
  | type t h => exact .type t h
  | predicate p h => exact .predicate p h

theorem trans (h : Respells blind c d) (k : Respells blind d c') : Respells blind c c' := by
  cases h with
  | range h =>
    cases k with
    | range k => exact .range (h.trans k)
  | equals h =>
    cases k with
    | equals k => exact .equals (h.trans k)
  | _ => exact k

theorem same (h : Respells blind c d) (k : Respells blind c' d') : c.same c' = d.same d' := by
  cases h with
  | range h =>
    cases k with
    | range k => exact h.same k
    | _ => rfl
  | equals h =>
    cases k with
    | equals k => exact Value.same_weighs h.weighs k.weighs
    | _ => rfl
  | _ => cases k <;> rfl

theorem changeable? (h : Respells blind c d) : c.changeable? = d.changeable? := by
  cases h with
  | range h =>
    show Option.or _ _ = Option.or _ _
    rw [Range.changeable_weighs h.least, Range.changeable_weighs h.greatest]
  | equals h => exact h.weighs.changeable?
  | _ => rfl

theorem self (hc : c.Written) (hblind : blind → c.Blind) : Respells blind c c := by
  have bound : ∀ {o : Option Value}, (∀ v ∈ o, v.Tied) → Option.Rel Value.Weighs o o := by
    intro o ho
    cases o with
    | none => exact .none
    | some v => exact .some (Or.inl ⟨rfl, ho v rfl⟩)
  cases c with
  | range r => exact .range ⟨bound hc.1, bound hc.2, rfl, rfl⟩
  | length l => exact .length l
  | pattern p => exact .pattern p
  | equals v => exact .equals (Or.inl ⟨rfl, hc⟩)
  | type t => exact .type t hblind
  | predicate p => exact .predicate p hblind

/-- Two constraints narrow each other when their respellings do. -/
theorem narrow? (h : Respells blind c d) (k : Respells blind c' d') :
    Option.Rel (Agree (fun _ _ => True) (Option.Rel (Respells blind))) (c.narrow? c') (d.narrow? d') := by
  cases h with
  | range h =>
    cases k with
    | range k =>
      refine .some ((h.narrow k).map fun o o' ho => ?_)
      cases ho with
      | none => exact .none
      | some ho => exact .some (.range ho)
    | _ => exact .none
  | length l =>
    cases k with
    | length m =>
      refine .some ?_
      show Option.Rel (Respells blind) ((l.narrow? m).map .length) ((l.narrow? m).map .length)
      cases l.narrow? m with
      | none => exact .none
      | some met => exact .some (.length met)
    | _ => exact .none
  | _ => cases k <;> exact .none

theorem covers (h : Respells blind c d) (k : Respells blind c' d') :
    Agree (fun _ _ => True) (· = ·) (c.covers c') (d.covers d') := by
  cases h with
  | range h =>
    cases k with
    | range k => exact h.covers k
    | _ => exact rfl
  | length l =>
    cases k <;> exact rfl
  | _ => cases k <;> exact rfl

end Respells

section Gathering

variable {E : Fault → Fault → Prop}

/-- What narrows one of the constraints narrows its respelling. -/
theorem narrowInto_respells (horder : ∀ e f, E (.check (.order e)) (.check (.order f)))
    {disjoint disjoint' : Constraint → Constraint → Fault} (hdisjoint : ∀ c d c' d', E (disjoint c d) (disjoint' c' d'))
    {known known' : List Constraint} (h : List.Forall₂ (Respells blind) known known') (hc : Respells blind c c') :
    Agree E (Option.Rel (List.Forall₂ (Respells blind))) (narrowInto disjoint c known)
      (narrowInto disjoint' c' known') := by
  induction h with
  | nil => exact .none
  | @cons d d' ds ds' hd hds ih =>
    unfold narrowInto
    have hnarrow := hd.narrow? hc
    generalize d.narrow? c = o at hnarrow ⊢
    generalize d'.narrow? c' = o' at hnarrow ⊢
    cases hnarrow with
    | none =>
      refine ih.map fun o o' ho => ?_
      cases ho with
      | none => exact .none
      | some ho => exact .some (.cons hd ho)
    | @some r r' hr =>
      cases r with
      | error e =>
        cases r' with
        | error f => exact horder e f
        | ok o' => exact hr.elim
      | ok o =>
        cases r' with
        | error f => exact hr.elim
        | ok o' =>
          cases hr with
          | none => exact hdisjoint _ _ _ _
          | some hmet => exact .some (.cons hmet hds)

/-- Constraints gather to respellings of each other. -/
theorem gather_respells (horder : ∀ e f, E (.check (.order e)) (.check (.order f)))
    {disjoint disjoint' : Constraint → Constraint → Fault} (hdisjoint : ∀ c d c' d', E (disjoint c d) (disjoint' c' d'))
    {known known' : List Constraint} (h : List.Forall₂ (Respells blind) known known') (hc : Respells blind c c') :
    Agree E (List.Forall₂ (Respells blind)) (gather disjoint known c) (gather disjoint' known' c') := by
  have known_same : (known.any fun d => d.same c) = known'.any fun d => d.same c' := by
    induction h with
    | nil => rfl
    | cons hd _ ih => rw [List.any_cons, List.any_cons, hd.same hc, ih]
  refine (narrowInto_respells horder hdisjoint h hc).bind fun o o' ho => ?_
  cases ho with
  | none =>
    show List.Forall₂ (Respells blind) (if _ then _ else _) (if _ then _ else _)
    rw [known_same]
    split_ifs
    · exact h
    · exact List.rel_append h (.cons hc .nil)
  | some hmet => exact hmet

theorem impliedBy_respells (horder : ∀ e f, E (.check (.order e)) (.check (.order f))) {others others' : List Constraint}
    (h : List.Forall₂ (Respells blind) others others') (hc : Respells blind c c') :
    Agree E (· = ·) (c.impliedBy others) (c'.impliedBy others') := by
  refine .anyM (h.imp fun d d' hd => ?_)
  rw [hd.same hc]
  split_ifs
  · exact rfl
  · exact (hc.covers hd).mapError fun e f _ => horder e f

end Gathering
end Constraint
end Schemata
