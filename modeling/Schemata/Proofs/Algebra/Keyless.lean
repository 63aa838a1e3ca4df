import Schemata.Proofs.Algebra.Compose
import Schemata.Proofs.Algebra.Stops

/-! Whatever an intersection stops with, it does not say that a key is not found. -/
namespace Schemata

theorem Quiet.keyless {α : Type} {x : Except Fault α} (h : Quiet x) :
    Ends x (fun _ => True) fun e => e.isKeyNotFound = false :=
  h.ends.mono (fun _ h => h) fun _ he => (Bool.or_eq_false_iff.mp he).2

namespace Compose

variable {α β : Type} {x : Compose α}

/-- No error of the computation says that a key is not found. -/
def Keyless (x : Compose α) : Prop := x.Yields (fun _ => True) fun e => e.isKeyNotFound = false

namespace Keyless

theorem pure (a : α) : Keyless (Pure.pure a) := Yields.pure trivial

theorem throw {e : Fault} (h : e.isKeyNotFound = false) : Keyless (MonadExcept.throw e : Compose α) := Yields.throw h

theorem unsatisfiable (a b : Schema) (reason : Emptiness) : Keyless (Compose.unsatisfiable a b reason : Compose α) :=
  throw rfl

theorem bind {f : α → Compose β} (h : x.Keyless) (hf : ∀ a, (f a).Keyless) : (x >>= f).Keyless :=
  Yields.bind h fun a _ => hf a

theorem lift {y : Except Fault α} (h : Ends y (fun _ => True) fun e => e.isKeyNotFound = false) :
    Keyless (liftM y) := Yields.lift h

theorem mapM {f : α → Compose β} {l : List α} (h : ∀ a ∈ l, (f a).Keyless) : (l.mapM f).Keyless := by
  have h : ∀ a ∈ l, (f a).Yields (fun _ => True) fun e => e.isKeyNotFound = false := h
  exact (Yields.mapM h).mono (fun _ _ => trivial) fun _ he => he

theorem unlessEmpty {x : Compose Schema} (h : x.Keyless) : (Compose.unlessEmpty x).Keyless :=
  (Yields.unlessEmpty h).mono (fun _ _ => trivial) fun _ he => he.2

theorem place {meet : Schema → Schema → Compose Schema} {a b : Schema} (h : (meet a b).Keyless) (optional : Bool) :
    (Compose.place meet a b optional).Keyless := by
  cases optional with
  | false => exact h
  | true => exact h.unlessEmpty.bind fun _ => .pure _

end Keyless
end Compose

open Compose (Keyless)

namespace Constraint

variable {disjoint : Constraint → Constraint → Fault}

theorem narrowInto_keyless (hdisjoint : ∀ c d, (disjoint c d).isKeyNotFound = false) (c : Constraint)
    (known : List Constraint) :
    Ends (narrowInto disjoint c known) (fun _ => True) fun e => e.isKeyNotFound = false := by
  induction known with
  | nil => trivial
  | cons d known ih =>
    unfold narrowInto
    split
    · trivial
    · exact hdisjoint d c
    · rfl
    · exact ih.bind fun _ _ => trivial

theorem gatherAll_keyless (hdisjoint : ∀ c d, (disjoint c d).isKeyNotFound = false) (cs : List Constraint) :
    Ends (cs.foldlM (gather disjoint) []) (fun _ => True) fun e => e.isKeyNotFound = false := by
  refine Ends.foldlM (I := fun _ _ => True) trivial fun _ c _ known _ _ => ?_
  refine (narrowInto_keyless hdisjoint c known).bind fun narrowed _ => ?_
  cases narrowed <;> trivial

end Constraint

section Parts

variable {admits : Schema → Value → Except Fault Bool} {meet : Schema → Schema → Compose Schema}
  (hmeet : ∀ s t, (meet s t).Keyless)
include hmeet

theorem ObjectShape.meetIndex_keyless (i j : Option (IndexSignature Schema)) : (meetIndex meet i j).Keyless := by
  unfold meetIndex
  split
  · exact .pure _
  · exact .pure _
  · split_ifs
    · exact (hmeet _ _).bind fun _ => .pure _
    · exact .throw rfl

theorem ObjectShape.meetDeclared_keyless (p q : Property Schema) : (meetDeclared meet p q).Keyless := by
  unfold meetDeclared
  split_ifs
  · exact .pure _
  · split
    · exact .throw rfl
    · exact (Compose.Keyless.place (hmeet _ _) _).bind fun _ => .pure _

theorem ObjectShape.meetUndeclared_keyless (hadmits : ∀ s v, Quiet (admits s v)) (o u : ObjectShape Schema)
    (p : Property Schema) : (meetUndeclared admits meet o u p).Keyless := by
  unfold meetUndeclared
  rcases u.index with - | i
  on_goal 2 => refine Keyless.bind (.lift (hadmits i.key p.key.toValue).keyless) fun _ => ?_
  -- With a signature or without one, a value or nothing is handed on.
  all_goals
    refine Keyless.bind (.pure _) fun indexed => ?_
    cases indexed with
    | some value => exact (Compose.Keyless.place (hmeet _ _) _).bind fun _ => .pure _
    | none =>
      dsimp only
      split_ifs
      · exact .unsatisfiable _ _ _
      · exact .pure _
      · exact .pure _
      · exact .pure _

theorem ObjectShape.meetShapes_keyless (hadmits : ∀ s v, Quiet (admits s v)) (o u : ObjectShape Schema) :
    (meetShapes admits meet o u).Keyless := by
  have hshapes := meetShapes_yields (meetIndex_keyless hmeet o.index u.index)
    (fun p _ _ => meetUndeclared_keyless hmeet hadmits o u p) (fun p _ q _ _ => meetDeclared_keyless hmeet p q)
    fun q _ _ => meetUndeclared_keyless hmeet hadmits u o q
  exact hshapes.mono (fun _ _ => trivial) fun _ h => h

theorem Element.meetAs_keyless (template : Element Schema) (a b : Schema) : (meetAs meet template a b).Keyless :=
  (Compose.Keyless.place (hmeet _ _) _).bind fun _ => .pure _

theorem Element.meetPairwise_keyless (es fs : List (Element Schema)) : (meetPairwise meet es fs).Keyless := by
  induction es generalizing fs with
  | nil => exact .pure _
  | cons e es ih =>
    cases fs with
    | nil => exact .pure _
    | cons f fs =>
      unfold meetPairwise
      split_ifs
      · exact (meetAs_keyless hmeet _ _ _).bind fun _ => (ih fs).bind fun _ => .pure _
      · exact .throw rfl

theorem Element.meetTuples_keyless (es fs : List (Element Schema)) : (meetTuples meet es fs).Keyless := by
  unfold meetTuples
  by_cases hlengths : disjointLengths es fs = true
  · rw [if_pos hlengths]
    exact .unsatisfiable _ _ _
  · rw [if_neg hlengths]
    split
    · exact (hmeet _ _).bind fun _ => .pure _
    · exact (Keyless.mapM fun e _ => meetAs_keyless hmeet _ _ _).bind fun _ => .pure _
    · exact (Keyless.mapM fun e _ => meetAs_keyless hmeet _ _ _).bind fun _ => .pure _
    · split_ifs
      · exact (meetPairwise_keyless hmeet es fs).bind fun _ => .pure _
      · exact .pure _

theorem Env.meetConstrained_keyless (a b : Schema) : (Env.meetConstrained meet a b).Keyless := by
  refine (hmeet _ _).bind fun base => Keyless.bind (.lift ?_) fun _ => .pure _
  exact Constraint.gatherAll_keyless (fun _ _ => rfl) _

end Parts

namespace Env

variable {env : Env} {meet : Schema → Schema → Compose Schema}

theorem meetBranches_keyless (htrial : Quiet env.trial) {one : Schema → Compose Schema} (h : ∀ s, (one s).Keyless)
    (u other : Schema) (bs : List Schema) : (env.meetBranches u other bs one).Keyless := by
  have compatible : ∀ bs, (Env.compatible one bs).Keyless := by
    intro bs
    induction bs with
    | nil => exact .pure _
    | cons s bs ih => exact (h s).unlessEmpty.bind fun _ => ih.bind fun _ => .pure _
  refine (compatible bs).bind fun results => ?_
  split_ifs
  · exact .unsatisfiable _ _ _
  · exact .lift (union_quiet htrial results).keyless

theorem meetLiteral_keyless (htrial : Quiet env.trial) (literal : Schema) (v : Value) (other : Schema) :
    (env.meetLiteral literal v other).Keyless := by
  refine Keyless.bind (.lift (admits_quiet htrial other v).keyless) fun taken => ?_
  split_ifs
  · exact .pure _
  · exact .unsatisfiable _ _ _

theorem meetPlain_keyless (htrial : Quiet env.trial) (hmeet : ∀ s t, (meet s t).Keyless) (a b : Schema) :
    (env.meetPlain meet a b).Keyless := by
  refine Keyless.bind (.lift (env.domains?_quiet a).keyless) fun left => ?_
  refine Keyless.bind (.lift (env.domains?_quiet b).keyless) fun right => ?_
  dsimp only
  split_ifs
  · exact .unsatisfiable _ _ _
  · split
    · exact .pure _
    · exact .pure _
    · exact meetLiteral_keyless htrial _ _ _
    · exact meetLiteral_keyless htrial _ _ _
    · exact meetConstrained_keyless hmeet _ _
    · exact meetConstrained_keyless hmeet _ _
    · exact (ObjectShape.meetShapes_keyless hmeet (admits_quiet htrial) _ _).bind fun o =>
        .lift (makeObject_quiet o).keyless
    · exact Element.meetTuples_keyless hmeet _ _
    · refine Keyless.bind (.lift (isSubset_quiet htrial _ _).keyless) fun below => ?_
      split_ifs
      · exact .pure _
      · refine Keyless.bind (.lift (isSubset_quiet htrial _ _).keyless) fun above => ?_
        split_ifs <;> exact .pure _
    · exact .pure _
    · exact .pure _
    · exact .pure _

theorem meetWithin_keyless (htrial : Quiet env.trial) (fuel : Nat) (expanding : List (Schema × Schema))
    (a b : Schema) : (env.meetWithin fuel expanding a b).Keyless := by
  induction fuel generalizing expanding a b with
  | zero => exact .pure _
  | succ fuel ih =>
    have behind : ∀ s, Quiet (env.behind? s) := by
      intro s
      cases s <;> first | exact env.resolve?_quiet _ | exact .ok _
    have hashable : Quiet (a.hashable b) := by
      unfold Schema.hashable
      split
      · exact .error rfl
      · exact .ok _
    unfold meetWithin
    dsimp only
    split_ifs
    · exact .pure _
    · exact .pure _
    · exact .pure _
    · exact .unsatisfiable _ _ _
    · exact Keyless.bind (.lift hashable.keyless) fun _ => .pure _
    · refine Keyless.bind (.lift hashable.keyless) fun _ => ?_
      refine Keyless.bind (.lift (behind a).keyless) fun s => Keyless.bind (.lift (behind b).keyless) fun t => ?_
      split
      · exact ih _ _ _
      · exact Keyless.bind (Compose.Yields.defer trivial) fun _ => .pure _
    · split
      · exact meetBranches_keyless htrial (fun s => ih expanding s b) _ _ _
      · exact meetBranches_keyless htrial (fun s => ih expanding a s) _ _ _
      · exact meetPlain_keyless htrial (ih expanding) a b

/-- An intersection never says that a key is not found. -/
theorem intersect_keyless (htrial : Quiet env.trial) (a b : Schema) :
    Ends (env.intersect a b).1 (fun _ => True) fun e => e.isKeyNotFound = false :=
  meetWithin_keyless htrial _ [] a b false

end Env
end Schemata
