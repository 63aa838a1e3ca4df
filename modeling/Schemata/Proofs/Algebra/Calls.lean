import Schemata.Algebra.Intersection
import Schemata.Proofs.Algebra.Union
import Schemata.Proofs.Schema.Parts
import Schemata.Proofs.Unrolling

/-! The recursive calls of the operations on two schemas. A step of the subset test or of the intersection calls itself
on parts of the two schemas, or on what names lead to, and on nothing else; all other work is done without a call. -/
namespace Schemata

section Loops

variable {α β ε : Type} {l : List α}

theorem allM_congr {p q : α → Except ε Bool} (h : ∀ a ∈ l, p a = q a) : l.allM p = l.allM q := by
  induction l with
  | nil => rfl
  | cons a l ih =>
    rw [List.forall_mem_cons] at h
    rw [List.allM_cons, List.allM_cons, h.1, ih h.2]

theorem anyM_congr {p q : α → Except ε Bool} (h : ∀ a ∈ l, p a = q a) : l.anyM p = l.anyM q := by
  induction l with
  | nil => rfl
  | cons a l ih =>
    rw [List.forall_mem_cons] at h
    rw [List.anyM_cons, List.anyM_cons, h.1, ih h.2]

theorem mapM_congr {f g : α → Compose β} (h : ∀ a ∈ l, f a = g a) : l.mapM f = l.mapM g := by
  induction l with
  | nil => rfl
  | cons a l ih =>
    rw [List.forall_mem_cons] at h
    rw [List.mapM_cons, List.mapM_cons, h.1, ih h.2]

end Loops

theorem ObjectShape.mem_parts {o : ObjectShape Schema} {p : Property Schema} (hp : p ∈ o.properties) :
    p.value ∈ (Schema.object o).parts := List.mem_append_left _ (List.mem_map_of_mem hp)

theorem ObjectShape.index_mem_parts {o : ObjectShape Schema} {i : IndexSignature Schema} (hi : o.index = some i) :
    i.value ∈ (Schema.object o).parts := List.mem_append_right _ (by simp [hi, IndexSignature.parts])

section Subset

variable {sub sub' : Schema → Schema → Except Fault Bool} {admits : Schema → Value → Except Fault Bool}
  {a b : ObjectShape Schema} {es fs : List (Element Schema)}

namespace ObjectShape

variable (h : ∀ s ∈ (Schema.object a).parts, ∀ t ∈ (Schema.object b).parts, sub s t = sub' s t)
include h

theorem coversProperty_congr {p : Property Schema} (hp : p ∈ b.properties) :
    coversProperty admits sub a p = coversProperty admits sub' a p := by
  unfold coversProperty
  cases hq : a.property? p.key with
  | some q => simp only [h _ (mem_parts (property?_mem hq).1) _ (mem_parts hp)]
  | none =>
    unfold absentWithin
    cases hi : a.index with
    | none => rfl
    | some i =>
      simp only [pure_bind]
      congr 2
      funext taken
      cases taken with
      | false => rfl
      | true => exact h _ (index_mem_parts hi) _ (mem_parts hp)

theorem extraWithin_congr {p : Property Schema} (hp : p ∈ a.properties) :
    extraWithin admits sub b p = extraWithin admits sub' b p := by
  unfold extraWithin
  cases hi : b.index with
  | none => rfl
  | some i =>
    simp only [pure_bind]
    congr 1
    funext taken
    cases taken with
    | false => rfl
    | true => exact h _ (mem_parts hp) _ (index_mem_parts hi)

theorem indexWithin_congr : indexWithin sub a.index b.index = indexWithin sub' a.index b.index := by
  cases hi : a.index with
  | none => rfl
  | some i =>
    cases hj : b.index with
    | none => rfl
    | some j => simp only [indexWithin, h _ (index_mem_parts hi) _ (index_mem_parts hj)]

theorem within_congr : within admits sub a b = within admits sub' a b := by
  unfold within
  rw [allM_congr fun p hp => coversProperty_congr h hp, indexWithin_congr h,
    allM_congr fun p hp => extraWithin_congr h (List.mem_filter.mp hp).1]

end ObjectShape

namespace Element

theorem pairwiseWithin_congr (h : ∀ e ∈ es, ∀ f ∈ fs, sub e.value f.value = sub' e.value f.value) :
    pairwiseWithin sub es fs = pairwiseWithin sub' es fs := by
  induction es generalizing fs with
  | nil => cases fs <;> rfl
  | cons e es ih =>
    cases fs with
    | nil => rfl
    | cons f fs =>
      unfold pairwiseWithin
      rw [h e (by simp) f (by simp), ih fun e he f hf => h e (by simp [he]) f (by simp [hf])]

theorem within_congr (h : ∀ e ∈ es, ∀ f ∈ fs, sub e.value f.value = sub' e.value f.value) :
    within sub es fs = within sub' es fs := by
  unfold within
  cases hf : array? fs with
  | some f =>
    obtain ⟨rfl, -⟩ := array?_eq_some hf
    exact allM_congr fun e he => h e he f (by simp)
  | none => simp only [pairwiseWithin_congr h]

end Element

end Subset

/-- Two schemas to be compared, inside the pairs that are being compared behind names. -/
structure Pairing where
  seen : List (Schema × Schema)
  left : Schema
  right : Schema

/-- The second pair may be asked for while the first is worked on. -/
inductive Pairing.Calls (env : Env) : Pairing → Pairing → Prop
  | both {seen : List (Schema × Schema)} {a b s t : Schema} : s ∈ a.parts → t ∈ b.parts →
      Calls env ⟨seen, a, b⟩ ⟨seen, s, t⟩
  | swapped {seen : List (Schema × Schema)} {a b s t : Schema} : s ∈ b.parts → t ∈ a.parts →
      Calls env ⟨seen, a, b⟩ ⟨seen, s, t⟩
  | left {seen : List (Schema × Schema)} {a b s : Schema} : s ∈ a.parts → Calls env ⟨seen, a, b⟩ ⟨seen, s, b⟩
  | right {seen : List (Schema × Schema)} {a b t : Schema} : t ∈ b.parts → Calls env ⟨seen, a, b⟩ ⟨seen, a, t⟩
  | behind {seen : List (Schema × Schema)} {a b s t : Schema} : a.hashable b = .ok () → a.pairIn b seen = false →
      env.behind? a = .ok (some s) → env.behind? b = .ok (some t) →
      Calls env ⟨seen, a, b⟩ ⟨(a, b) :: seen, s, t⟩

namespace Env

variable {env : Env}

theorem plainWithin_congr {sub sub' : Schema → Schema → Except Fault Bool} {a b : Schema}
    (hboth : ∀ s ∈ a.parts, ∀ t ∈ b.parts, sub s t = sub' s t) (hleft : ∀ s ∈ a.parts, sub s b = sub' s b)
    (hright : ∀ t ∈ b.parts, sub a t = sub' a t) : env.plainWithin sub a b = env.plainWithin sub' a b := by
  cases a with
  | constrained base cs =>
    cases b with
    | constrained target ds =>
      simp only [plainWithin, hboth base (by simp [Schema.parts]) target (by simp [Schema.parts])]
    | _ => exact hleft base (by simp [Schema.parts])
  | literal v =>
    cases b with
    | constrained target ds => simp only [plainWithin, hright target (by simp [Schema.parts])]
    | keyword k => cases k <;> rfl
    | _ => rfl
  | object o =>
    cases b with
    | object u => exact ObjectShape.within_congr hboth
    | keyword k => cases k <;> rfl
    | _ => rfl
  | tuple es =>
    cases b with
    | tuple fs => exact Element.within_congr fun e he f hf => hboth _ (List.mem_map_of_mem he) _ (List.mem_map_of_mem hf)
    | keyword k => cases k <;> rfl
    | _ => rfl
  | _ =>
    cases b with
    | keyword k => cases k <;> rfl
    | _ => rfl

/-- A step of the subset test, with its recursive calls left open. -/
def subsetStep (env : Env) (next : Pairing → Except Fault Bool) : Pairing → Except Fault Bool
  | ⟨seen, a, b⟩ =>
    let sub := fun s t => next ⟨seen, s, t⟩
    if a.same b || b.isUnknown || a.isNever then .ok true
    else if a.isRef || b.isRef then do
      a.hashable b
      if a.pairIn b seen then pure true
      else
        match ← env.behind? a, ← env.behind? b with
        | some s, some t => next ⟨(a, b) :: seen, s, t⟩
        | _, _ => pure false
    else
      match a, b with
      | .union bs, b => bs.allM fun s => sub s b
      | a, .intersection ms => ms.allM fun t => sub a t
      | .intersection ms, b => do
        if ← ms.anyM fun s => sub s b then pure true
        else
          match b with
          | .union bs => bs.anyM fun t => sub a t
          | b => env.plainWithin sub a b
      | a, .union bs => bs.anyM fun t => sub a t
      | a, b => env.plainWithin sub a b

theorem subsetWithin_eq (fuel : Nat) (seen : List (Schema × Schema)) (a b : Schema) :
    env.subsetWithin fuel seen a b = unroll env.subsetStep (fun _ => .ok false) fuel ⟨seen, a, b⟩ := by
  have steps : env.subsetWithin fuel =
      fun seen a b => unroll env.subsetStep (fun _ => .ok false) fuel ⟨seen, a, b⟩ := by
    induction fuel with
    | zero => rfl
    | succ fuel ih =>
      funext seen a b
      unfold subsetWithin
      rw [ih]
      rfl
  rw [steps]

theorem subsetStep_congr {next next' : Pairing → Except Fault Bool} (c : Pairing)
    (h : ∀ d, c.Calls env d → next d = next' d) : env.subsetStep next c = env.subsetStep next' c := by
  obtain ⟨seen, a, b⟩ := c
  have hleft : ∀ s ∈ a.parts, next ⟨seen, s, b⟩ = next' ⟨seen, s, b⟩ := fun s hs => h _ (.left hs)
  have hright : ∀ t ∈ b.parts, next ⟨seen, a, t⟩ = next' ⟨seen, a, t⟩ := fun t ht => h _ (.right ht)
  have hplain : env.plainWithin (fun s t => next ⟨seen, s, t⟩) a b =
      env.plainWithin (fun s t => next' ⟨seen, s, t⟩) a b :=
    plainWithin_congr (fun s hs t ht => h _ (.both hs ht)) hleft hright
  unfold subsetStep
  dsimp only
  split_ifs with _ _ hpair
  · rfl
  · rfl
  · cases hhash : a.hashable b with
    | error e => rfl
    | ok u =>
      cases hs : env.behind? a with
      | error e => rfl
      | ok s =>
        cases ht : env.behind? b with
        | error e => rfl
        | ok t =>
          cases s with
          | none => rfl
          | some s =>
            cases t with
            | none => rfl
            | some t => exact h _ (.behind hhash (by simpa using hpair) hs ht)
  · cases a with
    | union bs => exact allM_congr hleft
    | intersection ms =>
      have orElse : ∀ {x x' y y' : Except Fault Bool}, x = x' → y = y' →
          (do if ← x then pure true else y) = (do if ← x' then pure true else y') := by
        rintro _ _ _ _ rfl rfl
        rfl
      cases b with
      | intersection ns => exact allM_congr hright
      | union bs => exact orElse (anyM_congr hleft) (anyM_congr hright)
      | _ => exact orElse (anyM_congr hleft) hplain
    | _ =>
      cases b with
      | intersection ns => exact allM_congr hright
      | union bs => exact anyM_congr hright
      | _ => exact hplain

end Env

section Meets

variable {meet meet' : Schema → Schema → Compose Schema} {admits : Schema → Value → Except Fault Bool}
  {a b : ObjectShape Schema} {es fs : List (Element Schema)}

theorem Compose.place_congr {s t : Schema} {optional : Bool} (h : meet s t = meet' s t) :
    place meet s t optional = place meet' s t optional := by
  unfold place
  rw [h]

namespace ObjectShape

theorem meetUndeclared_congr {p : Property Schema}
    (h : ∀ i, b.index = some i → meet p.value i.value = meet' p.value i.value) :
    meetUndeclared admits meet a b p = meetUndeclared admits meet' a b p := by
  unfold meetUndeclared
  cases hi : b.index with
  | none => rfl
  | some i =>
    simp only [pure_bind]
    congr 1
    funext taken
    cases taken with
    | false => rfl
    | true => simp only [Compose.place_congr (h i hi), if_true]

theorem meetDeclared_congr {p q : Property Schema} (h : meet p.value q.value = meet' p.value q.value) :
    meetDeclared meet p q = meetDeclared meet' p q := by
  unfold meetDeclared
  simp only [Compose.place_congr h]

theorem meetIndex_congr
    (h : ∀ i j, a.index = some i → b.index = some j → meet i.value j.value = meet' i.value j.value) :
    meetIndex meet a.index b.index = meetIndex meet' a.index b.index := by
  cases hi : a.index with
  | none => rfl
  | some i =>
    cases hj : b.index with
    | none => rfl
    | some j =>
      unfold meetIndex
      dsimp only
      rw [h i j hi hj]

theorem meetShapes_congr
    (h : ∀ s ∈ (Schema.object a).parts, ∀ t ∈ (Schema.object b).parts,
      meet s t = meet' s t ∧ meet t s = meet' t s) :
    meetShapes admits meet a b = meetShapes admits meet' a b := by
  have second : ∀ q ∈ b.properties.filter fun q => !a.declares q.key,
      meetUndeclared admits meet b a q = meetUndeclared admits meet' b a q := fun q hq =>
    meetUndeclared_congr fun i hi => (h _ (index_mem_parts hi) _ (mem_parts (List.mem_filter.mp hq).1)).2
  unfold meetShapes
  rw [meetIndex_congr fun i j hi hj => (h _ (index_mem_parts hi) _ (index_mem_parts hj)).1, mapM_congr second]
  refine bind_congr fun index => congrArg (· >>= _) (mapM_congr fun p hp => ?_)
  cases hq : b.property? p.key with
  | none => exact meetUndeclared_congr fun i hi => (h _ (mem_parts hp) _ (index_mem_parts hi)).1
  | some q => exact meetDeclared_congr (h _ (mem_parts hp) _ (mem_parts (property?_mem hq).1)).1

end ObjectShape

namespace Element

theorem meetAs_congr {e : Element Schema} {s t : Schema} (h : meet s t = meet' s t) :
    meetAs meet e s t = meetAs meet' e s t := by
  unfold meetAs
  rw [Compose.place_congr h]

theorem meetPairwise_congr (h : ∀ e ∈ es, ∀ f ∈ fs, meet e.value f.value = meet' e.value f.value) :
    meetPairwise meet es fs = meetPairwise meet' es fs := by
  induction es generalizing fs with
  | nil => rfl
  | cons e es ih =>
    cases fs with
    | nil => rfl
    | cons f fs =>
      unfold meetPairwise
      rw [meetAs_congr (h e (by simp) f (by simp)), ih fun e he f hf => h e (by simp [he]) f (by simp [hf])]

theorem meetTuples_congr (h : ∀ e ∈ es, ∀ f ∈ fs, meet e.value f.value = meet' e.value f.value) :
    meetTuples meet es fs = meetTuples meet' es fs := by
  unfold meetTuples
  cases he : array? es with
  | some e =>
    obtain ⟨rfl, -⟩ := array?_eq_some he
    cases hf : array? fs with
    | some f =>
      obtain ⟨rfl, -⟩ := array?_eq_some hf
      simp only [h e (by simp) f (by simp)]
    | none => simp only [mapM_congr fun f hf => meetAs_congr (e := f) (h e (by simp) f hf)]
  | none =>
    cases hf : array? fs with
    | some f =>
      obtain ⟨rfl, -⟩ := array?_eq_some hf
      simp only [mapM_congr fun e he => meetAs_congr (e := e) (h e he f (by simp))]
    | none => simp only [meetPairwise_congr h]

end Element

end Meets

namespace Env

variable {env : Env} {meet meet' : Schema → Schema → Compose Schema} {a b : Schema}

theorem meetConstrained_congr (h : meet a.split.1 b.split.1 = meet' a.split.1 b.split.1) :
    meetConstrained meet a b = meetConstrained meet' a b := by
  unfold meetConstrained
  simp only [h]

theorem meetPlain_congr
    (hboth : ∀ s ∈ a.parts, ∀ t ∈ b.parts, meet s t = meet' s t ∧ meet t s = meet' t s)
    (hleft : ∀ s ∈ a.parts, meet s b = meet' s b) (hright : ∀ t ∈ b.parts, meet a t = meet' a t) :
    env.meetPlain meet a b = env.meetPlain meet' a b := by
  have constrained : (∃ s cs, a = .constrained s cs) ∨ (∃ s cs, b = .constrained s cs) →
      meetConstrained meet a b = meetConstrained meet' a b := by
    intro hsome
    refine meetConstrained_congr ?_
    cases a with
    | constrained s cs =>
      cases b with
      | constrained t ds => exact (hboth s (by simp [Schema.parts]) t (by simp [Schema.parts])).1
      | _ => exact hleft s (by simp [Schema.parts])
    | _ =>
      cases b with
      | constrained t ds => exact hright t (by simp [Schema.parts])
      | _ => simp at hsome
  unfold meetPlain
  cases a with
  | constrained s cs =>
    cases b with
    | intersection ms => rfl
    | literal v => rfl
    | _ => simp only [constrained (Or.inl ⟨s, cs, rfl⟩)]
  | object o =>
    cases b with
    | object u => simp only [ObjectShape.meetShapes_congr hboth]
    | constrained t ds => simp only [constrained (Or.inr ⟨t, ds, rfl⟩)]
    | _ => rfl
  | tuple es =>
    cases b with
    | tuple fs =>
      simp only [Element.meetTuples_congr fun e he f hf =>
        (hboth _ (List.mem_map_of_mem he) _ (List.mem_map_of_mem hf)).1]
    | constrained t ds => simp only [constrained (Or.inr ⟨t, ds, rfl⟩)]
    | _ => rfl
  | _ =>
    cases b with
    | constrained t ds => simp only [constrained (Or.inr ⟨t, ds, rfl⟩)]
    | _ => rfl

theorem compatible_congr {one one' : Schema → Compose Schema} {bs : List Schema} (h : ∀ s ∈ bs, one s = one' s) :
    compatible one bs = compatible one' bs := by
  induction bs with
  | nil => rfl
  | cons s bs ih =>
    rw [List.forall_mem_cons] at h
    unfold compatible
    rw [h.1, ih h.2]

/-- Redundancy by any test in the place of the subset test, and pruning and unions by it. -/
def isRedundantBy (test : Schema → Schema → Except Fault Bool) (before : List Schema) (s : Schema)
    (behind : List Schema) : Except Fault Bool :=
  if !s.isPlain then .ok false
  else do
    if ← before.anyM fun t => test s t then pure true
    else
      behind.anyM fun t => do
        if ← test s t then pure (!(← test t s)) else pure false

def prunedBy (test : Schema → Schema → Except Fault Bool) (before : List Schema) :
    List Schema → Except Fault (List Schema)
  | [] => .ok []
  | s :: behind => do
    let redundant ← isRedundantBy test before s behind
    let kept ← prunedBy test (before ++ [s]) behind
    pure (if redundant then kept else s :: kept)

def unionBy (test : Schema → Schema → Except Fault Bool) (ss : List Schema) : Except Fault Schema := do
  pure (.ofBranches (← prunedBy test [] (Schema.flat ss)))

theorem union_eq (ss : List Schema) : env.union ss = unionBy env.isSubset ss := by
  have pruned : ∀ behind before, env.pruned before behind = prunedBy env.isSubset before behind := by
    intro behind
    induction behind with
    | nil => exact fun _ => rfl
    | cons s behind ih =>
      intro before
      unfold Env.pruned prunedBy
      rw [ih]
      rfl
  unfold union unionBy
  simp only [pruned]
  rfl

section Tests

variable {test test' : Schema → Schema → Except Fault Bool}

theorem isRedundantBy_congr {before behind : List Schema} {s : Schema}
    (h : ∀ t ∈ before ++ behind, test s t = test' s t ∧ test t s = test' t s) :
    isRedundantBy test before s behind = isRedundantBy test' before s behind := by
  rw [List.forall_mem_append] at h
  unfold isRedundantBy
  rw [anyM_congr fun t ht => (h.1 t ht).1]
  split_ifs
  · rfl
  · refine bind_congr fun covered => ?_
    cases covered with
    | true => rfl
    | false => exact anyM_congr fun t ht => by rw [(h.2 t ht).1, (h.2 t ht).2]

/-- A union asks for nothing but tests between its branches. -/
theorem unionBy_congr {ss : List Schema} (h : ∀ s ∈ Schema.flat ss, ∀ t ∈ Schema.flat ss, test s t = test' s t) :
    unionBy test ss = unionBy test' ss := by
  have pruned : ∀ behind before, (∀ s ∈ before ++ behind, ∀ t ∈ before ++ behind, test s t = test' s t) →
      prunedBy test before behind = prunedBy test' before behind := by
    intro behind
    induction behind with
    | nil => exact fun _ _ => rfl
    | cons s behind ih =>
      intro before h
      have hs : s ∈ before ++ s :: behind := by simp
      have hrest : ∀ t ∈ before ++ behind, t ∈ before ++ s :: behind := by
        intro t ht
        rcases List.mem_append.mp ht with ht | ht <;> simp [ht]
      unfold prunedBy
      rw [isRedundantBy_congr fun t ht => ⟨h s hs t (hrest t ht), h t (hrest t ht) s hs⟩,
        ih (before ++ [s]) (by simpa using h)]
  unfold unionBy
  rw [pruned _ [] (by simpa using h)]

end Tests

/-- A union met branch by branch, with its results pruned by a test. -/
def meetBranchesBy (test : Schema → Schema → Except Fault Bool) (u other : Schema) (branches : List Schema)
    (one : Schema → Compose Schema) : Compose Schema := do
  let results ← compatible one branches
  if results.isEmpty then Compose.unsatisfiable u other .noBranch
  else unionBy test results

/-- A step of the intersection, with its recursive calls left open, and with the test by which results are pruned. -/
def meetStep (env : Env) (test : Schema → Schema → Except Fault Bool) (next : Pairing → Compose Schema) :
    Pairing → Compose Schema
  | ⟨expanding, a, b⟩ =>
    let meet := fun s t => next ⟨expanding, s, t⟩
    if a.same b then pure a
    else if a.isUnknown then pure b
    else if b.isUnknown then pure a
    else if a.isNever || b.isNever then Compose.unsatisfiable a b .never
    else if a.isRef || b.isRef then do
      a.hashable b
      if a.pairIn b expanding then pure (.intersection [a, b])
      else
        match ← env.behind? a, ← env.behind? b with
        | some s, some t => next ⟨(a, b) :: expanding, s, t⟩
        | _, _ => do
          Compose.defer
          pure (.intersection [a, b])
    else
      match a, b with
      | .union bs, b => meetBranchesBy test (.union bs) b bs fun s => meet s b
      | a, .union bs => meetBranchesBy test (.union bs) a bs fun s => meet a s
      | a, b => env.meetPlain meet a b

/-- The answer where the calls are cut off. -/
def apart (c : Pairing) : Compose Schema := pure (.intersection [c.left, c.right])

theorem meetBranches_eq {u other : Schema} {bs : List Schema} {one : Schema → Compose Schema} :
    env.meetBranches u other bs one = meetBranchesBy env.isSubset u other bs one := by
  unfold meetBranches meetBranchesBy
  simp only [union_eq]

theorem meetWithin_eq (fuel : Nat) (expanding : List (Schema × Schema)) (a b : Schema) :
    env.meetWithin fuel expanding a b = unroll (env.meetStep env.isSubset) apart fuel ⟨expanding, a, b⟩ := by
  have steps : env.meetWithin fuel =
      fun expanding a b => unroll (env.meetStep env.isSubset) apart fuel ⟨expanding, a, b⟩ := by
    induction fuel with
    | zero => rfl
    | succ fuel ih =>
      funext expanding a b
      unfold meetWithin
      rw [ih]
      simp only [meetBranches_eq]
      rfl
  rw [steps]

theorem meetStep_congr {test : Schema → Schema → Except Fault Bool} {next next' : Pairing → Compose Schema}
    (c : Pairing)
    (h : ∀ d, c.Calls env d → next d = next' d) : env.meetStep test next c = env.meetStep test next' c := by
  obtain ⟨expanding, a, b⟩ := c
  have hleft : ∀ s ∈ a.parts, next ⟨expanding, s, b⟩ = next' ⟨expanding, s, b⟩ := fun s hs => h _ (.left hs)
  have hright : ∀ t ∈ b.parts, next ⟨expanding, a, t⟩ = next' ⟨expanding, a, t⟩ := fun t ht => h _ (.right ht)
  have hplain : env.meetPlain (fun s t => next ⟨expanding, s, t⟩) a b =
      env.meetPlain (fun s t => next' ⟨expanding, s, t⟩) a b :=
    meetPlain_congr (fun s hs t ht => ⟨h _ (.both hs ht), h _ (.swapped ht hs)⟩) hleft hright
  have branches : ∀ {u other : Schema} {bs : List Schema} {one one' : Schema → Compose Schema},
      (∀ s ∈ bs, one s = one' s) → meetBranchesBy test u other bs one = meetBranchesBy test u other bs one' := by
    intro u other bs one one' hone
    unfold meetBranchesBy
    rw [compatible_congr hone]
  unfold meetStep
  dsimp only
  split_ifs with _ _ _ _ _ hpair
  · rfl
  · rfl
  · rfl
  · rfl
  · rfl
  · cases hhash : a.hashable b with
    | error e => rfl
    | ok u =>
      cases hs : env.behind? a with
      | error e => rfl
      | ok s =>
        cases ht : env.behind? b with
        | error e => rfl
        | ok t =>
          cases s with
          | none => rfl
          | some s =>
            cases t with
            | none => rfl
            | some t => exact h _ (.behind hhash (by simpa using hpair) hs ht)
  · cases a with
    | union bs => exact branches hleft
    | _ =>
      cases b with
      | union bs => exact branches hright
      | _ => exact hplain

end Env
end Schemata
