import Schemata.Proofs.Algebra.Decision
import Schemata.Proofs.Algebra.Union
import Schemata.Proofs.Schema.Moving

/-! Unions whose pruning looks behind no reference. Beside a reference that is pending, or that leads to an object or
a tuple, no keyword, literal or constraint on one of these is redundant: the union is then the same whatever has been
defined so far. -/
namespace Schemata
namespace Schema

variable {m : Moving} {n : Nat}

/-- Keywords and literals. -/
def isWord : Schema → Bool
  | .keyword _ => true
  | .literal _ => true
  | _ => false

/-- Keywords and literals, constrained or not. -/
def isLeaf : Schema → Bool
  | .constrained s _ => s.isWord
  | s => s.isWord

theorem isLeaf_of_isWord {s : Schema} (h : s.isWord = true) : s.isLeaf = true := by cases s <;> simp_all [isWord, isLeaf]

theorem isPlain_of_isLeaf {s : Schema} (h : s.isLeaf = true) : s.isPlain = true := by
  cases s <;> simp_all [isWord, isLeaf, isPlain]

theorem moved_word {s : Schema} (h : s.isWord = true) : s.moved m n = s := by cases s <;> simp_all [isWord]

theorem moved_leaf {s : Schema} (h : s.isLeaf = true) : s.moved m n = s := by
  cases s <;> simp_all [isWord, isLeaf, moved_word]

section Lists

theorem isIn_moved (s : Schema) (ss : List Schema) : (s.moved m n).isIn (ss.map (moved m n)) = s.isIn ss := by
  unfold isIn
  rw [List.any_map]
  exact congrArg (List.any ss) (funext fun t => same_moved t s)

theorem distinct_moved (ss : List Schema) : distinct (ss.map (moved m n)) = (distinct ss).map (moved m n) := by
  induction ss using List.reverseRecOn with
  | nil => rfl
  | append_singleton ss s ih =>
    rw [List.map_append, List.map_singleton, distinct_append, distinct_append, ih, isIn_moved]
    split_ifs <;> simp

theorem collapseBooleans_moved (ss : List Schema) :
    collapseBooleans (ss.map (moved m n)) = (collapseBooleans ss).map (moved m n) := by
  have htrue : ∀ s : Schema, (s.moved m n).same trueLiteral = s.same trueLiteral := fun s => same_moved s trueLiteral
  have hfalse : ∀ s : Schema, (s.moved m n).same falseLiteral = s.same falseLiteral := fun s => same_moved s falseLiteral
  have hin : ∀ s : Schema, s.moved m n = s → s.isIn (ss.map (moved m n)) = s.isIn ss := fun s hs => by
    rw [← isIn_moved (m := m) (n := n) s ss, hs]
  unfold collapseBooleans
  rw [hin trueLiteral rfl, hin falseLiteral rfl]
  split_ifs
  · simp only [List.map_append, List.map_cons, moved_keyword, List.takeWhile_map, List.dropWhile_map, List.filter_map,
      Function.comp_def, htrue, hfalse]
  · rfl

theorem flat_moved (ss : List Schema) : flat (ss.map (moved m n)) = (flat ss).map (moved m n) := by
  unfold flat
  rw [List.flatMap_map, ← collapseBooleans_moved, ← distinct_moved, List.map_flatMap]
  simp only [branches_moved]

theorem ofBranches_moved (ss : List Schema) : ofBranches (ss.map (moved m n)) = (ofBranches ss).moved m n := by
  rcases ss with _ | ⟨s, _ | ⟨t, ss⟩⟩ <;> simp [ofBranches]

end Lists

end Schema

namespace Env

open Schema

variable {m : Moving} {n : Nat} {env env' : Env} {a b s t : Schema} {j k : Nat} {seen seen' : List (Schema × Schema)}

/-- The test on a plain schema and one without branches or members. -/
theorem subsetWithin_plain (ha : a.isPlain = true) (hb : b.isPlain = true ∨ b.isStructure = true) :
    env.subsetWithin (k + 1) seen a b =
      if (a.same b || b.isUnknown) = true then .ok true else env.plainWithin (env.subsetWithin k seen) a b := by
  have hnever : a.isNever = false := by cases a <;> first | rfl | simp [isPlain] at ha
  unfold subsetWithin
  rw [hnever, Bool.or_false]
  cases a <;> simp only [isPlain, Bool.false_eq_true] at ha
  all_goals cases b <;> simp only [isPlain, isStructure, Bool.false_eq_true, or_self] at hb
  all_goals rfl

theorem plainWithin_words {sub sub' : Schema → Schema → Except Fault Bool} (ha : a.isWord = true) (hb : b.isWord = true) :
    env'.plainWithin sub' a b = env.plainWithin sub a b := by
  cases a <;> simp only [isWord, Bool.false_eq_true] at ha
  all_goals cases b <;> simp only [isWord, Bool.false_eq_true] at hb
  case keyword.keyword k l => cases l <;> rfl
  case literal.keyword v l => cases l <;> rfl
  all_goals rfl

theorem subsetWithin_words (ha : a.isWord = true) (hb : b.isWord = true) :
    env'.subsetWithin (j + 1) seen' a b = env.subsetWithin (k + 1) seen a b := by
  have hplain : ∀ {s : Schema}, s.isWord = true → s.isPlain = true := fun h => isPlain_of_isLeaf (isLeaf_of_isWord h)
  rw [subsetWithin_plain (hplain ha) (Or.inl (hplain hb)), subsetWithin_plain (hplain ha) (Or.inl (hplain hb)),
    plainWithin_words ha hb]

/-- Of two leaves nothing but what is written in them is looked at. -/
theorem plainWithin_leaves {sub sub' : Schema → Schema → Except Fault Bool} (hhooks : env'.hooks = env.hooks)
    (words : ∀ {s t : Schema}, s.isWord = true → t.isWord = true → sub' s t = sub s t) (ha : a.isLeaf = true)
    (hb : b.isLeaf = true) : env'.plainWithin sub' a b = env.plainWithin sub a b := by
  cases a <;> simp only [isLeaf, isWord, Bool.false_eq_true] at ha
  all_goals cases b <;> simp only [isLeaf, isWord, Bool.false_eq_true] at hb
  case constrained.constrained s cs t ds => simp only [plainWithin, words ha hb]
  case constrained.keyword s cs k => exact words ha rfl
  case constrained.literal s cs v => exact words ha rfl
  case literal.constrained v t ds => simp only [plainWithin, words (rfl : (literal v).isWord = true) hb, hhooks]
  case keyword.constrained => rfl
  all_goals exact plainWithin_words rfl rfl

theorem subsetWithin_leaves (hhooks : env'.hooks = env.hooks) (ha : a.isLeaf = true) (hb : b.isLeaf = true) :
    env'.subsetWithin (j + 2) seen' a b = env.subsetWithin (k + 2) seen a b := by
  rw [subsetWithin_plain (isPlain_of_isLeaf ha) (Or.inl (isPlain_of_isLeaf hb)),
    subsetWithin_plain (isPlain_of_isLeaf ha) (Or.inl (isPlain_of_isLeaf hb)),
    plainWithin_leaves hhooks (fun hs ht => subsetWithin_words hs ht) ha hb]

/-- No leaf lies inside an object or a tuple. -/
theorem subsetWithin_structure (ha : a.isLeaf = true) (hb : b.isStructure = true) :
    env.subsetWithin (k + 2) seen a b = .ok false := by
  have hword : ∀ {s : Schema} {k : Nat}, s.isWord = true → env.subsetWithin (k + 1) seen s b = .ok false := by
    intro s k hs
    rw [subsetWithin_plain (isPlain_of_isLeaf (isLeaf_of_isWord hs)) (Or.inr hb)]
    cases s <;> simp only [isWord, Bool.false_eq_true] at hs
    all_goals cases b <;> simp only [isStructure, Bool.false_eq_true] at hb
    all_goals rfl
  cases a <;> simp only [isLeaf, isWord, Bool.false_eq_true] at ha
  case constrained s cs =>
    rw [subsetWithin_plain rfl (Or.inr hb)]
    cases b <;> simp only [isStructure, Bool.false_eq_true] at hb
    all_goals exact hword ha
  all_goals exact hword rfl

theorem pairFuel_eq (env : Env) (a b : Schema) : ∃ k, env.pairFuel a b = k + 3 := by
  have ha := a.size_pos
  have hb := b.size_pos
  have hreach : 2 ≤ env.reach a b := by
    unfold reach
    omega
  refine ⟨env.pairFuel a b - 3, (Nat.sub_add_cancel ?_).symm⟩
  unfold pairFuel
  have hproduct := Nat.mul_le_mul (Nat.le_add_left 1 (env.reach a b * env.reach a b))
    (show 6 ≤ 2 * env.reach a b + 2 by omega)
  exact le_trans (by omega) hproduct

/-- What a reference leads to cannot contain a leaf. -/
def Opaque (env : Env) (r : Ref) : Prop := env.target r = .pending ∨ ∃ t, env.target r = .filled t ∧ t.isStructure = true

theorem isSubset_ofOpaque {r : Ref} (ha : a.isLeaf = true) (hr : env.Opaque r) :
    env.isSubset a (.ref r) = (a.hashable (.ref r)).map fun _ => false := by
  obtain ⟨k, hk⟩ := pairFuel_eq env a (.ref r)
  have hplain := isPlain_of_isLeaf ha
  have hshort : (a.same (.ref r) || (Schema.ref r).isUnknown || a.isNever) = false := by
    cases a <;> first | rfl | simp [isPlain] at hplain
  have hbehind : env.behind? a = .ok (some a) := by cases a <;> first | rfl | simp [isPlain] at hplain
  unfold isSubset subsetWithin
  rw [hk]
  dsimp only
  rw [hshort, hbehind]
  cases a.hashable (.ref r) with
  | error e => simp [isRef, Except.map, bind, Except.bind]
  | ok _ =>
    rcases hr with hr | ⟨t, hr, ht⟩
    · simp [isRef, Except.map, bind, Except.bind, behind?, resolve?, hr, pairIn]
      rfl
    · simp [isRef, Except.map, bind, Except.bind, behind?, resolve?, hr, pairIn]
      exact subsetWithin_structure ha ht

/-- A branch that a leaf is compared with without looking behind references, here and where it was moved to. -/
def Beside (m : Moving) (env env' : Env) (b : Schema) : Prop :=
  b.isLeaf = true ∨ b.isStructure = true ∨ ∃ r, b = .ref r ∧ env.Opaque r ∧ env'.Opaque (r.moved m)

theorem isSubset_leaves (hhooks : env'.hooks = env.hooks) (ha : a.isLeaf = true) (hb : b.isLeaf = true) :
    env'.isSubset a b = env.isSubset a b := by
  obtain ⟨j, hj⟩ := pairFuel_eq env' a b
  obtain ⟨k, hk⟩ := pairFuel_eq env a b
  unfold isSubset
  rw [hj, hk]
  exact subsetWithin_leaves hhooks ha hb

theorem isSubset_moved (hhooks : env'.hooks = env.hooks) (ha : a.isLeaf = true) (hb : Beside m env env' b) :
    env'.isSubset (a.moved m n) (b.moved m n) = env.isSubset a b ∧
      (env.isSubset a b = .ok true → env'.isSubset (b.moved m n) (a.moved m n) = env.isSubset b a) := by
  have structures : ∀ {env : Env} {b : Schema}, b.isStructure = true → env.isSubset a b = .ok false := by
    intro env b hb
    obtain ⟨k, hk⟩ := pairFuel_eq env a b
    unfold isSubset
    rw [hk]
    exact subsetWithin_structure ha hb
  rw [moved_leaf ha]
  rcases hb with hb | hb | ⟨r, rfl, hr, hr'⟩
  · rw [moved_leaf hb]
    exact ⟨isSubset_leaves hhooks ha hb, fun _ => isSubset_leaves hhooks hb ha⟩
  · rw [structures ((moved_isStructure b).trans hb), structures hb]
    exact ⟨rfl, by simp⟩
  · rw [moved_ref, isSubset_ofOpaque ha hr', isSubset_ofOpaque ha hr]
    refine ⟨rfl, fun h => ?_⟩
    cases hhash : a.hashable (.ref r) <;> simp [hhash, Except.map] at h

theorem anyM_map {α β : Type} {f : α → β} {p : α → Except Fault Bool} {q : β → Except Fault Bool} {as : List α}
    (h : ∀ a ∈ as, q (f a) = p a) : (as.map f).anyM q = as.anyM p := by
  induction as with
  | nil => rfl
  | cons a as ih =>
    obtain ⟨ha, has⟩ := List.forall_mem_cons.mp h
    rw [List.map_cons, List.anyM_cons, List.anyM_cons, ha, ih has]

section Pruning

variable {before behind ss : List Schema} (hhooks : env'.hooks = env.hooks)
include hhooks

theorem isRedundant_moved (h : s.isPlain = true → s.isLeaf = true ∧ (∀ t ∈ before, Beside m env env' t) ∧
      ∀ t ∈ behind, Beside m env env' t) :
    env'.isRedundant (before.map (moved m n)) (s.moved m n) (behind.map (moved m n)) = env.isRedundant before s behind := by
  have one_way : ∀ (forth back back' : Except Fault Bool), (forth = .ok true → back' = back) →
      (do if ← forth then pure (!(← back')) else pure false) = (do if ← forth then pure (!(← back)) else pure false) := by
    intro forth back back' hback
    cases forth with
    | error e => rfl
    | ok inside =>
      cases inside with
      | false => rfl
      | true => rw [hback rfl]
  unfold isRedundant
  rw [moved_isPlain]
  by_cases hplain : s.isPlain = true
  · obtain ⟨hs, hbefore, hbehind⟩ := h hplain
    have hcovers : ∀ t ∈ behind,
        (do if ← env'.isSubset (s.moved m n) (t.moved m n) then pure (!(← env'.isSubset (t.moved m n) (s.moved m n)))
            else pure false) =
          (do if ← env.isSubset s t then pure (!(← env.isSubset t s)) else pure false) := by
      intro t ht
      obtain ⟨hforth, hback⟩ := isSubset_moved (n := n) hhooks hs (hbehind t ht)
      rw [hforth]
      exact one_way _ _ _ hback
    rw [anyM_map fun t ht => (isSubset_moved hhooks hs (hbefore t ht)).1, anyM_map hcovers]
  · simp only [hplain, Bool.not_false, if_true]

theorem pruned_moved (before : List Schema) (h : ∀ s ∈ ss, s.isPlain = true →
      s.isLeaf = true ∧ (∀ t ∈ before, Beside m env env' t) ∧ ∀ t ∈ ss, Beside m env env' t) :
    env'.pruned (before.map (moved m n)) (ss.map (moved m n)) = (env.pruned before ss).map (List.map (moved m n)) := by
  induction ss generalizing before with
  | nil => rfl
  | cons s ss ih =>
    obtain ⟨hs, hss⟩ := List.forall_mem_cons.mp h
    have hredundant := isRedundant_moved (n := n) hhooks fun hplain =>
      ⟨(hs hplain).1, (hs hplain).2.1, fun t ht => (hs hplain).2.2 t (List.mem_cons_of_mem _ ht)⟩
    have hrest := ih (before ++ [s]) fun t ht hplain => by
      obtain ⟨hleaf, hbefore, hbehind⟩ := hss t ht hplain
      obtain ⟨hself, hbehind⟩ := List.forall_mem_cons.mp hbehind
      exact ⟨hleaf, List.forall_mem_append.mpr ⟨hbefore, List.forall_mem_singleton.mpr hself⟩, hbehind⟩
    rw [List.map_append, List.map_singleton] at hrest
    rw [List.map_cons]
    unfold pruned
    rw [hredundant, hrest]
    cases env.isRedundant before s ss with
    | error e => rfl
    | ok redundant =>
      cases env.pruned (before ++ [s]) ss with
      | error e => rfl
      | ok kept => cases redundant <;> rfl

/-- A union is made as before where leaves are compared with leaves, structures and opaque references only. -/
theorem union_moved (h : ∀ s ∈ flat ss, s.isPlain = true → s.isLeaf = true ∧ ∀ t ∈ flat ss, Beside m env env' t) :
    env'.union (ss.map (moved m n)) = (env.union ss).map (moved m n) := by
  have hpruned := pruned_moved (n := n) hhooks [] fun s hs hplain =>
    ⟨(h s hs hplain).1, by simp, (h s hs hplain).2⟩
  have hflat := flat_moved (m := m) (n := n) ss
  unfold flat at hpruned hflat
  rw [List.map_nil] at hpruned
  unfold union
  dsimp only
  rw [hflat, hpruned]
  cases env.pruned [] (collapseBooleans (distinct (ss.flatMap branches))) with
  | error e => rfl
  | ok kept => exact congrArg Except.ok (ofBranches_moved kept)

end Pruning

/-- The branches of a union of leaves are leaves. -/
theorem union_leaves {ss : List Schema} {u : Schema} (hss : ∀ s ∈ ss, s.isLeaf = true) (hu : env.union ss = .ok u) :
    ∀ b ∈ u.branches, b.isLeaf = true := by
  obtain ⟨kept, hkept, h⟩ := bind_ok hu
  obtain rfl := Except.ok.inj h
  have hself : ∀ {s : Schema}, s.isLeaf = true → s.branches = [s] := by
    intro s hs
    cases s <;> first | rfl | simp [isLeaf, isWord] at hs
  have hleaves : ∀ b ∈ kept, b.isLeaf = true := by
    intro b hb
    rcases mem_flat (pruned_subset hkept hb) with ⟨s, hs, hb⟩ | ⟨rfl, -⟩
    · rw [hself (hss s hs), List.mem_singleton] at hb
      exact hb ▸ hss s hs
    · rfl
  rcases kept with _ | ⟨s, _ | ⟨t, kept⟩⟩
  · exact hleaves
  · have hs := hleaves s (List.mem_singleton_self s)
    rw [ofBranches, hself hs]
    exact hleaves
  · exact hleaves

end Env
end Schemata
