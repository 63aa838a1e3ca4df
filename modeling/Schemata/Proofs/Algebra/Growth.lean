import Mathlib.Algebra.Order.BigOperators.Group.List
import Schemata.Proofs.Algebra.Calls
import Schemata.Proofs.Algebra.Inheritance
import Schemata.Proofs.Schema.Subterms

/-! How large intersections get. A step of the intersection puts together no more results than its operands have parts,
so the sizes of all results are bounded by the depth of the calls. Pruning works on such results, and on no others: what
it does with greater schemas does not matter. -/
namespace Schemata
namespace Schema

variable {s : Schema} {ss ts : List Schema} {B : Nat}

theorem sizeAll_append (ss ts : List Schema) : sizeAll (ss ++ ts) = sizeAll ss + sizeAll ts := by simp [sizeAll_eq]

theorem sizeAll_le_of_sublist (h : ss.Sublist ts) : sizeAll ss ≤ sizeAll ts := by
  induction h with
  | slnil => exact le_rfl
  | cons s _ ih => exact ih.trans (Nat.le_add_left _ _)
  | cons_cons s _ ih => exact Nat.add_le_add_left ih _

theorem size_le_sizeAll (h : s ∈ ss) : s.size ≤ sizeAll ss := by
  rw [sizeAll_eq]
  exact List.single_le_sum (fun _ _ => Nat.zero_le _) _ (List.mem_map_of_mem h)

theorem sum_sizes_le {α : Type} {f : α → Schema} {l : List α} (h : ∀ a ∈ l, (f a).size ≤ B) :
    (l.map fun a => (f a).size).sum ≤ l.length * B := by
  have hle := List.sum_le_card_nsmul (l.map fun a => (f a).size) B (by simpa using h)
  simpa using hle

theorem length_parts_lt (s : Schema) : s.parts.length < s.size := by
  have hle := List.length_le_sum_of_one_le (s.parts.map size) (List.forall_mem_map.mpr fun t _ => t.size_pos)
  rw [List.length_map] at hle
  rw [size_eq_parts]
  omega

theorem length_elements_lt (es : List (Element Schema)) : es.length < (tuple es).size := by
  simpa [parts] using (tuple es).length_parts_lt

theorem length_properties_lt (o : ObjectShape Schema) : o.properties.length < (object o).size := by
  have hlt := (object o).length_parts_lt
  simp only [parts, List.length_append, List.length_map] at hlt
  omega

theorem sizeAll_branches_le (s : Schema) : sizeAll s.branches ≤ s.size := by
  cases s with
  | union bs => exact Nat.le_succ _
  | _ => exact le_rfl

theorem sizeAll_members_le (s : Schema) : sizeAll s.members ≤ s.size := by
  cases s with
  | intersection ms => exact Nat.le_succ _
  | _ => exact le_rfl

theorem sizeAll_flatMap_branches_le (ss : List Schema) : sizeAll (ss.flatMap branches) ≤ sizeAll ss := by
  induction ss with
  | nil => exact le_rfl
  | cons s ss ih =>
    rw [List.flatMap_cons, sizeAll_append]
    exact Nat.add_le_add s.sizeAll_branches_le ih

/-- The keyword is no greater than the first truth value that it takes the place of. -/
theorem sizeAll_collapseBooleans_le (ss : List Schema) : sizeAll (collapseBooleans ss) ≤ sizeAll ss := by
  by_cases hboth : (trueLiteral.isIn ss && falseLiteral.isIn ss) = true
  · obtain ⟨t, ht, hsame⟩ := List.any_eq_true.mp (Bool.and_eq_true_iff.mp hboth).1
    have hsplit := List.takeWhile_append_dropWhile (p := fun s => !(s.same trueLiteral || s.same falseLiteral)) (l := ss)
    unfold collapseBooleans
    rw [if_pos hboth]
    dsimp only
    cases hrest : ss.dropWhile fun s => !(s.same trueLiteral || s.same falseLiteral) with
    | nil =>
      have hnone := List.dropWhile_eq_nil_iff.mp hrest t ht
      simp [hsame] at hnone
    | cons u us =>
      have hu : (u.same trueLiteral || u.same falseLiteral) = true := by
        have hnot := List.head?_dropWhile_not (fun s => !(s.same trueLiteral || s.same falseLiteral)) ss
        rw [hrest] at hnot
        simpa only [List.head?_cons, Bool.not_eq_eq_eq_not, Bool.not_false] using hnot
      rw [hrest] at hsplit
      conv_rhs => rw [← hsplit]
      rw [sizeAll_append, sizeAll_append]
      refine Nat.add_le_add_left (Nat.add_le_add u.size_pos (sizeAll_le_of_sublist ?_)) _
      simp only [List.filter_cons, hu, Bool.not_true, Bool.false_eq_true, if_false]
      exact List.filter_sublist
  · rw [collapseBooleans_of_not hboth]

theorem sizeAll_flat_le (ss : List Schema) : sizeAll (flat ss) ≤ sizeAll ss :=
  (sizeAll_collapseBooleans_le _).trans ((sizeAll_le_of_sublist (distinct_sublist _)).trans (sizeAll_flatMap_branches_le ss))

theorem size_ofBranches_le (ss : List Schema) : (ofBranches ss).size ≤ sizeAll ss + 1 := by
  match ss with
  | [] => exact le_rfl
  | [s] => exact Nat.le_succ _
  | _ :: _ :: _ => exact le_rfl

theorem size_constrain_le (s : Schema) (cs : List Constraint) : (s.constrain cs).size ≤ s.size + 1 := by
  cases cs with
  | nil => exact Nat.le_succ _
  | cons c cs =>
    cases s with
    | constrained base ds => exact Nat.le_succ _
    | _ => exact le_rfl

theorem split_mem (s : Schema) : s.split.1 ∈ s :: s.parts := by
  cases s with
  | constrained base cs => exact List.mem_cons_of_mem _ (List.mem_singleton_self base)
  | _ => exact List.mem_cons_self

end Schema

/-- Bound on the size of what schemas of size `N` meet in, found within `n` nested calls. -/
def growth (N n : Nat) : Nat := (2 * N + 3) ^ (n + 1)

theorem growth_succ (N n : Nat) : growth N (n + 1) = (2 * N + 3) * growth N n := by rw [growth, growth, pow_succ']

theorem lt_growth (N n : Nat) : 2 * N + 2 < growth N n := by
  have hpow : 2 * N + 3 ≤ growth N n := Nat.le_self_pow n.succ_ne_zero _
  omega

theorem growth_mono {N n m : Nat} (h : n ≤ m) : growth N n ≤ growth N m :=
  Nat.pow_le_pow_right (by omega) (by omega)

/-- The result, if there is one, has no more than `B` schemas in it. -/
abbrev Compose.Bounded (B : Nat) (x : Compose Schema) : Prop := x.Yields (fun s => s.size ≤ B) fun _ => True

/-- All branches together are no greater than as many results. -/
theorem Compose.Yields.sizeAll_compatible {one : Schema → Compose Schema} {bs : List Schema} {B : Nat}
    (h : ∀ s ∈ bs, (one s).Bounded B) :
    (Env.compatible one bs).Yields (fun cs => Schema.sizeAll cs ≤ bs.length * B) fun _ => True := by
  induction bs with
  | nil => exact .pure (Nat.zero_le _)
  | cons s bs ih =>
    obtain ⟨hs, hbs⟩ := List.forall_mem_cons.mp h
    unfold Env.compatible
    refine ((Compose.Yields.unlessEmpty hs).mono (fun _ h => h) fun _ _ => trivial).bind fun met hmet => ?_
    refine (ih hbs).bind fun cs hcs => .pure ?_
    rw [List.length_cons, Nat.succ_mul]
    cases met with
    | none => exact hcs.trans (Nat.le_add_right _ _)
    | some c =>
      have hc : c.size ≤ B := hmet
      have hall : Schema.sizeAll (c :: cs) = c.size + Schema.sizeAll cs := rfl
      show Schema.sizeAll (c :: cs) ≤ _
      omega

/-- Only the results that can be are looked at. -/
theorem Compose.Yields.bind_congr {α β : Type} {x : Compose α} {P : α → Prop} {Q : Fault → Prop}
    {f g : α → Compose β}
    (hx : x.Yields P Q) (h : ∀ a, P a → f a = g a) : x >>= f = x >>= g := by
  refine ExceptT.ext (funext fun met => ?_)
  have hx := hx met
  rw [ExceptT.run_bind, ExceptT.run_bind, Compose.bind_run, Compose.bind_run]
  cases hrun : (x.run met).1 with
  | ok a =>
    rw [hrun] at hx
    show (f a).run _ = (g a).run _
    rw [h a hx]
  | error e => rfl

namespace Env

variable {env : Env} {a b s t : Schema} {meet : Schema → Schema → Compose Schema} {N B : Nat}

theorem size_union_le {ss : List Schema} (h : env.union ss = .ok s) : s.size ≤ Schema.sizeAll ss + 1 := by
  obtain ⟨kept, hkept, h⟩ := bind_ok h
  obtain rfl := Except.ok.inj h
  have hflat : Schema.sizeAll kept ≤ Schema.sizeAll ss :=
    (Schema.sizeAll_le_of_sublist (pruned_sublist hkept)).trans (Schema.sizeAll_flat_le ss)
  exact (Schema.size_ofBranches_le kept).trans (Nat.succ_le_succ hflat)

theorem meetBranches_bounded {bs : List Schema} {one : Schema → Compose Schema} (h : ∀ s ∈ bs, (one s).Bounded B) :
    (env.meetBranches a b bs one).Bounded (bs.length * B + 1) := by
  unfold meetBranches
  refine (Compose.Yields.sizeAll_compatible h).bind fun cs hcs => ?_
  split_ifs
  · exact .throw trivial
  · exact .lift ((Except.ends_ok _).mono (fun _ h => (size_union_le h).trans (Nat.succ_le_succ hcs)) fun _ _ => trivial)

theorem meetShapes_bounded {o u : ObjectShape Schema} (hN : N ≤ B) (hB : 0 < B) (ho : (Schema.object o).size ≤ N)
    (hu : (Schema.object u).size ≤ N)
    (hmeet : ∀ s ∈ (Schema.object o).parts, ∀ t ∈ (Schema.object u).parts,
      (meet s t).Bounded B ∧ (meet t s).Bounded B) :
    Compose.Bounded ((2 * N + 3) * B) (do env.makeObject (← ObjectShape.meetShapes env.admits meet o u)) := by
  have part : ∀ {x : ObjectShape Schema} {s : Schema}, (Schema.object x).size ≤ N → s ∈ (Schema.object x).parts →
      s.size ≤ N :=
    fun hx hs => (Schema.size_lt_of_part hs).le.trans hx
  have index : ∀ {x : ObjectShape Schema} {i : IndexSignature Schema}, (Schema.object x).size ≤ N → x.index = some i →
      i.key.size ≤ N ∧ i.value.size ≤ B := fun hx hi =>
    ⟨part hx (List.mem_append_right _ (by simp [hi, IndexSignature.parts])),
      (part hx (ObjectShape.index_mem_parts hi)).trans hN⟩
  have made : ∀ {x : ObjectShape Schema}, (Schema.object x).size ≤ N →
      ∀ p ∈ x.properties, p.Made (fun s => s.size ≤ B) fun _ => True :=
    fun hx p hp => ⟨(part hx (ObjectShape.mem_parts hp)).trans hN, fun _ _ => trivial⟩
  refine (ObjectShape.meetShapes_made (I := fun i => ∀ k, i = some k → k.key.size ≤ N ∧ k.value.size ≤ B)
    (P := fun s => s.size ≤ B) (fun _ _ => trivial) hB ?_ (made ho) (made hu) (fun _ _ _ => Except.ends_any _) ?_ ?_ ?_).bind
      fun r hr => ?_
  · refine ObjectShape.meetIndex_made (fun _ _ => trivial) (fun i hi => index ho hi) (fun j hj => index hu hj)
      fun i j hi hj => ?_
    exact (hmeet _ (ObjectShape.index_mem_parts hi) _ (ObjectShape.index_mem_parts hj)).1.mono
      (fun _ h => ⟨(index ho hi).1, h⟩) fun _ h => h
  · exact fun p hp q hq => (hmeet _ (ObjectShape.mem_parts hp) _ (ObjectShape.mem_parts hq)).1
  · exact fun p hp i hi => (hmeet _ (ObjectShape.mem_parts hp) _ (ObjectShape.index_mem_parts hi)).1
  · exact fun q hq i hi => (hmeet _ (ObjectShape.index_mem_parts hi) _ (ObjectShape.mem_parts hq)).2
  · obtain ⟨hindex, hproperties, hlength⟩ := hr
    refine .lift ((makeObject_ends r).mono (fun c hc => ?_) fun _ h => h)
    have hsum : Schema.sizeProperties r.properties ≤ r.properties.length * B := by
      rw [Schema.sizeProperties_eq]
      exact Schema.sum_sizes_le fun p hp => (hproperties p hp).value
    have hcount : r.properties.length ≤ 2 * N := by
      have hleft := Schema.length_properties_lt o
      have hright := Schema.length_properties_lt u
      omega
    have hkey : Schema.sizeIndex r.index ≤ N + B := by
      cases hi : r.index with
      | none => exact Nat.zero_le _
      | some i => exact Nat.add_le_add (hindex i hi).1 (hindex i hi).2
    have hsize : (Schema.object r).size = Schema.sizeProperties r.properties + Schema.sizeIndex r.index + 1 := rfl
    have hproduct := Nat.mul_le_mul_right B hcount
    rw [hc, hsize, Nat.add_mul]
    omega

theorem meetTuples_bounded {es fs : List (Element Schema)} (hN : N ≤ B) (hB : 0 < B) (hes : (Schema.tuple es).size ≤ N)
    (hfs : (Schema.tuple fs).size ≤ N) (hmeet : ∀ e ∈ es, ∀ f ∈ fs, (meet e.value f.value).Bounded B) :
    (Element.meetTuples meet es fs).Bounded ((2 * N + 3) * B) := by
  refine (Element.meetTuples_made (P := fun s => s.size ≤ B) (D := fun _ => True) (fun _ _ => trivial) hB
    (fun _ _ _ _ => trivial) (fun _ _ _ _ => trivial) hmeet).mono ?_ fun _ h => h
  rintro c (rfl | ⟨gs, rfl, hgs, hlength⟩)
  · have hsize : (Schema.intersection [.tuple es, .tuple fs]).size =
        (Schema.tuple es).size + ((Schema.tuple fs).size + 0) + 1 := rfl
    have hfactor : 3 * B ≤ (2 * N + 3) * B := Nat.mul_le_mul_right B (by omega)
    omega
  · have hsum : Schema.sizeElements gs ≤ gs.length * B := by
      rw [Schema.sizeElements_eq]
      exact Schema.sum_sizes_le fun g hg => (hgs g hg).value
    have hcount : gs.length ≤ 2 * N := by
      have hleft := Schema.length_elements_lt es
      have hright := Schema.length_elements_lt fs
      omega
    have hsize : (Schema.tuple gs).size = Schema.sizeElements gs + 1 := rfl
    have hproduct := Nat.mul_le_mul_right B hcount
    rw [hsize, Nat.add_mul]
    omega

theorem meetPlain_bounded (hN : N ≤ B) (ha : a.size ≤ N) (hb : b.size ≤ N)
    (hmeet : ∀ s ∈ a :: a.parts, ∀ t ∈ b :: b.parts, (meet s t).Bounded B ∧ (meet t s).Bounded B) :
    (env.meetPlain meet a b).Bounded ((2 * N + 3) * B) := by
  have hB : 0 < B := a.size_pos.trans_le (ha.trans hN)
  have hthree : 3 * B ≤ (2 * N + 3) * B := Nat.mul_le_mul_right B (by omega)
  have hparts : ∀ s ∈ a.parts, ∀ t ∈ b.parts, (meet s t).Bounded B ∧ (meet t s).Bounded B := fun s hs t ht =>
    hmeet s (List.mem_cons_of_mem _ hs) t (List.mem_cons_of_mem _ ht)
  refine meetPlain_made (fun _ _ => trivial) (by omega) (by omega) ?_ ?_ (fun _ => Except.ends_any _)
    (fun _ => ⟨Except.ends_any _, Except.ends_any _⟩) (fun _ _ => Except.ends_any _) ?_ ?_ ?_
  · have hsize : (Schema.intersection [a, b]).size = a.size + (b.size + 0) + 1 := rfl
    omega
  · have hsize : (Schema.intersection (Schema.distinct (a.members ++ b.members))).size =
        Schema.sizeAll (Schema.distinct (a.members ++ b.members)) + 1 := rfl
    have hdistinct := Schema.sizeAll_le_of_sublist (Schema.distinct_sublist (a.members ++ b.members))
    rw [Schema.sizeAll_append] at hdistinct
    have hleft := a.sizeAll_members_le
    have hright := b.sizeAll_members_le
    omega
  · unfold meetConstrained
    refine (hmeet _ a.split_mem _ b.split_mem).1.bind fun base hbase => ?_
    refine Compose.Yields.bind (.lift (Except.ends_ok _)) fun cs _ => .pure ?_
    have hsize := base.size_constrain_le cs
    omega
  · rintro o u rfl rfl
    exact meetShapes_bounded hN hB ha hb hparts
  · rintro es fs rfl rfl
    exact meetTuples_bounded hN hB ha hb fun e he f hf =>
      (hparts _ (List.mem_map_of_mem he) _ (List.mem_map_of_mem hf)).1

/-- What is worked out within `fuel` nested calls, inside the schemas that can be come to from two given ones. -/
theorem meetWithin_bounded (fuel : Nat) (expanding : List (Schema × Schema)) (hs : s ∈ env.within a b)
    (ht : t ∈ env.within a b) : (env.meetWithin fuel expanding s t).Bounded (growth (env.reach a b) fuel) := by
  induction fuel generalizing expanding s t with
  | zero =>
    have hsize : (Schema.intersection [s, t]).size = s.size + (t.size + 0) + 1 := rfl
    have hleft := size_le_reach hs
    have hright := size_le_reach ht
    have hgrowth := lt_growth (env.reach a b) 0
    exact .pure (by omega)
  | succ fuel ih =>
    have hleft := size_le_reach hs
    have hright := size_le_reach ht
    have hgrowth := lt_growth (env.reach a b) (fuel + 1)
    have apart : Compose.Bounded (growth (env.reach a b) (fuel + 1)) (pure (.intersection [s, t])) := by
      have hsize : (Schema.intersection [s, t]).size = s.size + (t.size + 0) + 1 := rfl
      exact .pure (by omega)
    unfold meetWithin
    dsimp only
    split_ifs with hsame hunknown hunknown' hnever href hpair
    · exact .pure (by omega)
    · exact .pure (by omega)
    · exact .pure (by omega)
    · exact .throw trivial
    · exact Compose.Yields.bind (.lift (Except.ends_ok _)) fun _ _ => apart
    · refine Compose.Yields.bind (.lift (Except.ends_ok _)) fun _ _ => ?_
      refine Compose.Yields.bind (.lift (Except.ends_ok _)) fun left hl => ?_
      refine Compose.Yields.bind (.lift (Except.ends_ok _)) fun right hr => ?_
      have pending : Compose.Bounded (growth (env.reach a b) (fuel + 1))
          (do Compose.defer; pure (.intersection [s, t])) :=
        (Compose.Yields.defer (R := fun _ => True) trivial).bind fun _ _ => apart
      cases left with
      | none => exact pending
      | some u =>
        cases right with
        | none => exact pending
        | some w =>
          exact (ih _ (within_behind hs hl) (within_behind ht hr)).mono
            (fun _ h => h.trans (growth_mono (Nat.le_succ fuel))) fun _ h => h
    · have hN := (lt_growth (env.reach a b) fuel)
      have plain : (env.meetPlain (env.meetWithin fuel expanding) s t).Bounded (growth (env.reach a b) (fuel + 1)) := by
        rw [growth_succ]
        refine meetPlain_bounded (by omega) hleft hright fun u hu w hw => ?_
        have hu : u ∈ env.within a b := (List.mem_cons.mp hu).elim (fun h => h ▸ hs) (within_part hs)
        have hw : w ∈ env.within a b := (List.mem_cons.mp hw).elim (fun h => h ▸ ht) (within_part ht)
        exact ⟨ih expanding hu hw, ih expanding hw hu⟩
      have branches : ∀ {u other : Schema} {bs : List Schema} {one : Schema → Compose Schema}, bs.length ≤ env.reach a b →
          (∀ r ∈ bs, (one r).Bounded (growth (env.reach a b) fuel)) →
          (env.meetBranches u other bs one).Bounded (growth (env.reach a b) (fuel + 1)) := by
        intro u other bs one hlength hone
        refine (meetBranches_bounded hone).mono (fun _ h => h.trans ?_) fun _ h => h
        have hproduct := Nat.mul_le_mul_right (growth (env.reach a b) fuel) hlength
        rw [growth_succ, Nat.add_mul, Nat.mul_assoc]
        omega
      cases s with
      | union bs =>
        exact branches ((Schema.union bs).length_parts_lt.le.trans hleft) fun u hu => ih expanding (within_part hs hu) ht
      | _ =>
        cases t with
        | union bs =>
          exact branches ((Schema.union bs).length_parts_lt.le.trans hright) fun u hu =>
            ih expanding hs (within_part ht hu)
        | _ => exact plain

/-- Two tests that agree on schemas of the size of the results prune alike. -/
theorem meetStep_test_congr {test test' : Schema → Schema → Except Fault Bool} {next : Pairing → Compose Schema}
    {c : Pairing}
    (hnext : ∀ d, c.Calls env d → (next d).Bounded B)
    (htest : ∀ s t, s.size ≤ N * B → t.size ≤ N * B → test s t = test' s t)
    (hleft : c.left.size ≤ N) (hright : c.right.size ≤ N) : env.meetStep test next c = env.meetStep test' next c := by
  obtain ⟨expanding, a, b⟩ := c
  have branches : ∀ {u other : Schema} {bs : List Schema} {one : Schema → Compose Schema}, bs.length ≤ N →
      (∀ s ∈ bs, (one s).Bounded B) → meetBranchesBy test u other bs one = meetBranchesBy test' u other bs one := by
    intro u other bs one hlength hone
    refine (Compose.Yields.sizeAll_compatible hone).bind_congr fun cs hcs => ?_
    have small : ∀ s ∈ Schema.flat cs, s.size ≤ N * B := fun s hs =>
      (Schema.size_le_sizeAll hs).trans ((Schema.sizeAll_flat_le cs).trans (hcs.trans (Nat.mul_le_mul_right B hlength)))
    rw [unionBy_congr fun s hs t ht => htest s t (small s hs) (small t ht)]
  unfold meetStep
  dsimp only
  split_ifs
  · rfl
  · rfl
  · rfl
  · rfl
  · rfl
  · rfl
  · cases a with
    | union bs =>
      exact branches ((Schema.union bs).length_parts_lt.le.trans hleft) fun s hs => hnext _ (.left hs)
    | _ =>
      cases b with
      | union bs =>
        exact branches ((Schema.union bs).length_parts_lt.le.trans hright) fun s hs => hnext _ (.right hs)
      | _ => rfl

end Env
end Schemata
