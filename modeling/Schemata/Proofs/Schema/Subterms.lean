import Mathlib.Data.List.ReduceOption
import Mathlib.Logic.Relation
import Schemata.Proofs.Schema.Consulting
import Schemata.Proofs.Schema.References

/-! The finitely many schemas that operations can come to from given ones: the schemas inside these and inside
everything that the slots of the arenas hold. Names that go on through more of them than there are slots lead back to
themselves. -/
namespace Schemata
namespace Schema

variable {s t u : Schema}

/-- The schema and all schemas inside it. -/
def subterms (s : Schema) : List Schema := s :: s.parts.attach.flatMap fun t => t.1.subterms
termination_by s.size
decreasing_by exact size_lt_of_part t.2

theorem subterms_eq (s : Schema) : s.subterms = s :: s.parts.flatMap subterms := by
  rw [subterms, List.flatMap_subtype (g := subterms) (by simp), List.unattach_attach]

theorem mem_subterms_self (s : Schema) : s ∈ s.subterms := by
  rw [subterms_eq]
  exact List.mem_cons_self

theorem length_subterms (s : Schema) : s.subterms.length = s.size := by
  induction s using induction_on_parts with
  | _ s ih =>
    rw [subterms_eq, List.length_cons, List.length_flatMap, size_eq_parts, List.map_congr_left ih]

theorem mem_subterms_part (ht : t ∈ s.subterms) (hu : u ∈ t.parts) : u ∈ s.subterms := by
  induction s using induction_on_parts with
  | _ s ih =>
    rw [subterms_eq] at ht ⊢
    rcases List.mem_cons.mp ht with rfl | ht
    · exact List.mem_cons_of_mem _ (List.mem_flatMap.mpr ⟨u, hu, u.mem_subterms_self⟩)
    · obtain ⟨p, hp, ht⟩ := List.mem_flatMap.mp ht
      exact List.mem_cons_of_mem _ (List.mem_flatMap.mpr ⟨p, hp, ih p hp ht⟩)

theorem size_le_of_mem_subterms (ht : t ∈ s.subterms) : t.size ≤ s.size := by
  induction s using induction_on_parts with
  | _ s ih =>
    rw [subterms_eq] at ht
    rcases List.mem_cons.mp ht with rfl | ht
    · exact le_rfl
    · obtain ⟨p, hp, ht⟩ := List.mem_flatMap.mp ht
      exact (ih p hp ht).trans (size_lt_of_part hp).le

end Schema

namespace Env

variable {env : Env} {a b s t : Schema} {r : Ref}

/-- The schemas that the arenas hold. -/
def stored (env : Env) : List Schema := (env.arenas.flatMap (·.slots)).reduceOption

theorem storedSize_eq (env : Env) : env.storedSize = (env.stored.map Schema.size).sum := by
  unfold storedSize stored
  induction env.arenas.flatMap (·.slots) with
  | nil => rfl
  | cons o os ih => cases o <;> simp [ih, List.reduceOption_cons_of_none, List.reduceOption_cons_of_some]

theorem mem_stored (h : env.target r = .filled t) : t ∈ env.stored := by
  unfold target at h
  split at h
  · rename_i a ha
    unfold Arena.target at h
    split at h
    · rename_i u hu
      obtain rfl := Target.filled.inj h
      refine List.reduceOption_mem_iff.mpr (List.mem_flatMap.mpr ⟨a, List.mem_of_find?_eq_some ha, ?_⟩)
      exact List.mem_of_getElem? hu
    · cases h
  · cases h

/-- The slots of all arenas. -/
def slots (env : Env) : List (Nat × Nat) :=
  env.arenas.flatMap fun a => (List.range a.slots.length).map fun n => (a.id, n)

theorem length_slots (env : Env) : env.slots.length = env.slotCount := by
  unfold slots slotCount
  induction env.arenas with
  | nil => rfl
  | cons a as ih => simp [ih]

theorem mem_slots {r : Ref} (h : env.target r = .filled t) : (r.arena, r.handle) ∈ env.slots := by
  unfold target at h
  split at h
  · rename_i a ha
    have hid : a.id = r.arena := by simpa using List.find?_some ha
    unfold Arena.target at h
    split at h
    · rename_i u hu
      refine List.mem_flatMap.mpr ⟨a, List.mem_of_find?_eq_some ha, List.mem_map.mpr ⟨r.handle, ?_, by rw [hid]⟩⟩
      exact List.mem_range.mpr (List.getElem?_eq_some_iff.mp hu).1
    · cases h
  · cases h

/-- Everything that an operation on two schemas can come to. -/
def within (env : Env) (a b : Schema) : List Schema :=
  env.stored.flatMap Schema.subterms ++ (a.subterms ++ b.subterms)

theorem length_within (env : Env) (a b : Schema) : (env.within a b).length = env.reach a b := by
  have hstored : env.stored.map (fun s => s.subterms.length) = env.stored.map Schema.size :=
    List.map_congr_left fun s _ => s.length_subterms
  rw [within, List.length_append, List.length_append, List.length_flatMap, hstored, ← storedSize_eq,
    Schema.length_subterms, Schema.length_subterms, reach, Nat.add_assoc]

theorem mem_within_left (env : Env) (a b : Schema) : a ∈ env.within a b := by simp [within, Schema.mem_subterms_self]

theorem mem_within_right (env : Env) (a b : Schema) : b ∈ env.within a b := by simp [within, Schema.mem_subterms_self]

theorem within_target (h : env.target r = .filled t) : t ∈ env.within a b :=
  List.mem_append_left _ (List.mem_flatMap.mpr ⟨t, mem_stored h, t.mem_subterms_self⟩)

theorem within_part (hs : s ∈ env.within a b) (ht : t ∈ s.parts) : t ∈ env.within a b := by
  simp only [within, List.mem_append, List.mem_flatMap] at hs ⊢
  rcases hs with ⟨u, hu, hs⟩ | hs | hs
  · exact Or.inl ⟨u, hu, Schema.mem_subterms_part hs ht⟩
  · exact Or.inr (Or.inl (Schema.mem_subterms_part hs ht))
  · exact Or.inr (Or.inr (Schema.mem_subterms_part hs ht))

theorem within_behind (hs : s ∈ env.within a b) (ht : env.behind? s = .ok (some t)) : t ∈ env.within a b := by
  obtain ⟨r, rfl, htarget⟩ | rfl := target_or_eq_of_behind ht
  · exact within_target htarget
  · exact hs

theorem size_le_reach (hs : s ∈ env.within a b) : s.size ≤ env.reach a b := by
  unfold reach
  simp only [within, List.mem_append, List.mem_flatMap] at hs
  rcases hs with ⟨u, hu, hs⟩ | hs | hs
  · have hsize := Schema.size_le_of_mem_subterms hs
    have hsum := List.single_le_sum (fun _ _ => Nat.zero_le _) _ (List.mem_map_of_mem (f := Schema.size) hu)
    rw [← storedSize_eq] at hsum
    omega
  · have := Schema.size_le_of_mem_subterms hs
    omega
  · have := Schema.size_le_of_mem_subterms hs
    omega

/-! ### Names that lead back to themselves

There are finitely many slots, so a trail of names longer than their number comes to one of them twice. -/

variable {rs : List Ref}

/-- What the first name stands for is found out by looking behind the second one. -/
def Leads (env : Env) (r q : Ref) : Prop := ∃ t, env.target r = .filled t ∧ t.Consults q

/-- Some name leads back to itself. -/
def Loops (env : Env) : Prop := ∃ r, Relation.TransGen env.Leads r r

/-- The names, from the last to the first, that were looked behind on the way from some schema to `s`. -/
inductive Trail (env : Env) : List Ref → Schema → Prop
  | start (s : Schema) : Trail env [] s
  | follow {rs : List Ref} {s t : Schema} {r : Ref} : Trail env rs s → s.Consults r → env.target r = .filled t →
      Trail env (r :: rs) t

namespace Trail

theorem filled (h : env.Trail rs s) : ∀ r ∈ rs, ∃ t, env.target r = .filled t := by
  induction h with
  | start s => simp
  | follow _ _ ht ih => exact List.forall_mem_cons.mpr ⟨⟨_, ht⟩, ih⟩

/-- All names of the trail lead to what is consulted at its end. -/
theorem leads (h : env.Trail rs s) (hr : s.Consults r) : ∀ q ∈ rs, Relation.TransGen env.Leads q r := by
  induction h generalizing r with
  | start s => simp
  | @follow rs s t p _ hp ht ih =>
    have hlead : env.Leads p r := ⟨t, ht, hr⟩
    exact List.forall_mem_cons.mpr ⟨.single hlead, fun q hq => (ih hp q hq).tail hlead⟩

theorem pairwise (h : env.Trail rs s) : rs.Pairwise fun q r => Relation.TransGen env.Leads r q := by
  induction h with
  | start s => exact .nil
  | follow htrail hr _ ih => exact .cons (htrail.leads hr) ih

/-- A trail through more names than there are slots meets one slot twice. -/
theorem loops (h : env.Trail rs s) (hlong : env.slotCount < rs.length) : env.Loops := by
  by_contra hno
  have hnodup : (rs.map fun r => (r.arena, r.handle)).Nodup := by
    refine List.pairwise_map.mpr (h.pairwise.imp ?_)
    rintro q r hqr hslot
    refine hno ⟨q, ?_⟩
    obtain ⟨harena, hhandle⟩ := Prod.mk.inj hslot
    obtain ⟨p, ⟨t, ht, hp⟩, hrest⟩ := Relation.TransGen.head'_iff.mp hqr
    exact Relation.TransGen.head' ⟨t, (target_congr harena hhandle).trans ht, hp⟩ hrest
  have hsub : (rs.map fun r => (r.arena, r.handle)) ⊆ env.slots := by
    intro slot hslot
    obtain ⟨r, hr, rfl⟩ := List.mem_map.mp hslot
    obtain ⟨t, ht⟩ := h.filled r hr
    exact mem_slots ht
  have hlength := (hnodup.subperm hsub).length_le
  rw [List.length_map, length_slots] at hlength
  omega

end Trail

/-- What is still a name when all names were followed is one of those that lead back to themselves. -/
theorem loops_of_deref (h : env.deref s = .ok (.ref r)) : env.Loops := by
  have through : ∀ fuel rs s, env.Trail rs s → rs.length + fuel = env.slotCount + 1 →
      env.throughRefs fuel s = .ok (.ref r) → env.Loops := by
    intro fuel
    induction fuel with
    | zero => exact fun rs s htrail hlength _ => htrail.loops (by omega)
    | succ fuel ih =>
      intro rs s htrail hlength hs
      cases s with
      | ref q =>
        obtain ⟨t, ht, hs⟩ := bind_ok hs
        refine ih (q :: rs) t (htrail.follow .ref (target_of_resolve ht)) ?_ hs
        rw [List.length_cons]
        omega
      | _ => cases hs
  exact through _ [] s (.start s) (by simp) h

end Env
end Schemata
