import Schemata.Proofs.Algebra.Inheritance
import Schemata.Proofs.Schema.References
import Schemata.Proofs.Schema.Limits

/-! References and index keys of derived schemas. Unions and intersections keep to the limits that their operands keep
to, and what the operands refer to; so they refer to nothing but what stands there. -/
namespace Schemata
namespace Env

/-- References within the limits lead to schemas within them. -/
def Confines (env : Env) (l : Limits) : Prop := ∀ r t, l.ref r → env.target r = .filled t → t.Within l

variable {env : Env} {l : Limits} {a b c s t : Schema}

theorem Confines.resolve (h : env.Confines l) {r : Ref} (hr : l.ref r) (ht : env.resolve r = .ok t) : t.Within l := by
  unfold Env.resolve at ht
  cases htarget : env.target r with
  | filled u =>
    rw [htarget] at ht
    obtain rfl := Except.ok.inj ht
    exact h r u hr htarget
  | _ => simp [htarget] at ht

theorem Confines.behind (h : env.Confines l) (ha : a.Within l) (ht : env.behind? a = .ok (some t)) : t.Within l := by
  obtain ⟨r, rfl, htarget⟩ | rfl := target_or_eq_of_behind ht
  · exact h r t (Schema.within_ref.mp ha) htarget
  · exact ha

theorem Confines.deref (h : env.Confines l) (hs : s.Within l) (ht : env.deref s = .ok t) : t.Within l := by
  have through : ∀ fuel s, s.Within l → env.throughRefs fuel s = .ok t → t.Within l := by
    intro fuel
    induction fuel with
    | zero =>
      intro s hs ht
      obtain rfl := Except.ok.inj ht
      exact hs
    | succ fuel ih =>
      intro s hs ht
      cases s with
      | ref r =>
        obtain ⟨u, hu, ht⟩ := bind_ok ht
        exact ih u (h.resolve (Schema.within_ref.mp hs) hu) ht
      | _ =>
        obtain rfl := Except.ok.inj ht
        exact hs
  exact through _ s hs ht

theorem union_within {ss : List Schema} (hss : ∀ s ∈ ss, s.Within l) (h : env.union ss = .ok t) : t.Within l :=
  every_union trivial (fun _ => trivial) hss h

theorem makeObject_within {o : ObjectShape Schema} (ho : o.Within l) (h : env.makeObject o = .ok t) : t.Within l := by
  have hends : Ends (env.makeObject o) _ _ := makeObject_ends o
  rw [h] at hends
  obtain rfl : t = .object o := hends
  exact Schema.within_object.mpr ho

/-- The result is within the limits. -/
abbrev Confined (l : Limits) (x : Compose Schema) : Prop := x.Yields (Schema.Within l) fun _ => True

/-- Schemas within the limits meet in such a one. -/
def Stays (l : Limits) (meet : Schema → Schema → Compose Schema) : Prop :=
  ∀ s t, s.Within l → t.Within l → Confined l (meet s t)

variable {meet : Schema → Schema → Compose Schema} {o u : ObjectShape Schema} {es fs : List (Element Schema)}

theorem meetShapes_confined {admits : Schema → Value → Except Fault Bool} (hmeet : Stays l meet) (ho : o.Within l)
    (hu : u.Within l) : (ObjectShape.meetShapes admits meet o u).Yields (·.Within l) fun _ => True := by
  have made : ∀ {x : ObjectShape Schema}, x.Within l → ∀ p ∈ x.properties, p.Made (Schema.Within l) fun _ => True :=
    fun hx p hp => ⟨hx.properties p hp, fun _ _ => trivial⟩
  refine (ObjectShape.meetShapes_made (I := fun i => ∀ k, i = some k → k.Within l) (fun _ _ => trivial) Schema.within_never
    (ObjectShape.meetIndex_made (fun _ _ => trivial) ho.index hu.index fun i j hi hj => ?_) (made ho) (made hu)
    (fun _ _ _ => Except.ends_any _)
    (fun p hp q hq => hmeet _ _ (ho.properties p hp) (hu.properties q hq))
    (fun p hp i hi => hmeet _ _ (ho.properties p hp) (hu.index i hi).value)
    fun q hq i hi => hmeet _ _ (hu.properties q hq) (ho.index i hi).value).mono
      (fun r hr => ⟨fun p hp => (hr.2.1 p hp).value, hr.1⟩) fun _ h => h
  refine (hmeet _ _ (ho.index i hi).value (hu.index j hj).value).mono (fun s hs => ?_) fun _ h => h
  exact ⟨(ho.index i hi).key, hs, (ho.index i hi).allowed⟩

theorem meetTuples_confined (hmeet : Stays l meet) (hes : ∀ e ∈ es, e.value.Within l) (hfs : ∀ f ∈ fs, f.value.Within l) :
    Confined l (Element.meetTuples meet es fs) := by
  refine (Element.meetTuples_made (D := fun _ => True) (fun _ _ => trivial) Schema.within_never (fun _ _ _ _ => trivial)
    (fun _ _ _ _ => trivial) fun e he f hf => hmeet _ _ (hes e he) (hfs f hf)).mono ?_ fun _ h => h
  rintro c (rfl | ⟨gs, rfl, hgs, -⟩)
  · simpa using ⟨hes, hfs⟩
  · exact Schema.within_tuple.mpr fun g hg => (hgs g hg).value

theorem meetConstrained_confined (hmeet : Stays l meet) (ha : a.Within l) (hb : b.Within l) :
    Confined l (meetConstrained meet a b) := by
  unfold meetConstrained
  refine (hmeet _ _ (Schema.within_split ha) (Schema.within_split hb)).bind fun base hbase => ?_
  exact Compose.Yields.bind (.lift (Except.ends_ok _)) fun cs _ => .pure (Schema.within_constrain.mpr hbase)

theorem meetBranches_confined {bs : List Schema} {one : Schema → Compose Schema} (h : ∀ s ∈ bs, Confined l (one s)) :
    Confined l (env.meetBranches a b bs one) := by
  have confined : ∀ s ∈ bs, (one s).Yields (fun c => c.Within l) fun e =>
      (e.isUnsatisfiable = true → True) ∧ (e.isUnsatisfiable = false → True) := fun s hs =>
    (h s hs).mono (fun _ h => h) fun _ _ => ⟨fun _ => trivial, fun _ => trivial⟩
  unfold meetBranches
  refine (Compose.Yields.compatible confined).bind fun cs hcs => ?_
  have within : ∀ c ∈ cs, c.Within l := fun c hc => by
    obtain ⟨s, -, h⟩ := hcs.1 c hc
    exact h
  split_ifs
  · exact .throw trivial
  · exact .lift ((Except.ends_ok _).mono (fun _ h => union_within within h) fun _ h => h)

variable (env) in
theorem meetPlain_confined (hmeet : Stays l meet) (ha : a.Within l) (hb : b.Within l) :
    Confined l (env.meetPlain meet a b) := by
  refine meetPlain_made (fun _ _ => trivial) ha hb (by simp [ha, hb]) ?_ (fun _ => Except.ends_any _)
    (fun _ => ⟨Except.ends_any _, Except.ends_any _⟩) (fun _ _ => Except.ends_any _)
    (meetConstrained_confined hmeet ha hb) ?_ ?_
  · exact Schema.within_intersection.mpr (Schema.within_distinct
      (List.forall_mem_append.mpr ⟨Schema.within_members ha, Schema.within_members hb⟩))
  · rintro o u rfl rfl
    refine (meetShapes_confined hmeet (Schema.within_object.mp ha) (Schema.within_object.mp hb)).bind fun r hr => ?_
    exact .lift ((Except.ends_ok _).mono (fun _ h => makeObject_within hr h) fun _ h => h)
  · rintro es fs rfl rfl
    exact meetTuples_confined hmeet (Schema.within_tuple.mp ha) (Schema.within_tuple.mp hb)

/-- The intersection inside the pairs met before. What it refers to, and its index keys, stand in its operands or
behind them. -/
theorem meetWithin_confined (hconfines : env.Confines l) (fuel : Nat) (expanding : List (Schema × Schema)) :
    Stays l (env.meetWithin fuel expanding) := by
  induction fuel generalizing expanding with
  | zero => exact fun a b ha hb => .pure (by simp [ha, hb])
  | succ fuel ih =>
    intro a b ha hb
    have apart : Confined l (pure (.intersection [a, b])) := .pure (by simp [ha, hb])
    unfold meetWithin
    dsimp only
    split_ifs with hsame hunknown hunknown' hnever href hpair
    · exact .pure ha
    · exact .pure hb
    · exact .pure ha
    · exact .throw trivial
    · exact Compose.Yields.bind (.lift (Except.ends_ok _)) fun _ _ => apart
    · refine Compose.Yields.bind (.lift (Except.ends_ok _)) fun _ _ => ?_
      refine Compose.Yields.bind (.lift (Except.ends_ok _)) fun left hleft => ?_
      refine Compose.Yields.bind (.lift (Except.ends_ok _)) fun right hright => ?_
      have pending : Confined l (do Compose.defer; pure (.intersection [a, b])) :=
        (Compose.Yields.defer (R := fun _ => True) trivial).bind fun _ _ => apart
      cases left with
      | none => exact pending
      | some s =>
        cases right with
        | none => exact pending
        | some t => exact ih _ s t (hconfines.behind ha hleft) (hconfines.behind hb hright)
    · have plain := meetPlain_confined env (ih expanding) ha hb
      cases a with
      | union bs => exact meetBranches_confined fun s hs => ih expanding s b (Schema.within_union.mp ha s hs) hb
      | _ =>
        cases b with
        | union bs => exact meetBranches_confined fun s hs => ih expanding _ s ha (Schema.within_union.mp hb s hs)
        | _ => exact plain

theorem intersect_within (hconfines : env.Confines l) (ha : a.Within l) (hb : b.Within l)
    (h : (env.intersect a b).1 = .ok c) : c.Within l := by
  have := meetWithin_confined hconfines (env.pairFuel a b) [] a b ha hb false
  unfold intersect at h
  rwa [h] at this

end Env
end Schemata
