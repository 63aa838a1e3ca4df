import Schemata.Proofs.Schema.Places

/-! Equal schemas have the same values. -/
namespace Schemata

namespace Value.Twin

variable {u v w : Value}

theorem symm (h : v.Twin w) : w.Twin v := by
  rcases h with ⟨n, m, p, rfl, rfl, hn, hm⟩ | ⟨hv, rfl⟩
  · exact Or.inl ⟨m, n, p, rfl, rfl, hm, hn⟩
  · exact Or.inr ⟨hv, rfl⟩

theorem trans (h : u.Twin v) (k : v.Twin w) : u.Twin w := by
  rcases h with ⟨n, m, p, rfl, rfl, hn, hm⟩ | ⟨hu, rfl⟩
  · rcases k with ⟨m', l, q, hm', rfl, hq, hl⟩ | ⟨hv, -⟩
    · obtain rfl := Value.number.inj hm'
      obtain rfl := Option.some.inj (hm.symm.trans hq)
      exact Or.inl ⟨n, l, p, rfl, rfl, hn, hl⟩
    · exact absurd rfl (hv m)
  · exact k

theorem isScalar (h : v.Twin w) (hv : v.isScalar = true) : w.isScalar = true := by
  rcases h with ⟨n, m, p, rfl, rfl, -⟩ | ⟨-, rfl⟩
  · rfl
  · exact hv

/-- What a literal stands for meets the same keywords as the literal. -/
theorem holds (h : v.Twin w) (k : Keyword) : k.holds v = true ↔ k.holds w = true := by
  rcases h with ⟨n, m, p, rfl, rfl, hn, hm⟩ | ⟨-, rfl⟩
  · cases k with
    | integer =>
      simp only [Keyword.holds]
      rw [Number.toInt?_isSome hn, Number.toInt?_isSome hm]
    | _ => simp only [Keyword.holds, Value.domain]
  · rfl

theorem accepts (h : v.Twin w) {c : Constraint} (hc : c.Plain) : c.Accepts v ↔ c.Accepts w := by
  rcases h with ⟨n, m, p, rfl, rfl, hn, hm⟩ | ⟨-, rfl⟩
  · cases c with
    | range r => simp [Constraint.Accepts, Range.Accepts, hn, hm]
    | length l => simp [Constraint.Accepts, Length.Accepts, Value.length?, Value.items?, Value.unfold]
    | pattern q => simp [Constraint.Accepts, Pattern.Accepts]
    | equals _ => exact hc.elim
    | type _ => exact hc.elim
    | predicate _ => exact hc.elim
  · rfl

end Value.Twin

namespace Constraint

theorem sameAll_iff {cs ds : List Constraint} :
    sameAll cs ds = true ↔ List.Forall₂ (fun c d => c.same d = true) cs ds := by
  induction cs generalizing ds with
  | nil => cases ds <;> simp [sameAll]
  | cons c cs ih => cases ds <;> simp [sameAll, ih]

theorem accepts_of_sameAll {cs ds : List Constraint} (h : sameAll cs ds = true) (hc : ∀ c ∈ cs, c.Plain)
    (hd : ∀ d ∈ ds, d.Plain) (v : Value) : (∀ c ∈ cs, c.Accepts v) ↔ ∀ d ∈ ds, d.Accepts v := by
  refine forall₂_all_iff (sameAll_iff.mp h) fun c hmc d hmd hsame => ⟨?_, ?_⟩
  · exact Within.accepts (hc c hmc) (hd d hmd) (Or.inl hsame)
  · exact Within.accepts (hd d hmd) (hc c hmc) (Or.inl (same_symm (hc c hmc) (hd d hmd) hsame))

end Constraint

theorem Presence.eq_of_same {p q : Presence} (h : p.same q = true) (hp : p.default? = none) : p = q := by
  cases p <;> cases q <;> simp_all [same, default?]

theorem Role.eq_of_same {r s : Role} (h : r.same s = true) (hr : r.default? = none) : r = s := by
  cases r <;> cases s <;> simp_all [same, default?]

namespace Schema

theorem sameAll_iff {ss ts : List Schema} :
    sameAll ss ts = true ↔ List.Forall₂ (fun s t => s.same t = true) ss ts := by
  induction ss generalizing ts with
  | nil => cases ts <;> simp [sameAll]
  | cons s ss ih => cases ts <;> simp [sameAll, ih]

theorem sameProperties_iff {ps qs : List (Property Schema)} : sameProperties ps qs = true ↔
    List.Forall₂ (fun p q => p.key = q.key ∧ p.value.same q.value = true ∧
      p.presence.same q.presence = true) ps qs := by
  induction ps generalizing qs with
  | nil => cases qs <;> simp [sameProperties]
  | cons p ps ih => cases qs <;> simp [sameProperties, ih, and_assoc]

theorem sameElements_iff {es fs : List (Element Schema)} : sameElements es fs = true ↔
    List.Forall₂ (fun e f => e.role.same f.role = true ∧ e.value.same f.value = true) es fs := by
  induction es generalizing fs with
  | nil => cases fs <;> simp [sameElements]
  | cons e es ih => cases fs <;> simp [sameElements, ih, and_assoc]

theorem same_object {o q : ObjectShape Schema} (h : (Schema.object o).same (.object q) = true) :
    List.Forall₂ (fun p q => p.key = q.key ∧ p.value.same q.value = true ∧
      p.presence.same q.presence = true) o.properties q.properties ∧ o.undeclared = q.undeclared := by
  obtain ⟨ps, i, u⟩ := o
  simp only [same, Bool.and_eq_true, beq_iff_eq] at h
  exact ⟨sameProperties_iff.mp h.1.1, h.2⟩

variable {env : Env} {exact : Bool} {d : Dialect}

theorem declares_of_keys {o q : ObjectShape Schema} (h : o.keys = q.keys) (key : Key) :
    o.declares key = q.declares key := by
  have hany : ∀ o : ObjectShape Schema, o.declares key = o.keys.any fun k => k == key := fun o => by
    simp [ObjectShape.declares, ObjectShape.keys, List.any_map, Function.comp_def]
  rw [hany, hany, h]

theorem keys_of_forall₂ {R : Property Schema → Property Schema → Prop} (hR : ∀ p q, R p q → p.key = q.key)
    {ps qs : List (Property Schema)} (h : List.Forall₂ R ps qs) : ps.map (·.key) = qs.map (·.key) := by
  induction h with
  | nil => rfl
  | cons hpq _ ih => simp [hR _ _ hpq, ih]

section Containers

variable {v : Value}

/-- Equal objects have the same values if equal properties have. -/
theorem member_of_same_objects {o q : ObjectShape Schema} (hdo : ∀ p ∈ o.properties, p.presence.default? = none)
    (h : (Schema.object o).same (.object q) = true)
    (ih : ∀ p ∈ o.properties, ∀ p' ∈ q.properties, p.value.same p'.value = true → ∀ v,
      Member env exact p.value v ↔ Member env exact p'.value v) :
    Member env exact (.object o) v ↔ Member env exact (.object q) v := by
  obtain ⟨hprops, hpolicy⟩ := same_object h
  have hkeys : o.keys = q.keys := keys_of_forall₂ (fun p q h => h.1) hprops
  have hmet : ∀ es, (∀ p ∈ o.properties, Met env exact es p) ↔ ∀ p ∈ q.properties, Met env exact es p := fun es =>
    forall₂_all_iff hprops fun p hp p' hp' ⟨hk, hv, hpres⟩ => by
      simp only [Met, hk, Presence.eq_of_same hpres (hdo p hp), ih p hp p' hp' hv]
  simp only [member_object_iff, hmet, hpolicy, declares_of_keys hkeys]

/-- Equal tuples have the same values if equal elements have. -/
theorem member_of_same_tuples {es fs : List (Element Schema)} (hde : ∀ e ∈ es, e.role.default? = none)
    (h : (Schema.tuple es).same (.tuple fs) = true)
    (ih : ∀ e ∈ es, ∀ f ∈ fs, e.value.same f.value = true → ∀ v,
      Member env exact e.value v ↔ Member env exact f.value v) :
    Member env exact (.tuple es) v ↔ Member env exact (.tuple fs) v := by
  have hlike : List.Forall₂ (Element.Like fun s t => ∀ v, Member env exact s v ↔ Member env exact t v) es fs :=
    forall₂_imp_of_mem (sameElements_iff.mp h) fun e he f hf ⟨hrole, hval⟩ =>
      ⟨by rw [Role.eq_of_same hrole (hde e he)], ih e he f hf hval⟩
  simp only [member_tuple_iff, Element.admits_like hlike]
  refine exists_congr fun q => exists_congr fun items => and_congr_right fun _ => and_congr_right fun _ => ?_
  have hplaces := Element.places_like hlike (List.forall₂_same.mpr fun (x : Value) (_ : x ∈ items) => rfl)
  refine forall₂_all_iff hplaces fun t _ t' _ ⟨hiff, heq⟩ => ?_
  rw [heq]
  exact hiff _

end Containers

/-- Equal schemas have the same values. -/
theorem member_of_same {a b : Schema} (ha : a.Every (Fits d)) (hb : b.Every (Fits d)) (h : a.same b = true)
    (v : Value) : Member env exact a v ↔ Member env exact b v := by
  induction a using induction_on_parts generalizing b v with
  | _ a ih =>
    have ih : ∀ s ∈ a.parts, ∀ t ∈ b.parts, s.same t = true → ∀ v, Member env exact s v ↔ Member env exact t v :=
      fun s hs t ht hst v => ih s hs (ha.part hs) (hb.part ht) hst v
    cases a with
    | keyword k =>
      cases b <;> simp [same] at h
      rw [h]
    | literal w =>
      cases b <;> simp [same] at h
      rename_i x
      rw [member_literal_iff ha.root, member_literal_iff hb.root]
      rcases (Value.same_scalar_iff ha.root h.2).mp h.1 with hwx | rfl
      · exact ⟨fun hv => hwx.symm.trans hv, fun hv => hwx.trans hv⟩
      · rfl
    | constrained s cs =>
      cases b <;> simp [same] at h
      rename_i t ds
      rw [member_constrained, member_constrained, ih s (by simp [parts]) t (by simp [parts]) h.1,
        Constraint.accepts_of_sameAll h.2 ha.root hb.root]
    | union bs =>
      cases b <;> simp [same] at h
      rw [member_union, member_union]
      exact forall₂_any_iff (sameAll_iff.mp h) fun s hs t ht hst => ih s hs t ht hst v
    | intersection ms =>
      cases b <;> simp [same] at h
      rw [member_intersection, member_intersection]
      exact forall₂_all_iff (sameAll_iff.mp h) fun s hs t ht hst => ih s hs t ht hst v
    | ref r =>
      cases b <;> simp [same] at h
      rw [h]
    | object o =>
      cases b with
      | object q =>
        exact member_of_same_objects ha.root.2.2.1 h fun p hp p' hp' => ih _ (List.mem_append_left _
          (List.mem_map_of_mem hp)) _ (List.mem_append_left _ (List.mem_map_of_mem hp'))
      | _ => simp [same] at h
    | tuple es =>
      cases b with
      | tuple fs =>
        exact member_of_same_tuples ha.root.2 h fun e he f hf => ih _ (List.mem_map_of_mem he) _
          (List.mem_map_of_mem hf)
      | _ => simp [same] at h

theorem eq_unknown {s : Schema} (h : s.isUnknown = true) : s = unknown := by
  unfold isUnknown at h
  split at h
  · rfl
  · simp at h

theorem eq_never {s : Schema} (h : s.isNever = true) : s = never := by
  unfold isNever at h
  split at h
  · rfl
  · simp at h

end Schema
end Schemata
