import Schemata.Proofs.Schema.Consulting

/-! Names replaced by what they stand for, again and again. Where ranks go down from every name to the names in its
definition, a schema without names is left, and it has the domains of the first. -/
namespace Schemata
namespace Schema

mutual
/-- The schema with `f r` in the place of every reference `r`. -/
def replaced (f : Ref → Schema) : Schema → Schema
  | .keyword k => .keyword k
  | .literal v => .literal v
  | .constrained s cs => .constrained (replaced f s) cs
  | .union bs => .union (replacedAll f bs)
  | .intersection ms => .intersection (replacedAll f ms)
  | .ref r => f r
  | .object ⟨ps, i, u⟩ => .object ⟨replacedProperties f ps, replacedIndex f i, u⟩
  | .tuple es => .tuple (replacedElements f es)
termination_by structural s => s
def replacedAll (f : Ref → Schema) : List Schema → List Schema
  | [] => []
  | s :: rest => replaced f s :: replacedAll f rest
termination_by structural ss => ss
def replacedProperties (f : Ref → Schema) : List (Property Schema) → List (Property Schema)
  | [] => []
  | ⟨k, s, p⟩ :: rest => ⟨k, replaced f s, p⟩ :: replacedProperties f rest
termination_by structural ps => ps
def replacedIndex (f : Ref → Schema) : Option (IndexSignature Schema) → Option (IndexSignature Schema)
  | none => none
  | some ⟨k, s⟩ => some ⟨replaced f k, replaced f s⟩
termination_by structural i => i
def replacedElements (f : Ref → Schema) : List (Element Schema) → List (Element Schema)
  | [] => []
  | ⟨r, s⟩ :: rest => ⟨r, replaced f s⟩ :: replacedElements f rest
termination_by structural es => es
end

variable {f : Ref → Schema} {S T : Ref → Prop} {s t : Schema}

theorem replacedAll_eq (ss : List Schema) : replacedAll f ss = ss.map (replaced f) := by
  induction ss with
  | nil => rfl
  | cons s ss ih => rw [replacedAll, ih, List.map_cons]

theorem replacedProperties_eq (ps : List (Property Schema)) :
    replacedProperties f ps = ps.map fun p => ⟨p.key, p.value.replaced f, p.presence⟩ := by
  induction ps with
  | nil => rfl
  | cons p ps ih => rw [replacedProperties, ih, List.map_cons]

theorem replacedIndex_eq (i : Option (IndexSignature Schema)) :
    replacedIndex f i = i.map fun i => ⟨i.key.replaced f, i.value.replaced f⟩ := by cases i <;> rfl

theorem replacedElements_eq (es : List (Element Schema)) :
    replacedElements f es = es.map fun e => ⟨e.role, e.value.replaced f⟩ := by
  induction es with
  | nil => rfl
  | cons e es ih => rw [replacedElements, ih, List.map_cons]

theorem replaced_ref (s : Schema) : s.replaced .ref = s := by
  induction s using induction_on_parts with
  | _ s ih =>
    have all : ∀ ss : List Schema, (∀ t ∈ ss, t.replaced .ref = t) → ss.map (replaced .ref) = ss := fun ss h => by
      conv_rhs => rw [← List.map_id ss]
      exact List.map_congr_left h
    cases s with
    | constrained s cs => rw [replaced, ih s (List.mem_singleton.mpr rfl)]
    | union bs => rw [replaced, replacedAll_eq, all bs ih]
    | intersection ms => rw [replaced, replacedAll_eq, all ms ih]
    | object o =>
      obtain ⟨ps, i, u⟩ := o
      obtain ⟨hps, hi⟩ := List.forall_mem_append.mp ih
      have hproperties : (ps.map fun p => (⟨p.key, p.value.replaced .ref, p.presence⟩ : Property Schema)) = ps := by
        conv_rhs => rw [← List.map_id ps]
        exact List.map_congr_left fun p hp => by rw [hps _ (List.mem_map_of_mem hp)]; rfl
      have hindex : (i.map fun i => (⟨i.key.replaced .ref, i.value.replaced .ref⟩ : IndexSignature Schema)) = i := by
        cases i with
        | none => rfl
        | some i => simp [hi i.key (by simp [IndexSignature.parts]), hi i.value (by simp [IndexSignature.parts])]
      rw [replaced, replacedProperties_eq, replacedIndex_eq, hproperties, hindex]
    | tuple es =>
      have helements : (es.map fun e => (⟨e.role, e.value.replaced .ref⟩ : Element Schema)) = es := by
        conv_rhs => rw [← List.map_id es]
        exact List.map_congr_left fun e he => by rw [ih _ (List.mem_map_of_mem he)]; rfl
      rw [replaced, replacedElements_eq, helements]
    | _ => rfl

/-- The references that are left stand in what was put in. -/
theorem into_replaced (hs : s.Into S) (hf : ∀ r, S r → (f r).Into T) : (s.replaced f).Into T := by
  induction s using induction_on_parts with
  | _ s ih =>
    have ih : ∀ t ∈ s.parts, (t.replaced f).Into T := fun t ht => ih t ht (hs.part ht)
    cases s with
    | keyword k => exact into_keyword
    | literal v => exact into_literal
    | constrained s cs => exact into_constrained.mpr (ih s (List.mem_singleton.mpr rfl))
    | union bs =>
      rw [replaced, replacedAll_eq, into_union]
      exact List.forall_mem_map.mpr ih
    | intersection ms =>
      rw [replaced, replacedAll_eq, into_intersection]
      exact List.forall_mem_map.mpr ih
    | ref r => exact hf r (into_ref.mp hs)
    | object o =>
      obtain ⟨ps, i, u⟩ := o
      obtain ⟨hps, hi⟩ := List.forall_mem_append.mp ih
      rw [replaced, replacedProperties_eq, replacedIndex_eq, into_object]
      refine ⟨List.forall_mem_map.mpr fun p hp => hps _ (List.mem_map_of_mem hp), fun j hj => ?_⟩
      obtain ⟨i, rfl, rfl⟩ := Option.map_eq_some_iff.mp hj
      exact ⟨hi i.key (by simp [IndexSignature.parts]), hi i.value (by simp [IndexSignature.parts])⟩
    | tuple es =>
      rw [replaced, replacedElements_eq, into_tuple]
      exact List.forall_mem_map.mpr fun e he => ih _ (List.mem_map_of_mem he)

/-- Domains follow what was put in for a reference. -/
theorem domainsWith_replaced (follow : Ref → Except Fault (Option DomainSet)) (s : Schema) :
    (s.replaced f).domainsWith follow = s.domainsWith fun r => (f r).domainsWith follow := by
  induction s using induction_on_parts with
  | _ s ih =>
    cases s with
    | constrained s cs => exact ih s (List.mem_singleton.mpr rfl)
    | union bs =>
      have hbs : ∀ ss : List Schema, (∀ s ∈ ss, (s.replaced f).domainsWith follow = s.domainsWith fun r =>
          (f r).domainsWith follow) → unionDomains follow (replacedAll f ss) =
            unionDomains (fun r => (f r).domainsWith follow) ss := by
        intro ss h
        induction ss with
        | nil => rfl
        | cons s ss ih =>
          obtain ⟨hs, hss⟩ := List.forall_mem_cons.mp h
          simp only [replacedAll, unionDomains, hs, ih hss]
      exact hbs bs ih
    | intersection ms =>
      have hms : ∀ ss : List Schema, (∀ s ∈ ss, (s.replaced f).domainsWith follow = s.domainsWith fun r =>
          (f r).domainsWith follow) → memberDomains follow (replacedAll f ss) =
            memberDomains (fun r => (f r).domainsWith follow) ss := by
        intro ss h
        induction ss with
        | nil => rfl
        | cons s ss ih =>
          obtain ⟨hs, hss⟩ := List.forall_mem_cons.mp h
          simp only [replacedAll, memberDomains, hs, ih hss]
      simp only [replaced, domainsWith, hms ms ih]
    | _ => rfl

end Schema

namespace Env

/-- What a name stands for after `n` rounds of replacing. -/
def expansion (env : Env) : Nat → Ref → Schema
  | 0, r => .ref r
  | n + 1, r =>
    match env.target r with
    | .filled t => t.replaced (env.expansion n)
    | _ => .ref r

/-- The schema with every name replaced by its definition, the names in there too, and so on for `n` rounds. -/
def expanded (env : Env) (n : Nat) (s : Schema) : Schema := s.replaced (env.expansion n)

/-- Known names lead to schemas over known names of lower rank, and no two of them share a slot. -/
structure Ranked (env : Env) (known : Ref → Prop) (rank : Ref → Nat) : Prop where
  filled : ∀ r, known r → ∃ t, env.target r = .filled t ∧ t.Into fun q => known q ∧ rank q < rank r
  slot : ∀ r q, known r → known q → (r.arena, r.handle) = (q.arena, q.handle) → r = q

namespace Ranked

variable {env : Env} {known : Ref → Prop} {rank : Ref → Nat} {b k n : Nat} {s : Schema}

/-- With enough rounds no name is left. -/
theorem expanded_into (h : env.Ranked known rank) (hs : s.Into fun r => known r ∧ rank r < b) (hb : b ≤ n) :
    (env.expanded n s).Into fun _ => False := by
  induction n generalizing b s with
  | zero => exact Schema.into_replaced hs fun r hr => absurd hr.2 (by omega)
  | succ n ih =>
    refine Schema.into_replaced hs fun r hr => ?_
    obtain ⟨t, ht, hinto⟩ := h.filled r hr.1
    rw [expansion, ht]
    exact ih hinto (by omega)

theorem domainsWithin_expanded (h : env.Ranked known rank) (hs : s.Into fun r => known r ∧ rank r < b) (hn : b ≤ n)
    (hk : b ≤ k) {seen : List Ref} (hseen : ∀ q ∈ seen, b ≤ rank q)
    (follow : Ref → Except Fault (Option DomainSet)) :
    env.domainsWithin k seen s = (env.expanded n s).domainsWith follow := by
  induction n generalizing b k seen s with
  | zero =>
    have unnamed : ∀ F G, s.domainsWith F = s.domainsWith G := fun F G =>
      Schema.domainsWith_congr fun r hr => absurd (hr.of_into hs).2 (by omega)
    rw [expanded, Schema.domainsWith_replaced]
    cases k <;> exact unnamed _ _
  | succ n ih =>
    rw [expanded, Schema.domainsWith_replaced]
    cases k with
    | zero => exact Schema.domainsWith_congr fun r hr => absurd (hr.of_into hs).2 (by omega)
    | succ k =>
      refine Schema.domainsWith_congr fun r hr => ?_
      obtain ⟨hknown, hrank⟩ := hr.of_into hs
      obtain ⟨t, ht, hinto⟩ := h.filled r hknown
      have hnew : seen.contains r = false := by
        rw [← Bool.not_eq_true, List.contains_iff_mem]
        intro hmem
        have := hseen r hmem
        omega
      rw [hnew, resolve?, ht, expansion, ht]
      refine ih hinto (by omega) (by omega) fun q hq => ?_
      rcases List.mem_cons.mp hq with rfl | hq
      · exact le_rfl
      · exact hrank.le.trans (hseen q hq)

/-- Domains are those of the schema without names. -/
theorem domains?_expanded (h : env.Ranked known rank) (hs : s.Into fun r => known r ∧ rank r < b) (hn : b ≤ n)
    (hb : b ≤ env.slotCount + 1) : env.domains? s = env.domains? (env.expanded n s) :=
  h.domainsWithin_expanded hs hn hb (by simp) _

end Ranked
end Env
end Schemata
