import Schemata.Algebra.Domains
import Schemata.Proofs.Schema.Member
import Schemata.Proofs.Value.Rebuilding

/-! Domains bound the values of a schema, and telling them always ends with an answer. -/
namespace Schemata

theorem Keyword.domains_of_holds {k : Keyword} {v : Value} (h : k.holds v = true) :
    k.domains v.domain = true := by
  cases k with
  | integer =>
    cases v with
    | number n => rfl
    | _ => simp [holds] at h
  | _ => exact h

namespace Schema

variable {env : Env} {exact : Bool} {d : Dialect}

/-- Every value of the schema lies in the domains, when they are known. -/
def BoundedBy (env : Env) (exact : Bool) (s : Schema) (ds : Option DomainSet) : Prop :=
  ∀ e, ds = some e → ∀ v, Member env exact s v → e v.domain = true

theorem meetKnown_holds {l : List (Option DomainSet)} {x : Domain} (h : ∀ e, some e ∈ l → e x = true) :
    ∀ e, meetKnown l = some e → e x = true := by
  induction l with
  | nil => simp [meetKnown]
  | cons ds l ih =>
    have ih := ih fun e he => h e (List.mem_cons_of_mem _ he)
    intro e he
    cases ds with
    | none => exact ih e he
    | some f =>
      have hf := h f (by simp)
      simp only [meetKnown, Option.some.injEq] at he
      cases hl : meetKnown l with
      | none =>
        rw [hl] at he
        rw [← he]
        exact hf
      | some g =>
        rw [hl] at he
        rw [← he]
        simp [DomainSet.inter, hf, ih g hl]

section Follow

variable {follow : Ref → Except Fault (Option DomainSet)}

theorem unionDomains_spec {bs : List Schema}
    (h : ∀ s ∈ bs, ∃ ds, s.domainsWith follow = .ok ds ∧ BoundedBy env exact s ds) :
    ∃ ds, unionDomains follow bs = .ok ds ∧ BoundedBy env exact (.union bs) ds := by
  induction bs with
  | nil =>
    refine ⟨_, rfl, fun e _ v hv => ?_⟩
    obtain ⟨s, hs, -⟩ := member_union.mp hv
    simp at hs
  | cons s bs ih =>
    obtain ⟨ds, hds, hb⟩ := h s (by simp)
    obtain ⟨es, hes, hb'⟩ := ih fun t ht => h t (List.mem_cons_of_mem _ ht)
    simp only [unionDomains, hds, hes, bind, Except.bind]
    cases ds with
    | none => exact ⟨none, rfl, fun e he => by simp at he⟩
    | some e =>
      refine ⟨es.map e.union, rfl, fun f hf v hv => ?_⟩
      obtain ⟨g, rfl, rfl⟩ := Option.map_eq_some_iff.mp hf
      obtain ⟨t, ht, htv⟩ := member_union.mp hv
      simp only [DomainSet.union, Bool.or_eq_true]
      rcases List.mem_cons.mp ht with rfl | ht
      · exact Or.inl (hb e rfl v htv)
      · exact Or.inr (hb' g rfl v (.union ht htv))

theorem memberDomains_spec {ms : List Schema}
    (h : ∀ s ∈ ms, ∃ ds, s.domainsWith follow = .ok ds ∧ BoundedBy env exact s ds) :
    ∃ l, memberDomains follow ms = .ok l ∧ ∀ e, some e ∈ l → ∀ v, Member env exact (.intersection ms) v →
      e v.domain = true := by
  induction ms with
  | nil => exact ⟨[], rfl, by simp⟩
  | cons s ms ih =>
    obtain ⟨ds, hds, hb⟩ := h s (by simp)
    obtain ⟨l, hl, hb'⟩ := ih fun t ht => h t (List.mem_cons_of_mem _ ht)
    refine ⟨ds :: l, by simp [memberDomains, hds, hl, bind, Except.bind, pure, Except.pure], ?_⟩
    intro e he v hv
    rw [member_intersection, List.forall_mem_cons] at hv
    rcases List.mem_cons.mp he with he | he
    · exact hb e he.symm v hv.1
    · exact hb' e he v (.intersection hv.2)

theorem domainsWith_spec (h : ∀ r, d.named r → ∃ ds, follow r = .ok ds ∧ BoundedBy env exact (.ref r) ds)
    (s : Schema) (hs : s.Every (Fits d)) :
    ∃ ds, s.domainsWith follow = .ok ds ∧ BoundedBy env exact s ds := by
  induction s using induction_on_parts with
  | _ s ih =>
    have ih : ∀ t ∈ s.parts, ∃ ds, t.domainsWith follow = .ok ds ∧ BoundedBy env exact t ds :=
      fun t ht => ih t ht (hs.part ht)
    cases s with
    | keyword k =>
      refine ⟨some k.domains, rfl, fun e he v hv => ?_⟩
      rw [← Option.some.inj he]
      exact Keyword.domains_of_holds (member_keyword.mp hv)
    | literal w =>
      refine ⟨some (.of [w.domain]), rfl, fun e he v hv => ?_⟩
      rw [← Option.some.inj he, (member_literal.mp hv).1]
      simp [DomainSet.of]
    | constrained s cs =>
      obtain ⟨ds, hds, hb⟩ := ih s (by simp [parts])
      exact ⟨ds, hds, fun e he v hv => hb e he v (member_constrained.mp hv).1⟩
    | union bs => exact unionDomains_spec ih
    | intersection ms =>
      obtain ⟨l, hl, hb⟩ := memberDomains_spec fun t (ht : t ∈ ms) => ih t ht
      refine ⟨meetKnown l, by simp [domainsWith, hl, bind, Except.bind, pure, Except.pure], ?_⟩
      exact fun e he v hv => meetKnown_holds (fun f hf => hb f hf v hv) e he
    | ref r => exact h r hs.root
    | object o =>
      refine ⟨_, rfl, fun e he v hv => ?_⟩
      obtain ⟨es, hes⟩ := fields_of_member hv
      obtain ⟨raw, hraw⟩ := Value.entries_of_fields hes
      rw [← Option.some.inj he, Value.domain_of_entries hraw]
      rfl
    | tuple es =>
      refine ⟨_, rfl, fun e he v hv => ?_⟩
      obtain ⟨q, items, hi⟩ := items_of_member hv
      rw [← Option.some.inj he, Value.domain_of_items hi]
      rfl

end Follow

end Schema

namespace Env

variable {env : Env} {exact : Bool} {d : Dialect}

theorem domainsWithin_spec (hg : env.Grounded d) (fuel : Nat) (seen : List Ref) {s : Schema}
    (hs : s.Every (Schema.Fits d)) :
    ∃ ds, env.domainsWithin fuel seen s = .ok ds ∧ Schema.BoundedBy env exact s ds := by
  induction fuel generalizing seen s with
  | zero => exact Schema.domainsWith_spec (fun r _ => ⟨none, rfl, fun e he => by simp at he⟩) s hs
  | succ fuel ih =>
    refine Schema.domainsWith_spec (fun r hr => ?_) s hs
    split_ifs
    · exact ⟨none, rfl, fun e he => by simp at he⟩
    · obtain ⟨t, ht, hres, -, hfit⟩ := hg.resolve? hr
      obtain ⟨ds, hds, hb⟩ := ih (r :: seen) hfit
      refine ⟨ds, by simp [ht, hds, bind, Except.bind], fun e he v hv => ?_⟩
      exact hb e he v ((Schema.member_ref hres).mp hv)

/-- The domains of a schema can be told, and bound its values. -/
theorem domains?_spec (hg : env.Grounded d) (exact : Bool) {s : Schema} (hs : s.Every (Schema.Fits d)) :
    ∃ ds, env.domains? s = .ok ds ∧ Schema.BoundedBy env exact s ds := domainsWithin_spec hg _ _ hs

end Env
end Schemata
