import Schemata.Proofs.Schema.Domains
import Schemata.Proofs.Validation.Keys

/-! What an accepted value says of its output and of its domain. Only containers are rebuilt, and the domains of a
schema hold whatever it accepts. -/
namespace Schemata

namespace Schema

/-- A single node of a schema that is written out: no reference, no lazy conjunction, and values in it are well
formed. -/
def WrittenOut : Schema → Prop
  | .intersection _ => False
  | s => s.KeyNode False

theorem WrittenOut.keyNode {s : Schema} (h : s.WrittenOut) : s.KeyNode False := by
  cases s <;> first | exact h | exact trivial

end Schema

namespace Env

variable {env : Env} {config : Config} {s : Schema} {v w : Value}

theorem accepts_literal : env.accepts config (.literal w) v = .ok true ↔
    v.domain = w.domain ∧ w.literalEqual v = true := by
  rw [accepts_iff, check_eq, Schema.checkWith]
  unfold Check.Takes Check.literal
  split_ifs with h
  · simp [h, Outcome.pass, Outcome.isOk]
  · simp [h, Outcome.fail, Outcome.isOk]

theorem accepts_of_run {o : Outcome} (h : env.run config s v = .ok o) : env.accepts config s v = .ok o.isOk := by
  rw [accepts, h]
  rfl

/-- A branch that accepts the value puts out what the union puts out. -/
theorem run_of_union {bs : List Schema} {o : Outcome} (h : env.run config (.union bs) v = .ok o) (hok : o.isOk = true) :
    ∃ s ∈ bs, env.run config s v = .ok o := by
  rw [run, check_eq, Schema.checkWith, Schema.branchChecks_eq] at h
  obtain ⟨b, hb, hrun⟩ := Check.union_ok h hok
  obtain ⟨s, hs, rfl⟩ := List.mem_map.mp hb
  refine ⟨s, hs, ?_⟩
  rw [run, check_eq]
  exact hrun

/-- Constraints change nothing in what their base puts out. -/
theorem run_of_constrained {cs : List Constraint} {o : Outcome} (h : env.run config (.constrained s cs) v = .ok o)
    (hok : o.isOk = true) : ∃ p, env.run config s v = .ok p ∧ p.isOk = true ∧ p.output = o.output := by
  rw [run, check_eq, Schema.checkWith] at h
  refine ⟨o, ?_, hok, rfl⟩
  rw [run, check_eq]
  exact (Check.constrained_ok h hok).1

/-- What is put out of an accepted value is the value itself, or one container for another. -/
theorem output_of_run (hs : s.Every Schema.WrittenOut) {o : Outcome} (h : env.run config s v = .ok o)
    (hok : o.isOk = true) : o.output = v ∨ v.isScalar = false ∧ o.output.isScalar = false := by
  induction s using Schema.induction_on_parts generalizing o with
  | _ s ih =>
    cases s with
    | keyword k =>
      rw [run, check_eq] at h
      exact Or.inl (by rw [← Except.ok.inj h])
    | literal w =>
      rw [run, check_eq, Schema.checkWith] at h
      obtain ⟨rfl, -⟩ := Check.literal_ok h hok
      exact Or.inl rfl
    | constrained s cs =>
      obtain ⟨p, hp, hpok, hout⟩ := run_of_constrained h hok
      rw [← hout]
      exact ih s (by simp [Schema.parts]) hs.base hp hpok
    | union bs =>
      obtain ⟨t, ht, hrun⟩ := run_of_union h hok
      exact ih t ht (hs.branch ht) hrun hok
    | intersection ms => exact hs.root.elim
    | ref r => exact hs.root.elim
    | object shape =>
      rw [run, check_object] at h
      obtain ⟨raw, _, _, hraw, -, -, -, -, -, rfl⟩ := Check.object_ok h hok
      refine Or.inr ⟨?_, rfl⟩
      rw [Bool.eq_false_iff]
      intro hscalar
      simp [Value.entries_of_scalar hscalar] at hraw
    | tuple es =>
      rw [run, check_eq, Schema.checkWith] at h
      obtain ⟨q, items, _, hi, -, -, -, rfl⟩ := Check.tuple_ok h hok
      refine Or.inr ⟨?_, by cases q <;> rfl⟩
      rw [Bool.eq_false_iff]
      intro hscalar
      simp [Value.items_of_scalar hscalar] at hi

end Env

namespace Schema

variable {env : Env} {config : Config} {s : Schema} {v : Value} {follow : Ref → Except Fault (Option DomainSet)}

/-- The domains of a union hold those of its branches. -/
theorem unionDomains_branch {bs : List Schema} {d : DomainSet} (h : unionDomains follow bs = .ok (some d)) {t : Schema}
    (ht : t ∈ bs) : ∃ e, t.domainsWith follow = .ok (some e) ∧ ∀ x, e x = true → d x = true := by
  induction bs generalizing d with
  | nil => simp at ht
  | cons s bs ih =>
    obtain ⟨ds, hs, h⟩ := bind_ok h
    cases ds with
    | none => exact absurd h nofun
    | some e =>
      obtain ⟨rest, hrest, h⟩ := bind_ok h
      obtain ⟨f, rfl, rfl⟩ := Option.map_eq_some_iff.mp (Except.ok.inj h)
      rcases List.mem_cons.mp ht with rfl | ht
      · exact ⟨e, hs, fun x hx => by simp [DomainSet.union, hx]⟩
      · obtain ⟨g, hg, hle⟩ := ih hrest ht
        exact ⟨g, hg, fun x hx => by simp [DomainSet.union, hle x hx]⟩

/-- An accepted value lies in the domains of the schema, when they are known. -/
theorem domain_of_accepts (hs : s.Every WrittenOut) {d : DomainSet} (hd : s.domainsWith follow = .ok (some d))
    (h : env.accepts config s v = .ok true) : d v.domain = true := by
  induction s using induction_on_parts generalizing d with
  | _ s ih =>
    cases s with
    | keyword k =>
      obtain rfl := Option.some.inj (Except.ok.inj hd)
      rw [Env.accepts_keyword] at h
      exact Keyword.domains_of_holds (Except.ok.inj h)
    | literal w =>
      obtain rfl := Option.some.inj (Except.ok.inj hd)
      simp [DomainSet.of, (Env.accepts_literal.mp h).1]
    | constrained s cs =>
      obtain ⟨o, ho, hok, -⟩ := Env.accepts_constrained.mp h
      refine ih s (by simp [parts]) hs.base hd ?_
      rw [Env.accepts_of_run ho, hok]
    | union bs =>
      obtain ⟨t, ht, hacc⟩ := Env.accepts_of_union h
      obtain ⟨e, he, hle⟩ := unionDomains_branch hd ht
      exact hle _ (ih t ht (hs.branch ht) he hacc)
    | intersection ms => exact hs.root.elim
    | ref r => exact hs.root.elim
    | object o =>
      obtain rfl := Option.some.inj (Except.ok.inj hd)
      obtain ⟨es, hf, -⟩ := Env.accepts_object.mp h
      obtain ⟨raw, hraw⟩ := Value.entries_of_fields hf
      rw [Value.domain_of_entries hraw]
      rfl
    | tuple es =>
      obtain rfl := Option.some.inj (Except.ok.inj hd)
      obtain ⟨q, items, hi, -⟩ := Env.places_of_accepts h
      rw [Value.domain_of_items hi]
      rfl

end Schema

end Schemata
