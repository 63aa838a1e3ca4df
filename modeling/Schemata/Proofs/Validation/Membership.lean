import Schemata.Proofs.Runs
import Schemata.Proofs.Validation.Agreement

/-! Validation through references. A reference is followed once for every level of nesting, and on an acyclic
value no reference is met again before a level is left. -/
namespace Schemata

/-- Only containers belong to objects and tuples, and containers nest. -/
theorem Schema.Member.depth_pos {env : Env} {exact : Bool} {s : Schema} {v : Value} (hs : s.isStructure = true)
    (h : s.Member env exact v) (hv : v.Acyclic) : 0 < v.depth := by
  have hunfold := hv.unfold_eq
  cases h with
  | object hf _ _ _ =>
    obtain ⟨raw, hraw⟩ := Value.entries_of_fields hf
    rw [Value.entries?, hunfold] at hraw
    cases v <;> simp [Value.depth] at hraw ⊢
  | tuple hi _ _ =>
    rw [Value.items?, hunfold] at hi
    cases v <;> simp [Value.depth] at hi ⊢
  | _ => simp [Schema.isStructure] at hs

namespace Visit

variable {d : Dialect} {n : Nat} {visit : Visit} {r : Ref} {v : Value}

/-- A reference may be entered on a ready value, and the schema behind it finds the value's parts ready. -/
theorem enter?_ready (hr : d.named r) (h : visit.Ready d (n + 1) (.ref r) v) {t : Schema}
    (ht : t.isStructure = true) : ∃ inner, visit.enter? r v = some inner ∧ inner.Ready d n t v := by
  have hclear := h.clear rfl ⟨r, hr⟩
  have hchildren := hclear.acyclic.unfold_eq
  unfold enter?
  cases hi : v.identity? with
  | none =>
    have hhere : visit.here.contains (r.arena, r.handle) = false := by simp [h.here rfl]
    refine ⟨_, by simp only [hhere, Bool.false_eq_true, if_false]; rfl, ?_⟩
    refine ⟨fun hs => by simp [ht] at hs, fun hs => by simp [ht] at hs, fun _ _ c hc => ?_⟩
    rw [hchildren] at hc
    exact hclear.child hc
  | some i =>
    have haround : visit.around.contains ((r.arena, r.handle), i) = false := by
      rw [List.contains_eq_mem, decide_eq_false_iff_not]
      intro hmem
      exact (hclear.identities i (List.mem_map_of_mem hmem)).here hi
    refine ⟨_, by simp only [haround, Bool.false_eq_true, if_false]; rfl, ?_⟩
    refine ⟨fun hs => by simp [ht] at hs, fun hs => by simp [ht] at hs, fun _ _ c hc => ?_⟩
    rw [hchildren] at hc
    have hchild := hclear.child hc
    refine ⟨hchild.acyclic, hchild.depth, fun j hj => ?_⟩
    rcases List.mem_cons.mp hj with rfl | hj
    · exact hclear.acyclic.identity hi hc
    · exact hchild.identities j hj

end Visit

namespace Env

variable {env : Env} {config : Config} {d : Dialect}

/-- Validation answers whatever the value is. -/
theorem checkWithin_total (hg : env.Grounded d) (n : Nat) {s : Schema} (hs : s.Every (Schema.Fits d)) :
    (env.checkWithin config n s).Total := by
  induction n generalizing s with
  | zero => exact Schema.checkWith_total hg (fun r _ _ v => ⟨_, rfl⟩) s hs
  | succ n ih =>
    refine Schema.checkWith_total hg (fun r hr visit v => ?_) s hs
    obtain ⟨t, ht, -, hfit⟩ := hg.resolve hr
    simp only [ht, bind, Except.bind]
    cases visit.enter? r v with
    | none => exact ⟨_, rfl⟩
    | some inner => exact ih hfit inner v

theorem checkWithin_agrees (hg : env.Grounded d) (he : d.lazy → config.exactOptional = true) (n : Nat)
    {s : Schema} (hs : s.Every (Schema.Fits d)) :
    (env.checkWithin config n s).Agrees env config.exactOptional d n s := by
  induction n generalizing s with
  | zero =>
    refine Schema.checkWith_agrees hg he (fun r _ _ v => ⟨_, rfl⟩) (fun r hr visit v hready => ?_) s hs
    refine ⟨fun h => by simp [Check.outcome, Outcome.isOk, Outcome.fail] at h, fun hmem _ => ?_⟩
    obtain ⟨t, ht, hstructure, -⟩ := hg.resolve hr
    have hclear := hready.clear rfl ⟨r, hr⟩
    have hpos := ((Schema.member_ref ht).mp hmem).depth_pos hstructure hclear.acyclic
    have := hclear.depth
    omega
  | succ n ih =>
    refine Schema.checkWith_agrees hg he (fun r hr visit v => ?_) (fun r hr visit v hready => ?_) s hs
    · obtain ⟨t, ht, -, hfit⟩ := hg.resolve hr
      simp only [ht, bind, Except.bind]
      cases visit.enter? r v with
      | none => exact ⟨_, rfl⟩
      | some inner => exact checkWithin_total hg n hfit inner v
    · obtain ⟨t, ht, hstructure, hfit⟩ := hg.resolve hr
      obtain ⟨inner, hinner, hready'⟩ := Visit.enter?_ready hr hready hstructure
      have hout := ih hfit inner v hready'
      rw [Schema.member_ref ht]
      simp only [Check.outcome, ht, bind, Except.bind, hinner] at hout ⊢
      exact hout

theorem run_ready (hv : d.Follows → v.Acyclic ∧ v.depth ≤ n) (s : Schema) : Visit.root.Ready d n s v :=
  .of_clear rfl (fun hd => ⟨(hv hd).1, (hv hd).2, fun i hi => by simp [Visit.root, Visit.identities] at hi⟩) s

variable {s : Schema} {v : Value}

/-- Validation accepts only members. -/
theorem member_of_accepts (hg : env.Grounded d) (he : d.lazy → config.exactOptional = true)
    (hs : s.Every (Schema.Fits d)) (hv : d.Follows → v.Acyclic ∧ v.depth ≤ config.maxDepth)
    (h : env.accepts config s v = .ok true) : s.Member env config.exactOptional v := by
  have htotal : (env.checkWithin config config.maxDepth s).Total := checkWithin_total hg config.maxDepth hs
  have hrun := htotal.eq .root v
  simp only [accepts, run, check, hrun, Except.map, Except.ok.injEq] at h
  exact ((checkWithin_agrees hg he config.maxDepth hs .root v (run_ready hv s)).1 h).1

/-- Validation tells members from other values. -/
theorem accepts_decides (hg : env.Grounded d) (he : d.lazy → config.exactOptional = true)
    (hs : s.Every (Schema.Fits d)) (hv : d.Follows → v.Acyclic ∧ v.depth ≤ config.maxDepth)
    (hm : d.lazy → v.MarkerFree) :
    Decides (env.accepts config s v) (s.Member env config.exactOptional v) := by
  have htotal : (env.checkWithin config config.maxDepth s).Total := checkWithin_total hg config.maxDepth hs
  have hrun := htotal.eq .root v
  obtain ⟨hsound, hcomplete⟩ := checkWithin_agrees hg he config.maxDepth hs .root v (run_ready hv s)
  refine ⟨_, ?_, fun h => (hsound h).1, fun h => hcomplete h hm⟩
  simp only [accepts, run, check, hrun, Except.map]

end Env
end Schemata
