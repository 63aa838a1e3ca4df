import Schemata.Proofs.Algebra.Faults
import Schemata.Proofs.History
import Schemata.Proofs.Schema.Subterms

/-! Sessions whose schemas can be used: those that the arenas hold, those that the memo recalls and those that a batch
still has to check. The operations of a session leave it so, and stop with foreseen errors only. -/
namespace Schemata

/-- The errors that operations on usable schemas may stop with. A name is left that was not looked behind only if some
names lead back to themselves (`looped`); data cannot be part of a key only if some was `quoted` that may change; and
there is no configuration only if it is `unset`. -/
def Fault.Foreseen (quoted unset looped : Prop) : Fault → Prop
  | .schema e => e.isUnended = true → looped
  | .unhashable _ => quoted
  | .config _ => unset
  | _ => False

variable {quoted unset looped : Prop}

theorem Fault.Foreseen.expected : Expected quoted (Fault.Foreseen quoted unset looped) :=
  ⟨fun _ he h => absurd h (by simp [he]), fun h _ => h⟩

theorem Fault.Foreseen.mono {unset' looped' : Prop} {e : Fault} (h : e.Foreseen quoted unset looped)
    (hunset : unset → unset') (hlooped : looped → looped') : e.Foreseen quoted unset' looped' := by
  cases e with
  | schema e => exact fun he => hlooped (h he)
  | config issues => exact hunset h
  | _ => exact h

/-- What the check works on can be used. -/
def DeferredCheck.Usable (quoted : Prop) : DeferredCheck → Prop
  | .intersection a b => a.Usable quoted ∧ b.Usable quoted
  | .overlap shape index => (∀ p ∈ shape.properties, p.value.Usable quoted) ∧ index.key.Usable quoted ∧
      index.value.Usable quoted

namespace Session

/-- What the arenas hold and the memo recalls can be used, and so can what waits to be checked. -/
structure Usable (quoted : Prop) (s : Session) : Prop where
  stored : ∀ a ∈ s.arenas, ∀ t, some t ∈ a.slots → t.Usable quoted
  memo : s.memo.Holds (fun _ => True) fun _ r =>
    Ends r (Schema.Usable quoted) fun e => ∃ x : SchemaError, e = .schema x ∧ x.isUnended = false
  waiting : ∀ e ∈ s.scopes, ∀ checks, e.2.waiting = some checks → ∀ c ∈ checks, c.Usable quoted

variable {s s₀ : Session} {scope : Option Nat}

/-- A configuration can be had, or not having one is foreseen. -/
def Sets (unset : Prop) (s : Session) (scope : Option Nat) : Prop := ∀ e, s.configOf scope = .error e → unset

theorem Sets.configOf (h : s.Sets unset scope) :
    Ends (s.configOf scope) (fun _ => True) (Fault.Foreseen quoted unset looped) := by
  have hends := s.configOf_ends scope
  cases hconfig : s.configOf scope with
  | ok c => trivial
  | error e =>
    rw [hconfig] at hends
    obtain ⟨issues, rfl⟩ := hends
    exact h _ hconfig

theorem Usable.env (h : s.Usable quoted) (hset : s.Sets unset scope) :
    (s.env scope).Usable quoted (Fault.Foreseen quoted unset looped) := by
  refine ⟨fun r t ht => ?_, hset.configOf⟩
  unfold Env.target at ht
  split at ht
  · rename_i a ha
    unfold Arena.target at ht
    split at ht
    · rename_i u hu
      obtain rfl := Target.filled.inj ht
      exact h.stored a (List.mem_of_find?_eq_some ha) u (List.mem_of_getElem? hu)
    · cases ht
  · cases ht

theorem Usable.recalls (h : s.Usable quoted) {memo : Memo DerivedKey (Except Fault Schema)}
    (hmemo : memo.Holds (fun _ => True) fun _ r =>
      Ends r (Schema.Usable quoted) fun e => ∃ x : SchemaError, e = .schema x ∧ x.isUnended = false) :
    { s with memo := memo }.Usable quoted := ⟨h.stored, hmemo, h.waiting⟩

theorem Usable.setScope (h : s.Usable quoted) {id : Nat} {sc : Scope}
    (hwaiting : ∀ checks, sc.waiting = some checks → ∀ c ∈ checks, c.Usable quoted) : (s.setScope id sc).Usable quoted := by
  refine ⟨h.stored, h.memo, fun e he => ?_⟩
  obtain ⟨f, hf, rfl⟩ := List.mem_map.mp he
  split_ifs
  · exact hwaiting
  · exact h.waiting f hf

theorem mem_of_scope? {id : Nat} {sc : Scope} (h : s.scope? id = some sc) : ∃ e ∈ s.scopes, e.2 = sc := by
  unfold scope? at h
  rw [List.lookup_eq_some_iff] at h
  obtain ⟨before, behind, heq, -⟩ := h
  exact ⟨(id, sc), by simp [heq], rfl⟩

/-- A configuration can be had and no names lead back to themselves, or else that is foreseen. -/
structure Foresees (unset looped : Prop) (s : Session) (scope : Option Nat) : Prop where
  sets : s.Sets unset scope
  loops : (s.env scope).Loops → looped

/-- Sessions with the environments of `s₀` and usable schemas. -/
def Near (quoted : Prop) (s₀ s : Session) : Prop := s₀.Agrees s ∧ s.Usable quoted

end Session

namespace Engine

variable {α : Type} {s₀ : Session} {scope : Option Nat} {a b : Schema} {P : α → Prop} {Q : Fault → Prop}

/-- What leaves a session near every one that it runs from leaves a usable session. -/
theorem Runs.usable {x : Engine α} (h : ∀ s₀, Runs (Session.Near quoted s₀) x P Q) :
    Runs (Session.Usable quoted) x P Q := fun s hs => by
  obtain ⟨hends, -, hkeeps⟩ := h s s ⟨fun _ => rfl, hs⟩
  exact ⟨hends, hkeeps⟩

theorem discard_runs {I : Session → Prop} {x : Engine α} (h : Runs I x P Q) :
    Runs I (Functor.discard x) (fun _ => True) Q := by
  intro s hs
  obtain ⟨hends, hkind⟩ := h s hs
  rw [discard_run]
  exact ⟨hends.map fun _ _ => trivial, hkind⟩

/-- A derivation recalls a usable schema or works one out. -/
theorem derive_usable {key : DerivedKey} {work : Unit → Except Fault Schema × Bool}
    (hwork : Ends (work ()).1 (Schema.Usable quoted) (Fault.Foreseen quoted unset False)) :
    Runs (Session.Near quoted s₀) (derive key work) (fun r => r.1.Usable quoted) (Fault.Foreseen quoted unset False) := by
  rintro s ⟨hagrees, hs⟩
  have hrequest : (s.memo.request key).1.Holds _ _ := hs.memo.request trivial
  rcases derive_run key work s with ⟨r, hknown, hrun⟩ | ⟨memo, hrun, hmemo⟩
  · rw [hrun]
    obtain ⟨e, he, -, houtcome⟩ := Memo.entry_of_known hknown
    refine ⟨Ends.map (((hs.memo e he).2 r houtcome).mono (fun _ h => h) ?_) fun c hc => hc, hagrees, hs.recalls hrequest⟩
    rintro _ ⟨x, rfl, hx⟩
    exact fun h => by simp [hx] at h
  · rw [hrun]
    refine ⟨hwork.map fun c hc => hc, hagrees, hs.recalls ?_⟩
    rcases hmemo with rfl | ⟨keep, rfl, hkept⟩
    · exact hs.memo
    · refine hrequest.settle fun hkeep _ _ _ => ?_
      cases houtcome : (work ()).1 with
      | ok c =>
        rw [houtcome] at hwork
        exact hwork
      | error e =>
        rw [houtcome] at hwork
        cases e with
        | schema x => exact ⟨x, rfl, Bool.eq_false_iff.mpr hwork⟩
        | _ => cases hkept hkeep _ houtcome

theorem defer_usable (scope : Option Nat) {check : DeferredCheck} (hcheck : check.Usable quoted) :
    Runs (Session.Near quoted s₀) (defer scope check) (fun _ => True) Q := by
  rintro s ⟨hagrees, hs⟩
  have hkeeps := (defer_keeps scope check s).1
  obtain ⟨put, t, hrun⟩ := run_defer scope check s
  refine ⟨by rw [hrun]; trivial, hagrees.trans hkeeps, ?_⟩
  unfold defer
  rw [run_bind, run_get]
  cases scope with
  | none => exact hs
  | some id =>
    dsimp only
    cases hscope : s.scope? id with
    | none => exact hs
    | some sc =>
      obtain ⟨config, frozen, waiting⟩ := sc
      cases waiting with
      | none => exact hs
      | some waiting =>
        refine hs.setScope fun checks hchecks => ?_
        obtain rfl : waiting ++ [check] = checks := Option.some.inj hchecks
        obtain ⟨e, he, hsc⟩ := Session.mem_of_scope? hscope
        exact List.forall_mem_append.mpr ⟨hs.waiting e he waiting (by simp [hsc]), by simpa using hcheck⟩

section Operations

variable (hset : s₀.Sets unset scope)
include hset

/-- In all these sessions the environment of the scope is that of `s₀`, and what it leads to can be used. -/
theorem Runs.usable_env : Runs (Session.Near quoted s₀) (Engine.env scope)
    (fun e => e = s₀.env scope ∧ ∀ looped, e.Usable quoted (Fault.Foreseen quoted unset looped)) Q := by
  rintro s ⟨hagrees, hs⟩
  have hset' : s.Sets unset scope := fun e he => hset e ((congrArg Env.trial (hagrees scope)).symm.trans he)
  exact ⟨⟨hagrees scope, fun _ => hs.env hset'⟩, hagrees, hs⟩

theorem intersection_usable (ha : a.Usable quoted) (hb : b.Usable quoted) :
    Runs (Session.Near quoted s₀) (intersection scope a b) (Schema.Usable quoted)
      (Fault.Foreseen quoted unset looped) := by
  refine (Runs.usable_env hset).bind fun e he => Runs.bind (P := fun r => r.1.Usable quoted) ?_ fun answer hanswer => ?_
  · exact (derive_usable (Env.intersect_ends Fault.Foreseen.expected (he.2 _) ha hb)).mono (fun _ h => h) fun _ h =>
      h.mono id False.elim
  · obtain ⟨c, deferred⟩ := answer
    cases deferred with
    | false => exact .pure hanswer
    | true =>
      have hcheck : (DeferredCheck.intersection a b).Usable quoted := ⟨ha, hb⟩
      exact (discard_runs (defer_usable scope hcheck)).bind fun _ _ => .pure hanswer

theorem meetAll_usable {s : Schema} {ss : List Schema} (hs : s.Usable quoted) (hss : ∀ t ∈ ss, t.Usable quoted) :
    Runs (Session.Near quoted s₀) (meetAll scope s ss) (Schema.Usable quoted) (Fault.Foreseen quoted unset looped) := by
  induction ss generalizing s with
  | nil => exact .pure hs
  | cons t ss ih =>
    obtain ⟨ht, hss⟩ := List.forall_mem_cons.mp hss
    exact (intersection_usable hset hs ht).bind fun c hc => ih hc hss

theorem union_usable {ss : List Schema} (hss : ∀ t ∈ ss, t.Usable quoted) :
    Runs (Session.Near quoted s₀) (union scope ss) (Schema.Usable quoted) (Fault.Foreseen quoted unset looped) :=
  (Runs.usable_env hset).bind fun _ he => .lift (Env.union_ends Fault.Foreseen.expected (he.2 _) hss)

theorem warnOverlaps_usable {index : IndexSignature Schema} {ps : List (Property Schema)}
    (hkey : index.key.Usable quoted) (hvalue : index.value.Usable quoted) (hps : ∀ p ∈ ps, p.value.Usable quoted) :
    Runs (Session.Near quoted s₀) (warnOverlaps scope index ps) (fun _ => True)
      (Fault.Foreseen quoted unset looped) := by
  induction ps with
  | nil => exact .pure trivial
  | cons p ps ih =>
    obtain ⟨hp, hps⟩ := List.forall_mem_cons.mp hps
    unfold warnOverlaps
    refine (Runs.usable_env hset).bind fun e he => ?_
    refine Runs.bind (.lift (Env.admits_ends Fault.Foreseen.expected (he.2 _) hkey _)) fun taken _ => ?_
    cases taken with
    | false => exact ih hps
    | true =>
      refine Runs.bind (.lift (Env.isSubset_ends Fault.Foreseen.expected (he.2 _) hp hvalue)) fun below _ => ?_
      cases below with
      | true => exact ih hps
      | false =>
        exact Runs.bind (.modify fun _ hs => ⟨hs.1, hs.2.stored, hs.2.memo, hs.2.waiting⟩) fun _ _ => ih hps

theorem buildObject_usable {o : ObjectShape Schema} (ho : (Schema.object o).Usable quoted) :
    Runs (Session.Near quoted s₀) (buildObject scope o) (Schema.Usable quoted)
      (Fault.Foreseen quoted unset looped) := by
  obtain ⟨hproperties, hindex⟩ := Schema.usable_object.mp ho
  unfold buildObject
  refine (Runs.usable_env hset).bind fun e he => ?_
  refine Runs.bind (.lift (Env.makeObject_usable Fault.Foreseen.expected (he.2 _) ho)) fun s hs => ?_
  cases hi : o.index with
  | none => exact .pure hs
  | some index =>
    obtain ⟨hkey, hvalue⟩ := hindex index hi
    have hvalues : ∀ p ∈ o.properties, p.value.Usable quoted := fun p hp => (hproperties p hp).value
    have hcheck : (DeferredCheck.overlap o index).Usable quoted := ⟨hvalues, hkey, hvalue⟩
    refine (defer_usable scope hcheck).bind fun waits _ => ?_
    cases waits with
    | true => exact .pure hs
    | false => exact (warnOverlaps_usable hset hkey hvalue hvalues).bind fun _ _ => .pure hs

theorem runAllDeferred_usable {checks : List DeferredCheck} (h : ∀ c ∈ checks, c.Usable quoted) :
    Runs (Session.Near quoted s₀) (runAllDeferred scope checks) (fun _ => True)
      (Fault.Foreseen quoted unset looped) := by
  induction checks with
  | nil => exact .pure trivial
  | cons c checks ih =>
    obtain ⟨hc, hchecks⟩ := List.forall_mem_cons.mp h
    refine Runs.bind (P := fun _ => True) ?_ fun _ _ => ih hchecks
    cases c with
    | intersection a b => exact discard_runs (intersection_usable hset hc.1 hc.2)
    | overlap shape index => exact warnOverlaps_usable hset hc.2.1 hc.2.2 hc.1

end Operations

end Engine
end Schemata
