import Mathlib.Tactic.SplitIfs
import Schemata.Proofs.Session

/-! Calls that use the memo, one after the other. What the memo keeps of an intersection was worked out for
schemas that equal those of its key. -/
namespace Schemata

namespace Memo

variable {κ ρ : Type} {K : κ → Prop} {R : κ → ρ → Prop} {m : Memo κ ρ} {key : κ}

/-- Every entry has a key of one kind, and an outcome that goes with the key, if it has one. -/
def Holds (K : κ → Prop) (R : κ → ρ → Prop) (m : Memo κ ρ) : Prop :=
  ∀ e ∈ m.entries, K e.key ∧ ∀ r, e.outcome = some r → R e.key r

theorem dropSettled_subset (excess : Nat) (es : List (MemoEntry κ ρ)) : dropSettled excess es ⊆ es := by
  induction es generalizing excess with
  | nil => cases excess <;> exact List.Subset.refl _
  | cons e es ih =>
    cases excess with
    | zero => exact List.Subset.refl _
    | succ excess =>
      unfold dropSettled
      split_ifs
      · exact List.subset_cons_of_subset _ (ih excess)
      · exact List.cons_subset_cons _ (ih (excess + 1))

theorem evict_subset (m : Memo κ ρ) : m.evict.entries ⊆ m.entries := by
  unfold evict
  cases m.capacity with
  | none => exact List.Subset.refl _
  | some capacity => exact dropSettled_subset _ _

variable [BEq κ]

theorem Holds.request (h : m.Holds K R) (hkey : K key) : (m.request key).1.Holds K R := by
  unfold Memo.request
  cases hfind : m.find? key with
  | some e =>
    refine fun f hf => h f ?_
    rcases List.mem_append.mp hf with hf | hf
    · exact (List.mem_filter.mp hf).1
    · rw [List.mem_singleton.mp hf]
      exact List.mem_of_find?_eq_some hfind
  | none =>
    intro f hf
    rcases List.mem_append.mp (evict_subset _ hf) with hf | hf
    · exact h f hf
    · rw [List.mem_singleton.mp hf]
      exact ⟨hkey, nofun⟩

/-- An outcome is kept under every key of its kind that equals the one it was worked out for. -/
theorem Holds.settle {outcome : ρ} {keep : Bool} (h : m.Holds K R)
    (hkeep : keep = true → ∀ k, K k → (k == key) = true → R k outcome) : (m.settle key outcome keep).Holds K R := by
  unfold Memo.settle
  cases keep with
  | true =>
    intro f hf
    obtain ⟨e, he, rfl⟩ := List.mem_map.mp hf
    split_ifs with hequal
    · refine ⟨(h e he).1, fun r hr => ?_⟩
      obtain rfl := Option.some.inj hr
      exact hkeep rfl e.key (h e he).1 hequal
    · exact h e he
  | false => exact fun f hf => h f (List.mem_filter.mp hf).1

theorem entry_of_known {r : ρ} (h : (m.request key).2 = .known r) :
    ∃ e ∈ m.entries, (e.key == key) = true ∧ e.outcome = some r := by
  unfold request at h
  cases hfind : m.find? key with
  | none => simp [hfind] at h
  | some e =>
    refine ⟨e, List.mem_of_find?_eq_some hfind, by simpa using List.find?_some hfind, ?_⟩
    cases ho : e.outcome with
    | none => simp [hfind, ho] at h
    | some r' => simpa [hfind, ho] using h

end Memo

/-- A call that may use the memo. -/
inductive Call where
  | intersection (scope : Option Nat) (a b : Schema)
  | merge (scope : Option Nat) (base : Schema) (overrides : Overrides)

namespace Call

def run : Call → Engine Schema
  | .intersection scope a b => Engine.intersection scope a b
  | .merge scope base overrides => Engine.merge scope base overrides

/-- Intersections are of schemas of one kind, through scopes with one environment. -/
def Fits (s : Session) (env : Env) (P : Schema → Prop) : Call → Prop
  | .intersection scope a b => s.env scope = env ∧ P a ∧ P b
  | .merge _ _ _ => True

end Call

namespace Session

variable {s t : Session} {scope : Option Nat} {env : Env} {P : Schema → Prop} {a b : Schema}

/-- The session after calls, whatever came of them. -/
def after (s : Session) (calls : List Call) : Session := calls.foldl (fun s c => (c.run.run s).2) s

/-- The keys of the memo are of one kind, and what it keeps of an intersection was worked out in the environment
for schemas of that kind that equal those of the key. -/
def Recalls (s : Session) (env : Env) (P : Schema → Prop) : Prop :=
  s.memo.Holds (fun k => ∀ p q, k = .intersection p q → P p ∧ P q) fun k r => ∀ p q, k = .intersection p q →
    ∃ p' q', P p' ∧ P q' ∧ p.same p' = true ∧ q.same q' = true ∧ r = (env.intersect p' q').1

theorem recalls_of_empty (h : s.memo.entries = []) : s.Recalls env P := by
  intro e he
  simp [h] at he

/-- Setting what stands under a number changes nothing that it has in common with what stood there. -/
theorem lookup_set {β γ : Type} {f : β → γ} {id : Nat} {x y : β} {entries : List (Nat × β)}
    (h : entries.lookup id = some x) (hf : f y = f x) (other : Nat) :
    ((entries.map fun e => if e.1 == id then (id, y) else e).lookup other).map f = (entries.lookup other).map f := by
  by_cases hother : other = id
  · rw [hother, h]
    induction entries with
    | nil => simp at h
    | cons e entries ih =>
      by_cases he : e.1 = id
      · simp [he, hf]
      · have hne : (id == e.1) = false := by simpa using fun h => he h.symm
        rw [List.lookup_cons, hne] at h
        rw [List.map_cons, if_neg (by simpa using he), List.lookup_cons, hne]
        exact ih h
  · clear h
    induction entries with
    | nil => rfl
    | cons e entries ih =>
      by_cases he : e.1 = id
      · have hne : (other == id) = false := by simpa using hother
        rw [List.map_cons, if_pos (by simpa using he), List.lookup_cons, List.lookup_cons, he, hne]
        exact ih
      · rw [List.map_cons, if_neg (by simpa using he), List.lookup_cons, List.lookup_cons]
        cases other == e.1 with
        | true => rfl
        | false => exact ih

/-- A scope that keeps its configuration leaves all environments as they are. -/
theorem env_setScope {id : Nat} {sc sc' : Scope} (h : s.scope? id = some sc) (hconfig : sc'.config = sc.config) :
    (s.setScope id sc').env scope = s.env scope := by
  have hscope : ∀ other, ((s.setScope id sc').scope? other).map (·.config) = (s.scope? other).map (·.config) :=
    lookup_set h hconfig
  have hof : (s.setScope id sc').configOf scope = s.configOf scope := by
    unfold configOf
    cases scope with
    | none => rfl
    | some other =>
      have hother := hscope other
      simp only [Option.bind_some]
      cases hs : (s.setScope id sc').scope? other <;> cases ht : s.scope? other <;>
        simp only [hs, ht, Option.map_none, Option.map_some, Option.some.injEq, reduceCtorEq] at hother
      · rfl
      · exact congrArg Except.ok hother
  unfold env
  rw [hof]
  rfl

/-- The sessions have the same environments. -/
def Agrees (s t : Session) : Prop := ∀ scope, t.env scope = s.env scope

end Session

namespace Engine

variable {s : Session} {scope : Option Nat} {P : Schema → Prop} {a b : Schema}

theorem defer_keeps (scope : Option Nat) (check : DeferredCheck) (s : Session) :
    s.Agrees ((defer scope check).run s).2 ∧ ((defer scope check).run s).2.memo = s.memo := by
  unfold defer
  rw [run_bind, run_get]
  cases scope with
  | none => exact ⟨fun _ => rfl, rfl⟩
  | some id =>
    dsimp only
    cases hs : s.scope? id with
    | none => exact ⟨fun _ => rfl, rfl⟩
    | some sc =>
      obtain ⟨c, frozen, waiting⟩ := sc
      cases waiting with
      | none => exact ⟨fun _ => rfl, rfl⟩
      | some waiting => exact ⟨fun _ => Session.env_setScope hs rfl, rfl⟩

/-- What a derivation does: it answers from the memo, or works the answer out and may keep it. Of errors it keeps only
those of schemas. -/
theorem derive_run (key : DerivedKey) (work : Unit → Except Fault Schema × Bool) (s : Session) :
    (∃ r, (s.memo.request key).2 = .known r ∧
      (derive key work).run s = (r.map fun c => (c, false), { s with memo := (s.memo.request key).1 })) ∨
    ∃ memo, (derive key work).run s = ((work ()).1.map fun c => (c, (work ()).2), { s with memo := memo }) ∧
      (memo = s.memo ∨ ∃ keep, memo = (s.memo.request key).1.settle key (work ()).1 keep ∧
        (keep = true → ∀ e, (work ()).1 = .error e → e.isSchemaError = true)) := by
  unfold derive
  by_cases hk : key.changeable?.isSome = true
  · rw [if_pos hk]
    refine Or.inr ⟨s.memo, ?_, Or.inl rfl⟩
    simp only [run_bind, run_lift]
    cases (work ()).1 <;> rfl
  · rw [if_neg hk]
    simp only [run_bind, run_get, run_set]
    cases hrequest : (s.memo.request key).2 with
    | known r =>
      refine Or.inl ⟨r, rfl, ?_⟩
      simp only [run_bind, run_lift]
      cases r <;> rfl
    | underway | fresh =>
      simp only [run_bind, run_modify, run_lift]
      cases (work ()).1 with
      | ok c => exact Or.inr ⟨_, rfl, Or.inr ⟨_, rfl, by simp⟩⟩
      | error e =>
        refine Or.inr ⟨_, rfl, Or.inr ⟨_, rfl, ?_⟩⟩
        rintro hkeep _ ⟨⟩
        exact hkeep

/-- A derivation answers with what the memo keeps under an equal key, or with what it works out. -/
theorem derive_outcome (key : DerivedKey) (work : Unit → Except Fault Schema × Bool) (s : Session) :
    ∃ r, (r = (work ()).1 ∨ ∃ e ∈ s.memo.entries, (e.key == key) = true ∧ e.outcome = some r) ∧
      ((derive key work).run s).1.map Prod.fst = r := by
  rcases derive_run key work s with ⟨r, hknown, hrun⟩ | ⟨memo, hrun, -⟩
  · obtain ⟨e, he, hequal, houtcome⟩ := Memo.entry_of_known hknown
    refine ⟨r, Or.inr ⟨e, he, hequal, houtcome⟩, ?_⟩
    rw [hrun]
    cases r <;> rfl
  · refine ⟨_, Or.inl rfl, ?_⟩
    rw [hrun]
    cases (work ()).1 <;> rfl

/-- A derivation changes the memo only. -/
theorem derive_keeps {K : DerivedKey → Prop} {R : DerivedKey → Except Fault Schema → Prop} (key : DerivedKey)
    (work : Unit → Except Fault Schema × Bool) (h : s.memo.Holds K R) (hkey : K key)
    (hwork : ∀ k, K k → (k == key) = true → R k (work ()).1) :
    s.Agrees ((derive key work).run s).2 ∧ ((derive key work).run s).2.memo.Holds K R := by
  rcases derive_run key work s with ⟨r, -, hrun⟩ | ⟨memo, hrun, rfl | ⟨keep, rfl, -⟩⟩
  · rw [hrun]
    exact ⟨fun _ => rfl, h.request hkey⟩
  · rw [hrun]
    exact ⟨fun _ => rfl, h⟩
  · rw [hrun]
    exact ⟨fun _ => rfl, (h.request hkey).settle fun _ => hwork⟩

theorem discard_run {α : Type} (x : Engine α) (s : Session) :
    (discard x).run s = ((x.run s).1.map fun _ => (), (x.run s).2) := by
  show (((fun _ => ()) <$> x : Engine Unit).run s) = _
  rw [map_eq_pure_bind, run_bind]
  cases x.run s with
  | mk r t => cases r <;> rfl

/-- An intersection answers as its derivation does. What it puts off changes no environment and not the memo. -/
theorem intersection_run (scope : Option Nat) (a b : Schema) (s : Session) :
    let derived := (derive (.intersection a b) fun _ => (s.env scope).intersect a b).run s
    ((intersection scope a b).run s).1 = derived.1.map Prod.fst ∧
      derived.2.Agrees ((intersection scope a b).run s).2 ∧
      ((intersection scope a b).run s).2.memo = derived.2.memo := by
  unfold intersection
  simp only [run_bind, run_env]
  cases (derive (.intersection a b) fun _ => (s.env scope).intersect a b).run s with
  | mk outcome t =>
    cases outcome with
    | error e => exact ⟨rfl, fun _ => rfl, rfl⟩
    | ok answer =>
      obtain ⟨c, deferred⟩ := answer
      cases deferred with
      | false => exact ⟨rfl, fun _ => rfl, rfl⟩
      | true =>
        obtain ⟨put, u, hdefer⟩ := run_defer scope (.intersection a b) t
        have hkeeps := defer_keeps scope (.intersection a b) t
        dsimp only
        rw [if_pos rfl, run_bind, discard_run, hdefer]
        rw [hdefer] at hkeeps
        exact ⟨rfl, hkeeps⟩

section Keeps

variable {K : DerivedKey → Prop} {R : DerivedKey → Except Fault Schema → Prop}

/-- An intersection leaves the environments as they are. The memo keeps what holds of what is worked out. -/
theorem intersection_keeps (h : s.memo.Holds K R) (hkey : K (.intersection a b))
    (hwork : ∀ k, K k → (k == DerivedKey.intersection a b) = true → R k ((s.env scope).intersect a b).1) :
    s.Agrees ((intersection scope a b).run s).2 ∧ ((intersection scope a b).run s).2.memo.Holds K R := by
  obtain ⟨-, hagrees, hmemo⟩ := intersection_run scope a b s
  obtain ⟨hderived, hholds⟩ := derive_keeps (.intersection a b) (fun _ => (s.env scope).intersect a b) h hkey hwork
  exact ⟨fun other => (hagrees other).trans (hderived other), hmemo ▸ hholds⟩

theorem merge_keeps {base : Schema} {overrides : Overrides} (h : s.memo.Holds K R)
    (hkey : ∀ upper, overrides = .object upper → K (.merge base upper))
    (hwork : ∀ upper k, K k → (k == DerivedKey.merge base upper) = true → R k ((s.env scope).merge base overrides)) :
    s.Agrees ((merge scope base overrides).run s).2 ∧ ((merge scope base overrides).run s).2.memo.Holds K R := by
  unfold merge
  simp only [run_bind, run_env]
  cases overrides with
  | object upper =>
    have hkeeps := derive_keeps (.merge base upper) (fun _ => ((s.env scope).merge base (.object upper), false)) h
      (hkey upper rfl) (hwork upper)
    rw [run_bind]
    cases hrun : (derive (.merge base upper) fun _ => ((s.env scope).merge base (.object upper), false)).run s with
    | mk outcome t =>
      rw [hrun] at hkeeps
      cases outcome <;> exact hkeeps
  | mapping entries =>
    dsimp only
    rw [run_lift]
    exact ⟨fun _ => rfl, h⟩
  | other subject =>
    dsimp only
    rw [run_lift]
    exact ⟨fun _ => rfl, h⟩

end Keeps

end Engine

namespace Session

variable {s t : Session} {scope : Option Nat} {env : Env} {P : Schema → Prop} {a b : Schema} {calls : List Call}

theorem Agrees.trans {u : Session} (h : s.Agrees t) (h' : t.Agrees u) : s.Agrees u := fun scope =>
  (h' scope).trans (h scope)

theorem same_intersection {k : DerivedKey} (h : (k == DerivedKey.intersection a b) = true) :
    ∃ p q, k = .intersection p q ∧ p.same a = true ∧ q.same b = true := by
  cases k with
  | intersection p q => exact ⟨p, q, rfl, by simpa [BEq.beq, DerivedKey.same] using h⟩
  | merge base upper => exact absurd h Bool.false_ne_true

/-- One more call leaves the environments as they are, and the memo recalls what it should. -/
theorem Recalls.call (h : s.Recalls env P) {call : Call} (hcall : call.Fits s env P) :
    s.Agrees (call.run.run s).2 ∧ (call.run.run s).2.Recalls env P := by
  cases call with
  | intersection scope a b =>
    obtain ⟨rfl, ha, hb⟩ := hcall
    refine Engine.intersection_keeps h ?_ ?_
    · rintro p q ⟨⟩
      exact ⟨ha, hb⟩
    · rintro k - hk p q rfl
      obtain ⟨p', q', heq, hp, hq⟩ := same_intersection hk
      obtain ⟨rfl, rfl⟩ := DerivedKey.intersection.inj heq
      exact ⟨a, b, ha, hb, hp, hq, rfl⟩
  | merge scope base overrides =>
    refine Engine.merge_keeps h nofun ?_
    rintro upper k - hk p q rfl
    exact absurd hk Bool.false_ne_true

theorem Call.Fits.of_agrees {call : Call} (h : call.Fits s env P) (hst : s.Agrees t) : call.Fits t env P := by
  cases call with
  | intersection scope a b => exact ⟨(hst scope).trans h.1, h.2⟩
  | merge scope base overrides => trivial

/-- After any calls the environments are as they were, and the memo recalls what it should. -/
theorem Recalls.after (h : s.Recalls env P) (hcalls : ∀ c ∈ calls, c.Fits s env P) :
    s.Agrees (s.after calls) ∧ (s.after calls).Recalls env P := by
  induction calls generalizing s with
  | nil => exact ⟨fun _ => rfl, h⟩
  | cons c calls ih =>
    rw [List.forall_mem_cons] at hcalls
    obtain ⟨hagrees, hrecalls⟩ := h.call hcalls.1
    obtain ⟨hagrees', hrecalls'⟩ := ih hrecalls fun c hc => Call.Fits.of_agrees (hcalls.2 c hc) hagrees
    exact ⟨hagrees.trans hagrees', hrecalls'⟩

/-- An intersection answers with what was worked out for schemas that equal those of one key with the given ones,
or works its answer out. -/
theorem Recalls.outcome (h : s.Recalls env P) (henv : s.env scope = env) :
    ((Engine.intersection scope a b).run s).1 = (env.intersect a b).1 ∨
      ∃ p q p' q', (P p ∧ P q) ∧ (P p' ∧ P q') ∧ (p.same a = true ∧ q.same b = true) ∧
        (p.same p' = true ∧ q.same q' = true) ∧
        ((Engine.intersection scope a b).run s).1 = (env.intersect p' q').1 := by
  subst henv
  rw [(Engine.intersection_run scope a b s).1]
  obtain ⟨r, hr, hrun⟩ := Engine.derive_outcome (.intersection a b) (fun _ => (s.env scope).intersect a b) s
  rw [hrun]
  rcases hr with rfl | ⟨e, he, hequal, houtcome⟩
  · exact Or.inl rfl
  · obtain ⟨p, q, hkey, hp, hq⟩ := same_intersection hequal
    obtain ⟨hkinds, hrecalls⟩ := h e he
    obtain ⟨p', q', hp', hq', hpp, hqq, rfl⟩ := hrecalls r houtcome p q hkey
    exact Or.inr ⟨p, q, p', q', hkinds p q hkey, ⟨hp', hq'⟩, ⟨hp, hq⟩, ⟨hpp, hqq⟩, rfl⟩

/-- What the memo keeps under the pair of schemas is what is worked out for them. -/
def Reliable (s : Session) (scope : Option Nat) (a b : Schema) : Prop :=
  ∀ e ∈ s.memo.entries, (e.key == DerivedKey.intersection a b) = true → ∀ r, e.outcome = some r →
    r = ((s.env scope).intersect a b).1

/-- A reliable session answers as its environment does. -/
theorem Reliable.outcome (h : s.Reliable scope a b) :
    ((Engine.intersection scope a b).run s).1 = ((s.env scope).intersect a b).1 := by
  rw [(Engine.intersection_run scope a b s).1]
  obtain ⟨r, hr, hrun⟩ := Engine.derive_outcome (.intersection a b) (fun _ => (s.env scope).intersect a b) s
  rw [hrun]
  rcases hr with rfl | ⟨e, he, hequal, houtcome⟩
  · rfl
  · exact h e he hequal r houtcome

end Session

namespace Schema

/-- No other schema than itself is taken for the one that is equal to it. -/
def Sole (a t : Schema) : Prop := a.same t = true ∨ t.same a = true → t = a

end Schema

namespace Session

variable {s : Session} {scope : Option Nat} {a b : Schema} {calls : List Call}

/-- A session stays reliable for two schemas while no equal ones are intersected beside them. -/
theorem reliable_after (hmemo : s.memo.entries = [])
    (hcalls : ∀ c ∈ calls, c.Fits s (s.env scope) fun t => a.Sole t ∧ b.Sole t) :
    (s.after calls).Reliable scope a b := by
  obtain ⟨hagrees, hrecalls⟩ := (recalls_of_empty hmemo).after hcalls
  intro e he hequal r houtcome
  obtain ⟨p, q, hkey, hp, hq⟩ := same_intersection hequal
  obtain ⟨hkinds, hkept⟩ := hrecalls e he
  obtain ⟨⟨hpa, -⟩, -, hqb⟩ := hkinds p q hkey
  obtain rfl := hpa (Or.inr hp)
  obtain rfl := hqb (Or.inr hq)
  obtain ⟨p', q', ⟨hpa', -⟩, ⟨-, hqb'⟩, hpp, hqq, rfl⟩ := hkept r houtcome p q hkey
  rw [hpa' (Or.inl hpp), hqb' (Or.inl hqq), hagrees scope]

end Session

end Schemata
