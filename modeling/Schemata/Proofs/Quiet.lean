import Schemata.Algebra.Domains
import Schemata.Proofs.Runs
import Schemata.Proofs.Schema.Parts
import Schemata.Validation.Check

/-! Runs that find nothing out about schemas: looking up references, telling domains, making defaults. Their
errors say neither that an intersection is empty nor that a key is not found. -/
namespace Schemata

variable {α β : Type}

/-- The error tells what was found out about schemas. -/
def Fault.isFinding (e : Fault) : Bool := e.isUnsatisfiable || e.isKeyNotFound

/-- No error of the run is a finding. -/
def Quiet (x : Except Fault α) : Prop := ∀ e, x = .error e → e.isFinding = false

namespace Quiet

theorem ok (a : α) : Quiet (.ok a) := by rintro _ ⟨⟩

theorem error {e : Fault} (h : e.isFinding = false) : Quiet (.error e : Except Fault α) := by
  rintro _ ⟨⟩
  exact h

theorem isUnsatisfiable {x : Except Fault α} {e : Fault} (h : Quiet x) (he : x = .error e) :
    e.isUnsatisfiable = false :=
  (Bool.or_eq_false_iff.mp (h e he)).1

theorem isKeyNotFound {x : Except Fault α} {e : Fault} (h : Quiet x) (he : x = .error e) :
    e.isKeyNotFound = false :=
  (Bool.or_eq_false_iff.mp (h e he)).2

theorem bind {x : Except Fault α} {f : α → Except Fault β} (hx : Quiet x) (hf : ∀ a, Quiet (f a)) :
    Quiet (x >>= f) := by
  cases x with
  | error e => exact error (hx e rfl)
  | ok a => exact hf a

theorem ends {x : Except Fault α} (h : Quiet x) : Ends x (fun _ => True) fun e => e.isFinding = false := by
  cases x with
  | error e => exact h e rfl
  | ok a => trivial

theorem of_ends {x : Except Fault α} (h : Ends x (fun _ => True) fun e => e.isFinding = false) : Quiet x := by
  rintro e rfl
  exact h

end Quiet

theorem Producer.produce_quiet (hooks : Hooks) (copy : Nat) (p : Producer) : Quiet (p.produce hooks copy) := by
  unfold produce
  split
  · split
    · rename_i c _
      cases hooks.make c with
      | error e => exact .error rfl
      | ok v => exact .ok v
    · exact .error rfl
  · split
    · exact .ok _
    · exact .error rfl

theorem Env.resolve?_quiet (env : Env) (r : Ref) : Quiet (env.resolve? r) := by
  unfold resolve?
  cases env.target r <;> first | exact .ok _ | exact .error rfl

theorem Env.resolve_quiet (env : Env) (r : Ref) : Quiet (env.resolve r) := by
  unfold resolve
  cases env.target r <;> first | exact .ok _ | exact .error rfl

namespace Schema

variable {follow : Ref → Except Fault (Option DomainSet)}

/-- Telling the domains stops with what following a reference stops with. -/
theorem domainsWith_ends {Q : Fault → Prop} {s : Schema}
    (hs : s.Every fun t => ∀ r, t = .ref r → Ends (follow r) (fun _ => True) Q) :
    Ends (s.domainsWith follow) (fun _ => True) Q := by
  induction hs with
  | @intro s href _ ih =>
    have branches : ∀ bs, (∀ b ∈ bs, Ends (b.domainsWith follow) (fun _ => True) Q) →
        Ends (unionDomains follow bs) (fun _ => True) Q := by
      intro bs
      induction bs with
      | nil => exact fun _ => trivial
      | cons b bs ihb =>
        intro h
        rw [List.forall_mem_cons] at h
        refine h.1.bind fun ds _ => ?_
        cases ds with
        | none => trivial
        | some d => exact (ihb h.2).bind fun _ _ => trivial
    have members : ∀ ms, (∀ m ∈ ms, Ends (m.domainsWith follow) (fun _ => True) Q) →
        Ends (memberDomains follow ms) (fun _ => True) Q := by
      intro ms
      induction ms with
      | nil => exact fun _ => trivial
      | cons m ms ihm =>
        intro h
        rw [List.forall_mem_cons] at h
        exact h.1.bind fun _ _ => (ihm h.2).bind fun _ _ => trivial
    cases s with
    | constrained s cs => exact ih s (by simp [parts])
    | union bs => exact branches bs ih
    | intersection ms => exact (members ms ih).bind fun _ _ => trivial
    | ref r => exact href r rfl
    | _ => trivial

end Schema

/-- Telling the domains stops with what looking behind a reference stops with. -/
theorem Env.domains?_ends {env : Env} {Q : Fault → Prop} (hresolve : ∀ r, Ends (env.resolve? r) (fun _ => True) Q)
    (s : Schema) : Ends (env.domains? s) (fun _ => True) Q := by
  have within : ∀ fuel seen s, Ends (env.domainsWithin fuel seen s) (fun _ => True) Q := by
    intro fuel
    induction fuel with
    | zero => exact fun seen s => Schema.domainsWith_ends (.all fun _ _ _ => trivial)
    | succ fuel ih =>
      refine fun seen s => Schema.domainsWith_ends (.all fun _ r _ => ?_)
      split
      · trivial
      · refine (hresolve r).bind fun t _ => ?_
        cases t with
        | none => trivial
        | some t => exact ih _ t
  exact within _ _ s

theorem Env.domains?_quiet (env : Env) (s : Schema) : Quiet (env.domains? s) :=
  .of_ends (domains?_ends (fun r => (env.resolve?_quiet r).ends) s)

end Schemata
