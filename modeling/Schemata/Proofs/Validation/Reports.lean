import Schemata.Proofs.Validation.Totality

/-! Reports on containers, put together from the reports on their parts. Each part is validated on its own, and what
is wrong with it is seen from the container through the step that leads to it. -/
namespace Schemata

/-- What one part adds to the report on a container: its failures, or else what it puts out. -/
structure Part (α : Type) where
  failures : List Failure
  outputs : List α

namespace Part

variable {α : Type}

def nothing : Part α := ⟨[], []⟩

def output (a : α) : Part α := ⟨[], [a]⟩

def failure (f : Failure) : Part α := ⟨[f], []⟩

/-- The report on a value under a step, as the container sees it. -/
def under (step : Segment) (put : Value → α) : Except (List Failure) Value → Part α
  | .ok v => .output (put v)
  | .error fs => ⟨fs.map (Failure.within step), []⟩

/-- The report on the container: the failures of all parts in their order, or the container that is built from what
they put out. -/
def report (build : List α → Value) (parts : List (Part α)) : Except (List Failure) Value :=
  let failures := parts.flatMap (·.failures)
  if failures.isEmpty then .ok (build (parts.flatMap (·.outputs))) else .error failures

/-- The part has the failures of an outcome, or its output. -/
def Tells (put : Value → α) (o : Outcome) (p : Part α) : Prop :=
  p.failures = o.failures ∧ (o.failures = [] → p.outputs = [put o.output])

theorem tells_output (put : Value → α) (v : Value) : Tells put (.pass v) (.output (put v)) :=
  ⟨rfl, fun _ => rfl⟩

theorem failures_of_tells {put : Value → α} {os : List Outcome} {parts : List (Part α)}
    (h : List.Forall₂ (Tells put) os parts) : parts.flatMap (·.failures) = Outcome.allFailures os := by
  unfold Outcome.allFailures
  induction h with
  | nil => rfl
  | cons hp _ ih => simp [hp.1, ih]

/-- The report is that of the outcomes side by side. -/
theorem report_of_tells {put : Value → α} {os : List Outcome} {parts : List (Part α)}
    (h : List.Forall₂ (Tells put) os parts) (build : List α → Value) : report build parts =
      if (Outcome.allFailures os).isEmpty then .ok (build (os.map fun o => put o.output))
      else .error (Outcome.allFailures os) := by
  have hfailures := failures_of_tells h
  have houtputs : Outcome.allFailures os = [] → parts.flatMap (·.outputs) = os.map fun o => put o.output := by
    clear hfailures
    induction h with
    | nil => intro _; rfl
    | @cons o p os parts hp _ ih =>
      intro hnone
      obtain ⟨ho, hos⟩ := List.append_eq_nil_iff.mp (show o.failures ++ Outcome.allFailures os = [] from hnone)
      rw [List.flatMap_cons, List.map_cons, hp.2 ho, ih hos]
      rfl
  simp only [report, hfailures, List.isEmpty_iff]
  split_ifs with hnone
  · rw [houtputs hnone]
  · rfl

end Part

namespace Env

variable {α : Type} {env : Env} {config : Config} {s : Schema} {put : Value → α}

/-- The default of a part. It is validated like a given value where the configuration asks for it. -/
def byDefault (env : Env) (config : Config) (d : Producer) (s : Schema) (step : Segment) (put : Value → α) :
    Except Fault (Part α) := do
  let v ← d.produce env.hooks 1
  if config.defensiveDefaults then (env.validate config s v).map (.under step put) else pure (.output (put v))

/-- A check of a part from the root of its container comes to the validation of the part alone. -/
theorem inside_tells (step : Segment) (v : Value) :
    Agree (· = ·) (Part.Tells put) ((env.check config s).inside step .root v)
      ((env.validate config s v).map (.under step put)) := by
  unfold Check.inside validate run
  rw [show Visit.root.renewed = Visit.root from rfl]
  cases env.check config s .root v with
  | error e => exact rfl
  | ok o =>
    obtain ⟨w, rebuilt, failures⟩ := o
    cases failures with
    | nil => exact ⟨rfl, fun _ => rfl⟩
    | cons f fs => exact ⟨rfl, nofun⟩

theorem default_tells (d : Producer) (step : Segment) :
    Agree (· = ·) (Part.Tells put) ((env.check config s).default config env.hooks d step .root)
      (env.byDefault config d s step put) := by
  refine (Agree.refl (R := (· = ·)) (fun _ _ => rfl) fun _ => rfl).bind ?_
  rintro v _ rfl
  split_ifs
  · exact inside_tells step v
  · exact Part.tells_output put v

theorem validate_of_run {v : Value} {reports : Except Fault (Except (List Failure) Value)}
    (h : Agree (· = ·) (fun o report => (if o.isOk then .ok o.output else .error o.failures) = report)
      (env.run config s v) reports) : env.validate config s v = reports :=
  (h.mapLeft fun _ _ h => h).eq

theorem every_keyword (k : Keyword) :
    (Schema.keyword k).Every fun t => t.isRef = false ∧ t.Sound ∧ t.Supplied env.hooks :=
  .intro ⟨rfl, trivial, nofun⟩ nofun

/-- Without references every value has a report when all constraints are sound and all defaults can be made. -/
theorem validate_reports {v : Value} (h : s.Every fun t => t.isRef = false ∧ t.Sound ∧ t.Supplied env.hooks) :
    ∃ report, env.validate config s v = .ok report := by
  have hcomplete : env.Complete fun _ => False := nofun
  have hends : Ends (env.validate config s v) (fun _ => True) fun _ => False :=
    validate_ends hcomplete (h.mono fun t ht r hr => by simp [hr, Schema.isRef] at ht)
      ⟨h.mono fun _ h => h.2.1, nofun⟩
      ⟨h.mono fun _ h p hp copy => by
        obtain ⟨w, hw⟩ := h.2.2 p hp copy
        rw [hw]
        trivial, nofun⟩
  exact hends.succeeds.imp fun _ => And.left

end Env
end Schemata
