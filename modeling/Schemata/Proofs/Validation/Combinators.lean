import Schemata.Proofs.Schema.Member
import Schemata.Proofs.Value.Rebuilding

/-! The checks of compound schemas, given checks of the parts that always answer: each answers too, and
accepts exactly when its parts do. -/
namespace Schemata

namespace Outcome

@[simp] theorem isOk_within (s : Segment) (o : Outcome) : (o.within s).isOk = o.isOk := by
  simp [within, isOk]

@[simp] theorem output_within (s : Segment) (o : Outcome) : (o.within s).output = o.output := rfl

theorem isOk_iff {o : Outcome} : o.isOk = true ↔ o.failures = [] := by simp [isOk]

theorem allFailures_eq_nil {os : List Outcome} : allFailures os = [] ↔ ∀ o ∈ os, o.isOk = true := by
  simp [allFailures, isOk_iff]

end Outcome

theorem Failure.ofVerdict_eq_nil {constraint : String} {d : Verdict} :
    ofVerdict constraint d = [] ↔ d.isValid = true := by
  cases d <;> simp [ofVerdict, Verdict.isValid]

namespace Check

theorem isUndefined_iff {v : Value} : isUndefined v = true ↔ v = .undefined := by cases v <;> simp [isUndefined]

/-- The check answers on every value. -/
def Total (c : Check) : Prop := ∀ visit v, ∃ o, c visit v = .ok o

/-- The answer of a check. -/
def outcome (c : Check) (visit : Visit) (v : Value) : Outcome :=
  match c visit v with
  | .ok o => o
  | .error _ => .pass v

theorem outcome_of_ok {c : Check} {visit : Visit} {v : Value} {o : Outcome} (h : c visit v = .ok o) :
    c.outcome visit v = o := by simp [outcome, h]

theorem Total.eq {c : Check} (h : c.Total) (visit : Visit) (v : Value) :
    c visit v = .ok (c.outcome visit v) := by
  obtain ⟨o, ho⟩ := h visit v
  rw [ho, outcome_of_ok ho]

theorem Total.inside {c : Check} (h : c.Total) (s : Segment) (visit : Visit) (v : Value) :
    c.inside s visit v = .ok ((c.outcome visit.renewed v).within s) := by
  simp [Check.inside, h.eq, Except.map]

theorem keyword_isOk {k : Keyword} {v : Value} :
    (Outcome.isOk ⟨v, false, Failure.ofVerdict k.name (k.check v)⟩) = true ↔ k.holds v = true := by
  rw [Outcome.isOk_iff, Failure.ofVerdict_eq_nil, Keyword.check]
  cases k.holds v <;> simp [Verdict.isValid, Verdict.refuse]

theorem constraintFailures_spec {cs : List Constraint} (hcs : ∀ c ∈ cs, c.Plain) (hooks : Hooks) (v : Value) :
    ∃ fs, constraintFailures hooks v cs = .ok fs ∧ (fs = [] ↔ ∀ c ∈ cs, c.Accepts v) := by
  induction cs with
  | nil => exact ⟨[], rfl, by simp⟩
  | cons c cs ih =>
    obtain ⟨d, hd, hc⟩ := Constraint.check_spec (hcs c (by simp)) hooks v
    obtain ⟨fs, hfs, h⟩ := ih fun c hc => hcs c (List.mem_cons_of_mem _ hc)
    refine ⟨Failure.ofVerdict c.description d ++ fs, ?_, ?_⟩
    · simp [constraintFailures, hd, hfs, Except.mapError, bind, Except.bind, pure, Except.pure]
    · simp [Failure.ofVerdict_eq_nil, hc, h]

theorem constrained_spec {base : Check} (hb : base.Total) {cs : List Constraint} (hcs : ∀ c ∈ cs, c.Plain)
    (hooks : Hooks) (visit : Visit) (v : Value) :
    ∃ o, constrained hooks base cs visit v = .ok o ∧ o.output = (base.outcome visit v).output ∧
      (o.isOk = true ↔ (base.outcome visit v).isOk = true ∧
        ∀ c ∈ cs, c.Accepts (base.outcome visit v).output) := by
  unfold constrained
  rw [hb.eq]
  cases hok : (base.outcome visit v).isOk with
  | false =>
    refine ⟨base.outcome visit v, ?_, rfl, by simp [hok]⟩
    simp [bind, Except.bind, hok, pure, Except.pure]
  | true =>
    obtain ⟨fs, hfs, h⟩ := constraintFailures_spec hcs hooks (base.outcome visit v).output
    refine ⟨{ base.outcome visit v with failures := fs }, ?_, rfl, ?_⟩
    · simp [bind, Except.bind, hok, pure, Except.pure, hfs]
    · simp [Outcome.isOk_iff, h]

section Union

variable {branches : List (Schema × Check)} {visit : Visit} {v : Value}

theorem firstAccepting_spec (h : ∀ b ∈ branches, b.2.Total) :
    (∃ b ∈ branches, (b.2.outcome visit v).isOk = true ∧
      firstAccepting visit v branches = .ok (.inl (b.2.outcome visit v))) ∨
    (∀ b ∈ branches, (b.2.outcome visit v).isOk = false) ∧
      ∃ attempts, firstAccepting visit v branches = .ok (.inr attempts) ∧
        ∀ a ∈ attempts, a.2 ≠ [] ∧ ∃ b ∈ branches, b.1 = a.1 := by
  induction branches with
  | nil => exact Or.inr ⟨by simp, [], rfl, by simp⟩
  | cons b branches ih =>
    obtain ⟨s, c⟩ := b
    have hc : c.Total := h (s, c) (by simp)
    cases hok : (c.outcome visit v).isOk with
    | true =>
      refine Or.inl ⟨(s, c), by simp, hok, ?_⟩
      simp [firstAccepting, hc.eq, bind, Except.bind, hok, pure, Except.pure]
    | false =>
      rcases ih fun b hb => h b (List.mem_cons_of_mem _ hb) with ⟨b, hb, hbok, hrun⟩ | ⟨hno, attempts, hrun, ha⟩
      · refine Or.inl ⟨b, List.mem_cons_of_mem _ hb, hbok, ?_⟩
        simp [firstAccepting, hc.eq, bind, Except.bind, hok, pure, Except.pure, hrun]
      · refine Or.inr ⟨?_, (s, (c.outcome visit v).failures) :: attempts, ?_, ?_⟩
        · rintro b hb
          rcases List.mem_cons.mp hb with rfl | hb
          · exact hok
          · exact hno b hb
        · simp [firstAccepting, hc.eq, bind, Except.bind, hok, pure, Except.pure, hrun]
        · intro a hmem
          rcases List.mem_cons.mp hmem with rfl | hmem
          · refine ⟨fun hnil => ?_, (s, c), by simp, rfl⟩
            rw [Outcome.isOk_iff.mpr hnil] at hok
            simp at hok
          · obtain ⟨hne, b, hb, hs⟩ := ha a hmem
            exact ⟨hne, b, List.mem_cons_of_mem _ hb, hs⟩

theorem matching_spec {domains : Schema → Except Fault (Option DomainSet)} (d : Domain)
    {attempts : List (Schema × List Failure)} (h : ∀ a ∈ attempts, ∃ ds, domains a.1 = .ok ds) :
    ∃ fss, matching domains d attempts = .ok fss ∧ ∀ fs ∈ fss, ∃ a ∈ attempts, a.2 = fs := by
  induction attempts with
  | nil => exact ⟨[], rfl, by simp⟩
  | cons a attempts ih =>
    obtain ⟨s, fs⟩ := a
    obtain ⟨ds, hds⟩ := h (s, fs) (by simp)
    obtain ⟨fss, hfss, hsub⟩ := ih fun a ha => h a (List.mem_cons_of_mem _ ha)
    simp only [] at hds
    simp only [matching, hds, hfss, bind, Except.bind, pure, Except.pure]
    refine ⟨_, rfl, fun gs hgs => ?_⟩
    have hgs : gs = fs ∨ gs ∈ fss := by
      split_ifs at hgs
      · exact List.mem_cons.mp hgs
      · exact Or.inr hgs
    rcases hgs with rfl | hgs
    · exact ⟨(s, gs), by simp, rfl⟩
    · obtain ⟨a, ha, rfl⟩ := hsub gs hgs
      exact ⟨a, List.mem_cons_of_mem _ ha, rfl⟩

/-- A union answers as its first accepting branch, and refuses when there is none. -/
theorem union_spec {domains : Schema → Except Fault (Option DomainSet)} (h : ∀ b ∈ branches, b.2.Total)
    (hd : ∀ b ∈ branches, ∃ ds, domains b.1 = .ok ds) (visit : Visit) (v : Value) :
    ∃ o, union domains branches visit v = .ok o ∧
      ((∃ b ∈ branches, (b.2.outcome visit v).isOk = true ∧ o = b.2.outcome visit v) ∨
        (∀ b ∈ branches, (b.2.outcome visit v).isOk = false) ∧ o.isOk = false) := by
  rcases firstAccepting_spec h with ⟨b, hb, hok, hrun⟩ | ⟨hno, attempts, hrun, ha⟩
  · refine ⟨b.2.outcome visit v, ?_, Or.inl ⟨b, hb, hok, rfl⟩⟩
    simp [union, hrun, bind, Except.bind, pure, Except.pure]
  · obtain ⟨fss, hfss, hsub⟩ := matching_spec v.domain (by
      intro a hmem
      obtain ⟨-, b, hb, hs⟩ := ha a hmem
      rw [← hs]
      exact hd b hb)
    simp only [union, hrun, hfss, bind, Except.bind, pure, Except.pure]
    match fss, hsub with
    | [fs], hsub =>
      refine ⟨_, rfl, Or.inr ⟨hno, ?_⟩⟩
      obtain ⟨a, hmem, rfl⟩ := hsub fs (by simp)
      simpa [Outcome.isOk] using (ha a hmem).1
    | [], _ => exact ⟨_, rfl, Or.inr ⟨hno, rfl⟩⟩
    | _ :: _ :: _, _ => exact ⟨_, rfl, Or.inr ⟨hno, rfl⟩⟩

end Union

/-- A conjunction goes on with what its first member puts out. -/
theorem conjunction_cons {c : Check} {cs : List Check} (hc : c.Total) (hcs : (conjunction cs).Total)
    (visit : Visit) (v : Value) : ∃ inner o, (inner = visit ∨ inner = visit.renewed) ∧
      conjunction (c :: cs) visit v = .ok o ∧
      o.output = ((conjunction cs).outcome inner (c.outcome visit v).output).output ∧
      (o.isOk = true ↔ (c.outcome visit v).isOk = true ∧
        ((conjunction cs).outcome inner (c.outcome visit v).output).isOk = true) := by
  refine ⟨if (c.outcome visit v).rebuilt then visit.renewed else visit, ?_⟩
  simp only [conjunction, hc.eq, hcs.eq, bind, Except.bind, pure, Except.pure]
  refine ⟨_, ?_, rfl, rfl, by simp [Outcome.isOk_iff]⟩
  split_ifs
  · exact Or.inr rfl
  · exact Or.inl rfl

theorem conjunction_total {cs : List Check} (h : ∀ c ∈ cs, c.Total) : (conjunction cs).Total := by
  induction cs with
  | nil => exact fun _ v => ⟨.pass v, rfl⟩
  | cons c cs ih =>
    intro visit v
    obtain ⟨_, o, _, ho, _⟩ := conjunction_cons (h c (by simp))
      (ih fun c hc => h c (List.mem_cons_of_mem _ hc)) visit v
    exact ⟨o, ho⟩

end Check
end Schemata
