import Schemata.Proofs.Algebra.Exactness
import Schemata.Proofs.Algebra.Overlooked
import Schemata.Proofs.History

/-! An intersection that is called empty has no value in common, but for values that are overlooked. The search for
a conflict goes through literals, constraints, branches, properties and elements; whatever else fails on the way
does not speak of emptiness. -/
namespace Schemata
namespace Env

variable {env : Env} {config : Config} {a b s t : Schema} {e : Fault} {v w : Value}
  {meet : Schema → Schema → Compose Schema}

theorem overlooks_ends {α : Type} {x : Except Fault α} (h : Quiet x) :
    Ends x (fun _ => True) (env.Overlooks config a b) :=
  h.ends.mono (fun _ h => h) fun _ he => overlooks_of_quiet (Bool.or_eq_false_iff.mp he).1

/-- A literal is tried as it is written. -/
theorem meetLiteral_overlooks (htrial : env.trial = .ok config) (hw : (Schema.literal w).Every Schema.WrittenOut)
    (hb : b.Every Schema.WrittenOut) :
    (env.meetLiteral (.literal w) w b).Yields (fun _ => True) (env.Overlooks config (.literal w) b) := by
  have hadmits : env.admits b w = env.accepts config b w := by
    rw [admits, htrial]
    rfl
  unfold meetLiteral
  rw [hadmits]
  cases hrun : env.accepts config b w with
  | error e => exact .lift (overlooks_of_quiet ((env.accepts_quiet config b w).isUnsatisfiable hrun))
  | ok taken =>
    cases taken with
    | true => exact .pure trivial
    | false =>
      refine .throw fun _ v _ hva hvb => ?_
      have hne : v ≠ w := by
        rintro rfl
        simp [hrun] at hvb
      refine .literal hne (fun hscalar hblind => ?_) hrun
      have hnumbers : w.Renumbers v := by
        rcases (Value.twin_iff hscalar).mp (accepts_literal.mp hva) with h | ⟨-, rfl⟩
        · exact h
        · exact absurd rfl hne
      have hlike : Agree Fault.Akin (· = ·) (env.accepts config b w) (env.accepts config b v) :=
        accepts_renumbers (hb.mono fun _ h => h.keyNode) hblind hnumbers
      simp [hrun, hvb, Agree] at hlike

/-- What a schema accepts its base accepts, and its constraints pass on what the base puts out. -/
theorem accepts_split : env.accepts config a v = .ok true ↔
    Succeeds (env.run config a.split.1 v) fun o => o.isOk = true ∧ ∀ c ∈ a.split.2, c.Passes env.hooks o.output := by
  cases a with
  | constrained s cs => exact accepts_constrained
  | _ =>
    rw [accepts_iff]
    simp only [Schema.split, List.not_mem_nil, IsEmpty.forall_iff, implies_true, and_true]
    rfl

/-- Bounds that exclude each other are passed by no value, unless they look at outputs of different lengths. -/
theorem gather_overlooks (ha : a.split.1.Every Schema.WrittenOut) (hb : b.split.1.Every Schema.WrittenOut)
    (disjoint : Constraint → Constraint → Fault) :
    Ends ((a.split.2 ++ b.split.2).foldlM (Constraint.gather disjoint) []) (fun _ => True)
      (env.Overlooks config a b) := by
  cases hrun : (a.split.2 ++ b.split.2).foldlM (Constraint.gather disjoint) [] with
  | ok gs => trivial
  | error e =>
    intro _ v hn hva hvb
    obtain ⟨o, ho, hok, hcs⟩ := accepts_split.mp hva
    obtain ⟨p, hp, hok', hds⟩ := accepts_split.mp hvb
    by_contra hno
    -- A number is put out as it is, on both sides.
    have number : ∀ {s t : Schema} {o p : Outcome}, s.Every Schema.WrittenOut → t.Every Schema.WrittenOut →
        env.run config s v = .ok o → o.isOk = true → env.run config t v = .ok p → p.isOk = true →
        ∀ n, o.output = .number n → p.output = o.output := by
      intro s t o p hs ht ho hok hp hok' n hout
      rcases output_of_run hs ho hok with heq | ⟨-, hno⟩
      · rcases output_of_run ht hp hok' with heq' | ⟨hno, -⟩
        · rw [heq, heq']
        · rw [← heq, hout] at hno
          simp [Value.isScalar] at hno
      · rw [hout] at hno
        simp [Value.isScalar] at hno
    have nanFree : ∀ {s : Schema} {o : Outcome}, s.Every Schema.WrittenOut → env.run config s v = .ok o →
        o.isOk = true → o.output.isNaN = false := by
      intro s o hs ho hok
      rcases output_of_run hs ho hok with heq | ⟨-, hno⟩
      · rw [heq]
        exact hn.here
      · cases hout : o.output <;> simp [hout, Value.isScalar] at hno <;> rfl
    have bears : ∃ w : Value, ∀ c ∈ a.split.2 ++ b.split.2, c.Bears w := by
      by_cases hbound : ∃ l, Constraint.length l ∈ a.split.2
      · obtain ⟨l, hl⟩ := hbound
        refine ⟨o.output, List.forall_mem_append.mpr ⟨fun c hc => (hcs c hc).bears (nanFree ha ho hok), fun c hc => ?_⟩⟩
        refine Constraint.Bears.transfer ((hds c hc).bears (nanFree hb hp hok')) (number hb ha hp hok' ho hok) ?_
        rintro m rfl
        by_contra hlength
        exact hno (.lengths hl hc ho hp hlength)
      · refine ⟨p.output, List.forall_mem_append.mpr ⟨fun c hc => ?_, fun c hc => (hds c hc).bears (nanFree hb hp hok')⟩⟩
        refine Constraint.Bears.transfer ((hcs c hc).bears (nanFree ha ho hok)) (number ha hb ho hok hp hok') ?_
        rintro l rfl
        exact absurd ⟨l, hc⟩ hbound
    obtain ⟨w, hw⟩ := bears
    obtain ⟨gs, hgs⟩ := Constraint.gatherAll_of_bears disjoint hw
    simp [hgs] at hrun

theorem meetConstrained_overlooks (ha : a.split.1.Every Schema.WrittenOut) (hb : b.split.1.Every Schema.WrittenOut)
    (hmeet : env.Candid config a.split.1 b.split.1 (meet a.split.1 b.split.1)) :
    (Env.meetConstrained meet a b).Yields (fun _ => True) (env.Overlooks config a b) := by
  unfold meetConstrained
  refine Compose.Yields.bind (hmeet.mono (fun _ h => h) fun e he hunsat v hn hva hvb => ?_) fun base _ => ?_
  · obtain ⟨o, ho, hok, -⟩ := accepts_split.mp hva
    obtain ⟨p, hp, hok', -⟩ := accepts_split.mp hvb
    refine .base (he.2 hunsat v hn ?_ ?_)
    · rw [accepts_of_run ho, hok]
    · rw [accepts_of_run hp, hok']
  · exact Compose.Yields.bind (.lift (gather_overlooks ha hb _)) fun _ _ => .pure trivial

/-- Where no branch is left, every branch conflicts with the other schema. -/
theorem compatible_overlooks {one : Schema → Compose Schema} {bs : List Schema}
    (h : ∀ s ∈ bs, env.Candid config s b (one s)) :
    (compatible one bs).Yields (fun cs => cs = [] → ∀ s ∈ bs, ∃ e, e.isUnsatisfiable = true ∧ env.Accuses config s b e)
      fun e => e.isUnsatisfiable = false := by
  have conflicts : ∀ s ∈ bs, (one s).Yields (fun _ => True) fun e =>
      (e.isUnsatisfiable = true → ∃ e, e.isUnsatisfiable = true ∧ env.Accuses config s b e) ∧
      (e.isUnsatisfiable = false → e.isUnsatisfiable = false) := fun s hs =>
    (h s hs).mono (fun _ h => h) fun e he => ⟨fun hunsat => ⟨e, hunsat, he⟩, id⟩
  refine (Compose.Yields.compatible conflicts).mono (fun cs hcs hnil s hs => (hcs.2 s hs).resolve_left ?_) fun _ h => h
  simp [hnil]

theorem meetBranches_overlooks (htrial : env.trial = .ok config) {one : Schema → Compose Schema} {bs : List Schema}
    (h : ∀ s ∈ bs, env.Candid config s b (one s)) :
    (env.meetBranches (.union bs) b bs one).Yields (fun _ => True) (env.Overlooks config (.union bs) b) := by
  have hquiet : Quiet env.trial := htrial ▸ .ok config
  unfold meetBranches
  refine ((compatible_overlooks h).mono (fun _ h => h) fun _ he => overlooks_of_quiet he).bind fun cs hcs => ?_
  split_ifs with hempty
  · refine .throw fun _ v hn hva hvb => .branches fun s hs hacc => ?_
    obtain ⟨e, hunsat, haccuses⟩ := hcs (List.isEmpty_iff.mp hempty) s hs
    exact haccuses.2 hunsat v hn hacc hvb
  · exact .lift (overlooks_ends (union_quiet hquiet cs))

/-- Disjoint domains hold no common value. -/
theorem disjoint_overlooks (ha : a.Every Schema.WrittenOut) (hb : b.Every Schema.WrittenOut) {d d' : DomainSet}
    (hd : env.domains? a = .ok (some d)) (hd' : env.domains? b = .ok (some d')) (h : (d.inter d').isEmpty = true) :
    env.Overlooks config a b e := by
  intro _ v _ hva hvb
  have hempty := List.all_eq_true.mp h v.domain (Domain.mem_all _)
  simp [DomainSet.inter, Schema.domain_of_accepts ha hd hva, Schema.domain_of_accepts hb hd' hvb] at hempty

variable (hexact : config.exactOptional = true) (htrial : env.trial = .ok config)
include hexact htrial

theorem meetPlain_overlooks (ha : a.Every Schema.WrittenOut) (hb : b.Every Schema.WrittenOut)
    (hmeet : ∀ s t, s.Every Schema.WrittenOut → t.Every Schema.WrittenOut → env.Candid config s t (meet s t)) :
    (env.meetPlain meet a b).Yields (fun _ => True) (env.Overlooks config a b) := by
  have hquiet : Quiet env.trial := htrial ▸ .ok config
  have parts : ∀ {a b : Schema}, a.Every Schema.WrittenOut → b.Every Schema.WrittenOut → ∀ s ∈ a.parts, ∀ t ∈ b.parts,
      env.Candid config s t (meet s t) ∧ env.Candid config t s (meet t s) := fun ha hb s hs t ht =>
    ⟨hmeet s t (ha.part hs) (hb.part ht), hmeet t s (hb.part ht) (ha.part hs)⟩
  have split : ∀ {a : Schema}, a.Every Schema.WrittenOut → a.split.1.Every Schema.WrittenOut := by
    intro a ha
    cases a <;> first | exact ha.base | exact ha
  have constrained : (Env.meetConstrained meet a b).Yields (fun _ => True) (env.Overlooks config a b) :=
    meetConstrained_overlooks (split ha) (split hb) (hmeet _ _ (split ha) (split hb))
  unfold meetPlain
  refine Compose.Yields.bind (P := fun d => env.domains? a = .ok d) (.lift ?_) fun d hd => ?_
  · cases hrun : env.domains? a with
    | error e => exact overlooks_of_quiet ((env.domains?_quiet a).isUnsatisfiable hrun)
    | ok d => exact rfl
  refine Compose.Yields.bind (P := fun d => env.domains? b = .ok d) (.lift ?_) fun d' hd' => ?_
  · cases hrun : env.domains? b with
    | error e => exact overlooks_of_quiet ((env.domains?_quiet b).isUnsatisfiable hrun)
    | ok d => exact rfl
  dsimp only
  split_ifs with hdisjoint
  · cases d with
    | none => simp at hdisjoint
    | some d =>
      cases d' with
      | none => simp at hdisjoint
      | some d' => exact .throw (disjoint_overlooks ha hb hd hd' hdisjoint)
  · split
    · exact .pure trivial
    · exact .pure trivial
    · exact meetLiteral_overlooks htrial ha hb
    · exact (meetLiteral_overlooks htrial hb ha).mono (fun _ h => h) fun _ h => h.symm
    · exact constrained
    · exact constrained
    · refine (meetShapes_overlooks hexact htrial ha hb (parts ha hb)).bind fun o _ => ?_
      exact .lift (overlooks_ends (makeObject_quiet o))
    · refine meetTuples_overlooks hexact ha hb fun e he f hf => (parts ha hb _ ?_ _ ?_).1
      · exact List.mem_map_of_mem he
      · exact List.mem_map_of_mem hf
    · refine Compose.Yields.bind (.lift (overlooks_ends (isSubset_quiet hquiet _ _))) fun r _ => ?_
      split_ifs
      · exact .pure trivial
      · refine Compose.Yields.bind (.lift (overlooks_ends (isSubset_quiet hquiet _ _))) fun r _ => ?_
        split_ifs <;> exact .pure trivial
    · exact .pure trivial
    · exact .pure trivial
    · exact .pure trivial

/-- Every intersection fails for no other reason than a conflict, or overlooks what its parts overlook. -/
theorem meetWithin_candid (fuel : Nat) (expanding : List (Schema × Schema)) (ha : a.Every Schema.WrittenOut)
    (hb : b.Every Schema.WrittenOut) : env.Candid config a b (env.meetWithin fuel expanding a b) := by
  -- An error of emptiness is a conflict by itself.
  have conflicts : ∀ {fuel : Nat} {a b : Schema},
      (env.meetWithin fuel expanding a b).Yields (fun _ => True) (env.Overlooks config a b) →
      env.Candid config a b (env.meetWithin fuel expanding a b) := by
    intro fuel a b h met
    have h := h met
    cases hrun : ((env.meetWithin fuel expanding a b).run met).1 with
    | ok c => trivial
    | error e =>
      rw [hrun] at h
      exact ⟨fun he => ⟨fuel, expanding, met, e, he, Or.inl hrun⟩, h⟩
  induction fuel generalizing a b with
  | zero => exact .pure trivial
  | succ fuel ih =>
    apply conflicts
    have noRef : ∀ {s : Schema}, s.Every Schema.WrittenOut → s.isRef = false := by
      intro s hs
      cases s <;> first | rfl | exact hs.root.elim
    refine Schema.meetWithin_forms (fun _ => trivial) (fun _ => trivial) (fun _ => trivial) (fun _ _ _ hnever => ?_)
      (by simp [noRef ha, noRef hb]) (fun bs hbs _ _ => ?_) (fun bs hbs _ _ => ?_)
      fun _ => meetPlain_overlooks hexact htrial ha hb fun s t hs ht => ih hs ht
    · intro _ v _ hva hvb
      rcases hnever with hn | hn
      · rw [Schema.eq_never hn] at hva
        exact absurd hva not_accepts_never
      · rw [Schema.eq_never hn] at hvb
        exact absurd hvb not_accepts_never
    · subst hbs
      exact meetBranches_overlooks htrial fun s hs => ih (ha.branch hs) hb
    · subst hbs
      refine (meetBranches_overlooks htrial fun s hs => ?_).mono (fun _ h => h) fun _ h => h.symm
      exact (ih ha (hb.branch hs)).symm

end Env

namespace Engine

variable {s : Session} {scope : Option Nat} {config : Config} {a b : Schema} {e : Fault} {v : Value}

/-- When an intersection is called empty, every value that both schemas accept is overlooked. -/
theorem overlooked_of_unsatisfiable (hmemo : s.Reliable scope a b) (hconfig : s.configOf scope = .ok config)
    (hexact : config.exactOptional = true) (ha : a.Every Schema.WrittenOut) (hb : b.Every Schema.WrittenOut)
    (hrun : ((intersection scope a b).run s).1 = .error e) (hempty : e.isUnsatisfiable = true) (hv : v.NaNFree)
    (hva : (s.env scope).accepts config a v = .ok true) (hvb : (s.env scope).accepts config b v = .ok true) :
    (s.env scope).Overlooked config a b v := by
  have htrial : (s.env scope).trial = .ok config := hconfig
  have hcandid := Env.meetWithin_candid hexact htrial ((s.env scope).pairFuel a b) [] ha hb false
  have hintersect : ((s.env scope).intersect a b).1 = .error e := hmemo.outcome.symm.trans hrun
  unfold Env.intersect at hintersect
  rw [hintersect] at hcandid
  exact hcandid.2 hempty v hv hva hvb

def texts : Schema := .array (.keyword .string)

def numbers : Schema := .array (.keyword .number)

/-- A list of texts is no list of numbers, but the empty list is both. The error is kept, and the second call meets
it again. -/
theorem overlooked_of_unsatisfiable_empty :
    let session := freshSession.after [.intersection none texts numbers]
    let env := session.env none
    (∃ e, ((intersection none texts numbers).run session).1 = .error e ∧ e.isUnsatisfiable = true) ∧
      env.accepts Config.default texts (.list []) = .ok true ∧
      env.accepts Config.default numbers (.list []) = .ok true ∧
      env.Overlooked Config.default texts numbers (.list []) := by
  intro session env
  have written : ∀ k : Keyword, (Schema.array (.keyword k)).Every Schema.WrittenOut := fun k =>
    .intro trivial fun t ht => by
      obtain rfl := List.mem_singleton.mp ht
      exact .intro trivial nofun
  have sole : ∀ {a t : Schema} {k l : Keyword}, a = .array (.keyword k) → t = .array (.keyword l) → a.Sole t := by
    rintro _ _ k l rfl rfl h
    cases k <;> cases l <;> first | rfl | exact absurd h (by decide)
  have hmemo : session.Reliable none texts numbers := by
    refine Session.reliable_after rfl fun c hc => ?_
    obtain rfl := List.mem_singleton.mp hc
    exact ⟨rfl, ⟨sole rfl rfl, sole rfl rfl⟩, sole rfl rfl, sole rfl rfl⟩
  have hrun : ((intersection none texts numbers).run session).1 =
      .error (.schema (.unsatisfiable (.keyword .string) (.keyword .number) .disjointDomains)) := rfl
  have hn : (Value.list []).NaNFree := Value.throughout_of_children rfl rfl (by simp [Value.children])
  exact ⟨⟨_, hrun, rfl⟩, rfl, rfl,
    overlooked_of_unsatisfiable hmemo rfl rfl (written _) (written _) hrun rfl hn rfl rfl⟩

end Engine
end Schemata
