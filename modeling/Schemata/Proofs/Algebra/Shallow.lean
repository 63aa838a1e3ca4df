import Schemata.Proofs.Algebra.Union
import Schemata.Proofs.Validation.Membership

/-! Unions of schemas that look into no container. The subset test need not be transitive on them: a constraint
over literals alone can stand between two others. Where it is not, branches may drop each other in a circle. -/
namespace Schemata

namespace Schema

/-- A single node of a schema that looks into no container. -/
def Shallow : Schema → Prop
  | .keyword _ => True
  | .literal v => v.isScalar = true
  | .constrained _ cs => ∀ c ∈ cs, c.Plain
  | .union _ => True
  | _ => False

theorem Shallow.fits {d : Dialect} {s : Schema} (h : s.Shallow) : s.Fits d := by
  cases s <;> first | exact h | exact h.elim

end Schema

namespace Env

open Schema

variable {env : Env} {config : Config} {s a b : Schema} {v : Value}

theorem accepts_shallow (hs : s.Every Shallow) :
    Decides (env.accepts config s v) (s.Member env config.exactOptional v) :=
  accepts_decides (Env.grounded_closed Dialect.plain) False.elim (hs.mono fun _ h => h.fits)
    (fun h => h.elim nofun) False.elim

/-- The test answers yes. -/
def Contains (env : Env) (a b : Schema) : Prop := env.isSubset a b = .ok true

/-- Without containers and references the test on plain schemas always answers. -/
theorem plainWithin_shallow {sub : Schema → Schema → Except Fault Bool} (ha : a.Every Shallow)
    (hb : b.Every Shallow)
    (hsub : ∀ s t : Schema, s.Every Shallow → t.Every Shallow → Decides (sub s t) (sub s t = .ok true)) :
    Decides (env.plainWithin sub a b) (env.plainWithin sub a b = .ok true) := by
  obtain ⟨ds, hds, -⟩ := env.domains?_spec (Env.grounded_closed Dialect.plain) true (ha.mono fun _ h => h.fits)
  have keyword : ∀ k : Keyword, (∀ t cs, a ≠ .constrained t cs) →
      Decides (env.plainWithin sub a (.keyword k)) (env.plainWithin sub a (.keyword k) = .ok true) := by
    intro k hno
    cases k <;> cases a <;> simp only [plainWithin, hds, bind, Except.bind] <;>
      first | exact (Decides.ok _).answers | exact absurd rfl (hno _ _) | (cases ds <;> exact (Decides.ok _).answers)
  cases a with
  | keyword k =>
    cases b with
    | keyword l => exact keyword l (by simp)
    | _ => exact (Decides.ok false).answers
  | literal v =>
    cases b with
    | keyword l => exact keyword l (by simp)
    | constrained t ds =>
      exact (Decides.and (hsub _ t ha hb.base) fun _ => Constraint.allAccept_decides hb.root env.hooks v).answers
    | _ => exact (Decides.ok _).answers
  | constrained s cs =>
    cases b with
    | constrained t ds =>
      exact (Decides.and (hsub s t ha.base hb.base) fun _ =>
        Decides.all fun c hc => Constraint.impliedBy_decides (hb.root c hc) ha.root).answers
    | _ => exact hsub s _ ha.base hb
  | union bs =>
    cases b with
    | keyword l => exact keyword l (by simp)
    | _ => exact (Decides.ok false).answers
  | _ => exact ha.root.elim

theorem subsetWithin_shallow {fuel : Nat} {seen : List (Schema × Schema)} (ha : a.Every Shallow)
    (hb : b.Every Shallow) :
    Decides (env.subsetWithin fuel seen a b) (env.subsetWithin fuel seen a b = .ok true) := by
  induction fuel generalizing a b with
  | zero => exact (Decides.ok false).answers
  | succ fuel ih =>
    have plain : Decides (env.plainWithin (env.subsetWithin fuel seen) a b)
        (env.plainWithin (env.subsetWithin fuel seen) a b = .ok true) :=
      plainWithin_shallow ha hb fun s t hs ht => ih hs ht
    unfold subsetWithin
    dsimp only
    by_cases hshort : (a.same b || b.isUnknown || a.isNever) = true
    · rw [if_pos hshort]
      exact (Decides.ok true).answers
    · rw [if_neg hshort]
      have noref : ∀ s : Schema, s.Every Shallow → s.isRef = false := fun s hs => by
        cases s <;> first | rfl | exact hs.root.elim
      rw [if_neg (by simp [noref a ha, noref b hb])]
      cases a with
      | union bs => exact (Decides.all fun s hs => ih (ha.branch hs) hb).answers
      | keyword | literal | constrained =>
        cases b with
        | union bs => exact (Decides.any fun t ht => ih ha (hb.branch ht)).answers
        | keyword | literal | constrained => exact plain
        | _ => exact hb.root.elim
      | _ => exact ha.root.elim

/-- The union accepts nothing new, and it accepts what the branches accept that remain. A value is lost only
where the subset test is not transitive, and never where all constraints stand over more than literals. -/
theorem union_of_shallow {bs : List Schema} (hbs : ∀ s ∈ bs, s.Every Shallow) (config : Config) :
    ∃ u, env.union bs = .ok u ∧ ∀ v : Value, v.Tied →
      (env.accepts config u v = .ok true → ∃ s ∈ bs, env.accepts config s v = .ok true) ∧
      ((∃ s ∈ bs, env.accepts config s v = .ok true) ↔ ∃ s ∈ flat bs, env.accepts config s v = .ok true) ∧
      Decides (env.accepts config u v)
        (∃ s, Remains env.Contains (flat bs) s ∧ env.accepts config s v = .ok true) ∧
      ((∃ s ∈ bs, env.accepts config s v = .ok true) → env.accepts config u v = .ok false →
        ∃ a ∈ flat bs, ∃ b ∈ flat bs, ∃ c ∈ flat bs,
          env.Contains a b ∧ env.Contains b c ∧ ¬ env.Contains a c) ∧
      ((∀ s ∈ bs, s.Every Regular) → (∃ s ∈ bs, env.accepts config s v = .ok true) →
        env.accepts config u v = .ok true) := by
  have hfits : ∀ s ∈ bs, s.Every (Fits Dialect.plain) := fun s hs => (hbs s hs).mono fun _ h => h.fits
  have hflat : ∀ t ∈ flat bs, t.Every Shallow := every_flat trivial hbs
  obtain ⟨kept, hunion, hkept⟩ := union_spec (R := env.Contains) fun a ha b hb =>
    subsetWithin_shallow (hflat a ha) (hflat b hb)
  have hu : (ofBranches kept).Every Shallow := every_ofBranches (fun _ => trivial) fun t ht =>
    hflat t ((hkept t).mp ht).mem
  refine ⟨_, hunion, fun v hv => ?_⟩
  have accepts_iff : ∀ {s : Schema}, s.Every Shallow →
      (env.accepts config s v = .ok true ↔ s.Member env config.exactOptional v) := fun hs => (accepts_shallow hs).iff
  have sources : (∃ s ∈ bs, env.accepts config s v = .ok true) ↔
      ∃ s ∈ flat bs, env.accepts config s v = .ok true := by
    calc (∃ s ∈ bs, env.accepts config s v = .ok true)
        ↔ ∃ s ∈ bs, s.Member env config.exactOptional v :=
          exists_congr fun s => and_congr_right fun hs => accepts_iff (hbs s hs)
      _ ↔ ∃ s ∈ flat bs, s.Member env config.exactOptional v := (member_flat hfits hv).symm
      _ ↔ ∃ s ∈ flat bs, env.accepts config s v = .ok true :=
          exists_congr fun s => and_congr_right fun hs => (accepts_iff (hflat s hs)).symm
  have decides : Decides (env.accepts config (ofBranches kept) v)
      (∃ s, Remains env.Contains (flat bs) s ∧ env.accepts config s v = .ok true) := by
    refine (accepts_shallow hu).congr (member_ofBranches.trans (exists_congr fun t => ?_))
    rw [hkept t]
    exact and_congr_right fun ht => (accepts_iff (hflat t ht.mem)).symm
  have keeps : (∀ a ∈ flat bs, ∀ b ∈ flat bs, ∀ c ∈ flat bs, env.Contains a b → env.Contains b c →
      env.Contains a c) → (∃ s ∈ bs, env.accepts config s v = .ok true) →
      env.accepts config (ofBranches kept) v = .ok true := by
    intro htrans hsome
    obtain ⟨s, hs, h⟩ := sources.mp hsome
    obtain ⟨t, ht, rfl | hsub⟩ := remains_of_mem htrans hs
    · exact decides.eq_true ⟨_, ht, h⟩
    · refine decides.eq_true ⟨t, ht, (accepts_iff (hflat t ht.mem)).mpr ?_⟩
      have closed : ∀ {s : Schema}, s.Every Shallow → s.Every (Fits Dialect.plain) := fun hs =>
        hs.mono fun _ h => h.fits
      exact member_of_isSubset (Env.grounded_closed Dialect.plain) (closed (hflat s hs)) (closed (hflat t ht.mem))
        hsub (fun h => h.elim nofun) ((accepts_iff (hflat s hs)).mp h)
  refine ⟨fun h => ?_, sources, decides, fun hsome hno => ?_, fun hregular => keeps ?_⟩
  · obtain ⟨s, hs, h⟩ := decides.iff.mp h
    exact sources.mpr ⟨s, hs.mem, h⟩
  · by_contra hnone
    push Not at hnone
    have := keeps hnone hsome
    simp [hno] at this
  · have orderly : ∀ t ∈ flat bs, t.Orderly Dialect.plain :=
      every_flat ⟨trivial, trivial⟩ fun s hs => (hfits s hs).and ((hregular s hs).mono fun _ h => h.ordered)
    intro a ha b hb c hc hab hbc
    have below : ∀ {s t : Schema}, s ∈ flat bs → t ∈ flat bs → (env.Contains s t ↔ Below s t) := fun hs ht =>
      (isSubset_decides (orderly _ hs) (orderly _ ht)).iff
    exact (below ha hc).mpr (((below ha hb).mp hab).trans (orderly a ha) (orderly b hb) (orderly c hc)
      ((below hb hc).mp hbc))

/-- Three schemas that each lie inside another one. -/
def circle : List Schema :=
  [.constrained (.literal (.int 5)) [.range ⟨some (.int 5), some (.int 5), false, false⟩], .literal (.int 5),
    .constrained (.literal (.int 5)) [.range ⟨some (.int 0), some (.int 10), false, false⟩]]

theorem shallow_circle : ∀ s ∈ circle, s.Every Shallow := by
  have five : (literal (.int 5)).Every Shallow := .intro rfl (by simp [parts])
  have ranged : ∀ r : Range, r.Numeric → (constrained (literal (.int 5)) [.range r]).Every Shallow := fun r hr =>
    .intro (by simpa [Shallow, Constraint.Plain] using hr) (by simpa [parts] using five)
  have bounded : ∀ a b : Int, Range.Numeric ⟨some (.int a), some (.int b), false, false⟩ := by
    intro a b
    have point : ∀ n : Int, ∃ p, (Value.int n).point? = some p := fun n => ⟨_, rfl⟩
    simp [Range.Numeric, Range.Side.Numeric, Range.low, Range.high, point]
  simp only [circle, List.forall_mem_cons, List.not_mem_nil, IsEmpty.forall_iff, implies_true, and_true]
  exact ⟨ranged _ (bounded 5 5), five, ranged _ (bounded 0 10)⟩

/-- All three go, and with them their one value. -/
theorem union_of_circle : (∀ s ∈ circle, s.Every Shallow) ∧ bare.union circle = .ok never ∧
    (∃ s ∈ circle, bare.accepts Config.default s (.int 5) = .ok true) ∧
    bare.accepts Config.default never (.int 5) = .ok false ∧
    ∃ a ∈ flat circle, ∃ b ∈ flat circle, ∃ c ∈ flat circle,
      bare.Contains a b ∧ bare.Contains b c ∧ ¬ bare.Contains a c := by
  have hunion : bare.union circle = .ok never := rfl
  have hsome : ∃ s ∈ circle, bare.accepts Config.default s (.int 5) = .ok true :=
    ⟨.literal (.int 5), by simp [circle], rfl⟩
  have hnone : bare.accepts Config.default never (.int 5) = .ok false := rfl
  obtain ⟨u, hu, h⟩ := union_of_shallow shallow_circle Config.default
  obtain rfl : never = u := Except.ok.inj (hunion.symm.trans hu)
  obtain ⟨-, -, -, hcircle, -⟩ := h (.int 5) trivial
  exact ⟨shallow_circle, hunion, hsome, hnone, hcircle hsome hnone⟩

end Env
end Schemata
