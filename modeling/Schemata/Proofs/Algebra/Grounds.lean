import Schemata.Proofs.Algebra.Shapes

/-! What a yes of the subset test rests on. Every argument from a yes to a property that the larger schema inherits
goes by these cases. -/
namespace Schemata
namespace Env

variable {env : Env} {sub : Schema → Schema → Except Fault Bool} {a b : Schema}

/-- The grounds of the test on two schemas of which neither is a reference, the first no union and the second no
union or intersection. -/
inductive PlainGrounds (env : Env) (sub : Schema → Schema → Except Fault Bool) : Schema → Schema → Prop
  | constrained {s t : Schema} {cs ds : List Constraint} : sub s t = .ok true →
      (∀ d ∈ ds, d.impliedBy cs = .ok true) → PlainGrounds env sub (.constrained s cs) (.constrained t ds)
  | base {s b : Schema} {cs : List Constraint} : sub s b = .ok true → PlainGrounds env sub (.constrained s cs) b
  | accepted {v : Value} {t : Schema} {ds : List Constraint} : sub (.literal v) t = .ok true →
      Constraint.allAccept env.hooks v ds = .ok true → PlainGrounds env sub (.literal v) (.constrained t ds)
  | integer {v : Value} : Keyword.integer.holds v = true → PlainGrounds env sub (.literal v) (.keyword .integer)
  | domains {a : Schema} {k : Keyword} {d : DomainSet} : k ≠ .integer → env.domains? a = .ok (some d) →
      d.subset k.domains = true → PlainGrounds env sub a (.keyword k)
  | literal {v w : Value} : v.domain = w.domain → v.literalEqual w = true →
      PlainGrounds env sub (.literal v) (.literal w)
  | object {p q : ObjectShape Schema} : ObjectShape.within env.admits sub p q = .ok true →
      PlainGrounds env sub (.object p) (.object q)
  | tuple {es fs : List (Element Schema)} : Element.within sub es fs = .ok true →
      PlainGrounds env sub (.tuple es) (.tuple fs)

theorem plainWithin_grounds (h : env.plainWithin sub a b = .ok true) : env.PlainGrounds sub a b := by
  unfold plainWithin at h
  split at h
  · obtain ⟨hbase, hall⟩ := ok_true_of_ite h
    exact .constrained hbase (allM_ok_true hall)
  · exact .base h
  · obtain ⟨hbase, hall⟩ := ok_true_of_ite h
    exact .accepted hbase hall
  · simp at h
  · exact .integer (Except.ok.inj h)
  · simp at h
  · rename_i k hne _ _
    obtain ⟨ds, hds, h⟩ := bind_ok h
    cases ds with
    | none => simp [pure, Except.pure] at h
    | some d => exact .domains hne hds (Except.ok.inj h)
  · simp only [Except.ok.injEq, Bool.and_eq_true, beq_iff_eq] at h
    exact .literal h.1 h.2
  · exact .object h
  · exact .tuple h
  · simp at h

/-- The grounds of the test with one call to spend beyond the given number. -/
inductive Grounds (env : Env) (fuel : Nat) (seen : List (Schema × Schema)) : Schema → Schema → Prop
  | same {a b : Schema} : a.same b = true → Grounds env fuel seen a b
  | unknown {a : Schema} : Grounds env fuel seen a .unknown
  | never {b : Schema} : Grounds env fuel seen .never b
  | met {a b : Schema} : (a.isRef || b.isRef) = true → a.pairIn b seen = true → Grounds env fuel seen a b
  | behind {a b s t : Schema} : (a.isRef || b.isRef) = true → env.behind? a = .ok (some s) →
      env.behind? b = .ok (some t) → env.subsetWithin fuel ((a, b) :: seen) s t = .ok true → Grounds env fuel seen a b
  | branches {bs : List Schema} {b : Schema} : (∀ s ∈ bs, env.subsetWithin fuel seen s b = .ok true) →
      Grounds env fuel seen (.union bs) b
  | members {a : Schema} {ms : List Schema} : (∀ t ∈ ms, env.subsetWithin fuel seen a t = .ok true) →
      Grounds env fuel seen a (.intersection ms)
  | member {ms : List Schema} {s b : Schema} : s ∈ ms → env.subsetWithin fuel seen s b = .ok true →
      Grounds env fuel seen (.intersection ms) b
  | branch {a : Schema} {bs : List Schema} {t : Schema} : t ∈ bs → env.subsetWithin fuel seen a t = .ok true →
      Grounds env fuel seen a (.union bs)
  | plain {a b : Schema} : env.PlainGrounds (env.subsetWithin fuel seen) a b → Grounds env fuel seen a b

theorem subsetWithin_grounds {fuel : Nat} {seen : List (Schema × Schema)}
    (h : env.subsetWithin (fuel + 1) seen a b = .ok true) : env.Grounds fuel seen a b := by
  unfold subsetWithin at h
  by_cases hshort : (a.same b || b.isUnknown || a.isNever) = true
  · simp only [Bool.or_eq_true] at hshort
    rcases hshort with (hsame | hunknown) | hnever
    · exact .same hsame
    · rw [Schema.eq_unknown hunknown]
      exact .unknown
    · rw [Schema.eq_never hnever]
      exact .never
  rw [if_neg hshort] at h
  by_cases href : (a.isRef || b.isRef) = true
  · rw [if_pos href] at h
    obtain ⟨_, -, h⟩ := bind_ok h
    by_cases hin : a.pairIn b seen = true
    · exact .met href hin
    rw [if_neg hin] at h
    obtain ⟨s?, hs, h⟩ := bind_ok h
    obtain ⟨t?, ht, h⟩ := bind_ok h
    cases s? with
    | none => simp [pure, Except.pure] at h
    | some s =>
    cases t? with
    | none => simp [pure, Except.pure] at h
    | some t => exact .behind href hs ht h
  rw [if_neg href] at h
  split at h
  · exact .branches (allM_ok_true h)
  · exact .members (allM_ok_true h)
  · obtain ⟨found, hany, h⟩ := bind_ok h
    cases found with
    | true =>
      obtain ⟨s, hs, hsub⟩ := anyM_ok_true hany
      exact .member hs hsub
    | false =>
      simp only [Bool.false_eq_true, if_false] at h
      split at h
      · obtain ⟨t, ht, hsub⟩ := anyM_ok_true h
        exact .branch ht hsub
      · exact .plain (plainWithin_grounds h)
  · obtain ⟨t, ht, hsub⟩ := anyM_ok_true h
    exact .branch ht hsub
  · exact .plain (plainWithin_grounds h)

end Env
end Schemata
