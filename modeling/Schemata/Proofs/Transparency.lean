import Schemata.Proofs.Algebra.Exactness
import Schemata.Proofs.Algebra.Stops
import Schemata.Proofs.Algebra.SpelledMeets
import Schemata.Proofs.History

/-! The memo is transparent. It may answer with what was worked out for other schemas than the given ones; these
are equal to them. As long as equal schemas differ in the spelling of numbers only, nobody can tell. -/
namespace Schemata

namespace Value

variable {v w : Value}

/-- Equal scalars of one domain are one value, or two spellings of one number. -/
theorem respells_of_same (hv : v.isScalar = true) (hd : v.domain = w.domain) (h : v.same w = true) : v.Respells w := by
  have tied : v.Tied := by cases v <;> trivial
  rcases (same_scalar_iff hv hd).mp h with (h | ⟨-, rfl⟩) | rfl
  · exact Or.inr h
  · exact Or.inl ⟨rfl, tied⟩
  · exact Or.inl ⟨rfl, tied⟩

end Value

/-- Equal constraints of this kind differ in the spelling of numbers only: bounds and literals are scalars, and no
literal is a truth value, which would equal a number. Where `blind` holds nothing asks for a class of numbers. -/
def Constraint.Clear (blind : Prop) : Constraint → Prop
  | .range r => (∀ v ∈ r.least, v.isScalar = true) ∧ ∀ v ∈ r.greatest, v.isScalar = true
  | .equals v => v.isScalar = true ∧ v.domain ≠ .boolean
  | c => blind → c.Blind

namespace Constraint

variable {blind : Prop} {c d : Constraint}

theorem respells_of_same (hc : c.Clear blind) (hd : d.Clear blind) (h : c.same d = true) : Respells blind c d := by
  have bound : ∀ {o p : Option Value}, (∀ v ∈ o, v.isScalar = true) → sameBound o p = true →
      Option.Rel Value.Weighs o p := by
    intro o p ho h
    cases o <;> cases p <;> first | exact absurd h Bool.false_ne_true | skip
    · exact .none
    · exact .some (Value.weighs_of_same (ho _ rfl) h)
  cases c <;> cases d <;> simp only [Constraint.same, Bool.false_eq_true] at h
  case range.range r s =>
    simp only [Range.same, Bool.and_eq_true, beq_iff_eq] at h
    exact .range ⟨bound hc.1 h.1.1.1, bound hc.2 h.1.1.2, h.1.2, h.2⟩
  case length.length => exact eq_of_beq h ▸ .length _
  case pattern.pattern => exact eq_of_beq h ▸ .pattern _
  case equals.equals v w =>
    exact .equals (Value.respells_of_same hc.1 (Value.domain_of_same hc.1 hc.2 hd.2 h) h)
  case type.type => exact eq_of_beq h ▸ .type _ hc
  case predicate.predicate => exact eq_of_beq h ▸ .predicate _ hc

end Constraint

namespace Schema

variable {blind : Prop} {s t : Schema}

/-- A single node of this kind: literals are scalars, and numbers only where `blind` holds; there are no defaults. -/
def Clear (blind : Prop) : Schema → Prop
  | .literal v => v.isScalar = true ∧ (v.domain = .number → blind)
  | .constrained _ cs => ∀ c ∈ cs, c.Clear blind
  | .object o => ∀ p ∈ o.properties, p.presence.default? = none
  | .tuple es => ∀ e ∈ es, e.role.default? = none
  | _ => True

theorem Clear.defaults (h : s.Clear blind) : s.defaults = [] := by
  cases s with
  | object o => exact List.filterMap_eq_nil_iff.mpr h
  | tuple es => exact List.filterMap_eq_nil_iff.mpr h
  | _ => rfl

/-- Equal schemas of this kind differ in the spelling of numbers only. -/
theorem alike_of_same_of_clear (hs : s.Every (Clear blind)) (ht : t.Every (Clear blind)) (h : s.same t = true) :
    Alike (.spelling blind) s t := by
  refine (alike_of_same h).change hs ht fun s t hs ht hform => hform.change ?_ ?_ ?_ fun _ _ _ => trivial
  · rintro v w rfl rfl ⟨hsame, hdomain⟩
    have hvw := Value.respells_of_same hs.1 hdomain hsame
    refine ⟨hvw, ?_⟩
    rcases hvw with ⟨rfl, -⟩ | ⟨n, m, p, rfl, rfl, -⟩
    · exact Or.inl rfl
    · exact Or.inr (hs.2 rfl)
  · intro c hc d hd hsame
    cases s <;> cases t <;> first | exact absurd hc List.not_mem_nil | exact absurd hd List.not_mem_nil | skip
    exact Constraint.respells_of_same (hs c hc) (ht d hd) hsame
  · intro p hp
    rw [hs.defaults] at hp
    exact absurd hp List.not_mem_nil

end Schema

namespace Engine

variable {s : Session} {scope : Option Nat} {calls : List Call} {P : Schema → Prop} {blind : Prop} {a b : Schema}

/-- After any calls an intersection ends as it does with an empty memo: with an error of the same class, or with a
schema that accepts the same values. Equal schemas of those that are intersected may differ in the spelling of
numbers, and the calls come from scopes with one configuration. -/
theorem intersection_after (hmemo : s.memo.entries = []) (hstored : (s.env scope).Spelled blind)
    (hspelled : ∀ p q, P p → P q → p.same q = true → Schema.Alike (.spelling blind) p q)
    (hcalls : ∀ c ∈ calls, c.Fits s (s.env scope) P) (ha : P a) (hb : P b) :
    Agree (fun e f => e.className = f.className)
      (fun c d => ∀ config v, Agree Fault.Akin (· = ·) ((s.env scope).accepts config c v)
        ((s.env scope).accepts config d v))
      ((intersection scope a b).run (s.after calls)).1 ((intersection scope a b).run s).1 := by
  have hself : ∀ x : Except Fault Schema, Agree (fun e f => e.className = f.className)
      (fun c d => ∀ config v, Agree Fault.Akin (· = ·) ((s.env scope).accepts config c v)
        ((s.env scope).accepts config d v)) x x := by
    intro x
    apply Agree.refl
    · exact fun e _ => rfl
    · exact fun c config v => (Env.accepts_quiet _ config c v).akin
  obtain ⟨hagrees, hrecalls⟩ := (Session.recalls_of_empty hmemo).after hcalls
  rw [run_intersection hmemo]
  rcases hrecalls.outcome (hagrees scope) with hfresh | ⟨p, q, p', q', ⟨hp, hq⟩, ⟨hp', hq'⟩, hkey, hkept, hrun⟩
  · rw [hfresh]
    exact hself _
  · -- What was kept was worked out for `p'` and `q'`; both pairs equal the key `p` and `q`.
    have hpa := (hspelled p p' hp hp' hkept.1).respelled.respell (hspelled p a hp ha hkey.1)
    have hqb := (hspelled q q' hq hq' hkept.2).respelled.respell (hspelled q b hq hb hkey.2)
    rw [hrun]
    refine ((Env.intersect_respelled hstored hpa hqb).mono fun c d hcd config v => ?_).monoError fun e f h => h.1
    exact Env.accepts_respelled hstored config hcd v

/-- The literal zero, as a double of one sign or the other. -/
def zero (negative : Bool) : Schema := .literal (.number (.double (.finite negative 0)))

/-- Asked for the number minus zero, the session answers zero, which it had worked out before. -/
theorem intersection_after_zero :
    let calls := [.merge none (zero false) (.mapping []), .intersection none (zero false) (.keyword .number)]
    ((intersection none (zero true) (.keyword .number)).run (freshSession.after calls)).1 = .ok (zero false) ∧
      ((intersection none (zero true) (.keyword .number)).run freshSession).1 = .ok (zero true) ∧
      ∀ config v, Agree Fault.Akin (· = ·) ((freshSession.env none).accepts config (zero false) v)
        ((freshSession.env none).accepts config (zero true) v) := by
  intro calls
  have clear : ∀ negative, (zero negative).Every (Schema.Clear True) := fun negative =>
    .intro ⟨rfl, fun _ => trivial⟩ nofun
  have number : (Schema.keyword .number).Every (Schema.Clear True) := .intro trivial nofun
  have hrun : ((intersection none (zero true) (.keyword .number)).run (freshSession.after calls)).1 =
      .ok (zero false) := rfl
  have hfresh : ((intersection none (zero true) (.keyword .number)).run freshSession).1 = .ok (zero true) := rfl
  have hcalls : ∀ c ∈ calls, c.Fits freshSession (freshSession.env none) fun t => t.Every (Schema.Clear True) := by
    intro c hc
    rcases List.mem_cons.mp hc with rfl | hc
    · trivial
    · obtain rfl := List.mem_singleton.mp hc
      exact ⟨rfl, clear false, number⟩
  have hstored : (freshSession.env none).Spelled True := by
    intro r t h
    cases show (Except.error _ : Except Fault (Option Schema)) = .ok (some t) from h
  have h := intersection_after rfl hstored
    (fun p q hp hq => Schema.alike_of_same_of_clear hp hq) hcalls (clear true) number
  rw [hrun, hfresh] at h
  exact ⟨hrun, hfresh, h⟩

end Engine
end Schemata
