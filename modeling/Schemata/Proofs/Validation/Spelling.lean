import Schemata.Proofs.Schema.Spelling
import Schemata.Proofs.Validation.Keys

/-! Validation does not look at the spelling of numbers, apart from their class: schemas that differ in spellings
accept the same values, and a schema that asks for no class accepts all spellings of a number or none. -/
namespace Schemata

namespace Range

variable {r s : Range} {n m : Number}

theorem beyond?_respells (c : Comparison) (hnm : (Value.number n).Weighs (.number m)) {o p : Option Value}
    (ho : Option.Rel Value.Weighs o p) {f g : Value → Verdict} (hfg : ∀ v w, (f v).isValid = (g w).isValid) :
    Agree (fun _ _ => True) (fun x y => x.map (·.isValid) = y.map (·.isValid)) (beyond? c o n f)
      (beyond? c p m g) := by
  cases ho with
  | none => exact rfl
  | @some v w hvw =>
    refine (Value.holds_weighs c hnm hvw).bind ?_
    rintro beyond _ rfl
    cases beyond with
    | true => exact congrArg some (hfg v w)
    | false => exact rfl

/-- Two spellings of a range take all spellings of a number or none. -/
theorem Respells.check (h : r.Respells s) (hnm : (Value.number n).Weighs (.number m)) :
    Agree (fun _ _ => True) (fun a b => a.isValid = b.isValid) (r.check (.number n)) (s.check (.number m)) := by
  have low : Agree (fun _ _ => True) (fun x y => x.map (·.isValid) = y.map (·.isValid)) (r.low? n) (s.low? m) := by
    unfold low?
    rw [h.aboveLeast]
    split_ifs <;> exact beyond?_respells _ hnm h.least fun _ _ => rfl
  have high : Agree (fun _ _ => True) (fun x y => x.map (·.isValid) = y.map (·.isValid)) (r.high? n) (s.high? m) := by
    unfold high?
    rw [h.belowGreatest]
    split_ifs <;> exact beyond?_respells _ hnm h.greatest fun _ _ => rfl
  refine low.bind fun x y hxy => ?_
  cases x <;> cases y <;> simp only [Option.map_some, Option.map_none, Option.some.injEq, reduceCtorEq] at hxy
  · refine high.bind fun x y hxy => ?_
    cases x <;> cases y <;> simp only [Option.map_some, Option.map_none, Option.some.injEq, reduceCtorEq] at hxy
    · exact rfl
    · exact hxy
  · exact hxy

end Range

/-- Values that constraints do not tell apart: one value, or two spellings of a number where nothing asks for its
class. -/
def Value.Passes (blind : Prop) (v w : Value) : Prop := v = w ∨ blind ∧ v.Renumbers w

namespace Constraint

variable {hooks : Hooks} {blind : Prop} {c d : Constraint} {V : Value → Value → Prop}

theorem checkLiteral_valid (a v : Value) : (a.checkLiteral v).isValid = a.literalEqual v := by
  unfold Value.checkLiteral
  cases a.literalEqual v <;> rfl

theorem type_check_valid (t : TypeTag) (v : Value) : (t.check v).isValid = t.holds v := by
  unfold TypeTag.check
  cases t.holds v <;> rfl

/-- Constraints that differ in spellings answer alike. -/
theorem Respells.like (h : Respells blind c d) (hV : ∀ v w, V v w → v.Passes blind w) : c.Like hooks V d := by
  intro v w hvw
  have one : v = w → Agree (fun e f => (Fault.check e).Akin (.check f)) (fun a b => a.isValid = b.isValid)
      (c.check hooks v) (c.check hooks w) := Likeness.like_of_eq (V := (· = ·)) (fun _ _ h => h) c v w
  rcases hV v w hvw with rfl | ⟨hblind, n, m, p, rfl, rfl, hn, hm⟩
  · cases h with
    | @range r s h =>
      cases v with
      | number n => exact (h.check (Or.inl ⟨rfl, trivial⟩)).mapError fun _ _ _ => .refl (e := .check (.order _)) rfl
      | _ => exact rfl
    | @equals a b h =>
      show (a.checkLiteral v).isValid = (b.checkLiteral v).isValid
      rw [checkLiteral_valid, checkLiteral_valid, h.literalEqual (Or.inl rfl)]
    | _ => exact one rfl
  · cases h with
    | @range r s h =>
      exact (h.check (Or.inr ⟨p, hn, hm⟩)).mapError fun _ _ _ => .refl (e := .check (.order _)) rfl
    | length l => exact rfl
    | pattern q => exact rfl
    | @equals a b h =>
      show (a.checkLiteral _).isValid = (b.checkLiteral _).isValid
      rw [checkLiteral_valid, checkLiteral_valid, h.literalEqual (Or.inr ⟨n, m, p, rfl, rfl, hn, hm⟩)]
    | type t h =>
      obtain ⟨hint, hfloat⟩ := h hblind
      have holds : ∀ k l : Number, t.holds (.number k) = t.holds (.number l) := by
        intro k l
        cases k <;> cases l <;> cases t <;> first | rfl | exact absurd rfl hint | exact absurd rfl hfloat
      show (t.check _).isValid = (t.check _).isValid
      rw [type_check_valid, type_check_valid, holds n m]
    | predicate q h => exact absurd hblind h

end Constraint

namespace Likeness

variable {blind : Prop} {V : Value → Value → Prop}

/-- Schemas that differ in spellings answer alike. -/
theorem spelling_suits (env : Env) (config config' : Config) (hV : ∀ v w, V v w → v.Passes blind w)
    (hcontainers : (∀ v w, V v w → v.isScalar = true ∧ w.isScalar = true) ∨ V = (· = ·) ∧ config = config') :
    (spelling blind).Suits env config config' V where
  keyword := by
    intro v w hvw k
    rcases hV v w hvw with rfl | ⟨-, h⟩
    · rfl
    · exact Value.Respells.holds (Or.inr h) k
  domain := by
    intro v w hvw
    rcases hV v w hvw with rfl | ⟨-, h⟩
    · rfl
    · exact Value.Respells.domain (Or.inr h)
  literal := by
    rintro a b ⟨hab, -⟩ v w hvw
    have hvw : v = w ∨ v.Renumbers w := (hV v w hvw).imp id And.right
    have hdomain : v.domain = w.domain := by
      rcases hvw with rfl | h
      · rfl
      · exact Value.Respells.domain (Or.inr h)
    rw [hdomain, hab.domain, hab.literalEqual hvw]
  literals a b hab := hab.1.domain
  constraint c d hcd := hcd.like hV
  containers := by
    rcases hcontainers with h | ⟨rfl, rfl⟩
    · exact Or.inl h
    · exact Or.inr ⟨rfl, rfl, fun _ _ h => h⟩

end Likeness

namespace Env

variable {env : Env} {blind : Prop} {s t : Schema} {v w : Value}

/-- What stands behind references is well formed, and where `blind` holds it asks for no class of numbers. -/
def Spelled (env : Env) (blind : Prop) : Prop :=
  ∀ r t, env.resolve? r = .ok (some t) → Schema.Alike (.spelling blind) t t

theorem Spelled.stored (h : env.Spelled blind) (config : Config) (r : Ref) :
    config.maxDepth = config.maxDepth ∧ ∀ t, env.resolve r = .ok t → Schema.Alike (.spelling blind) t t := by
  refine ⟨rfl, fun t ht => h r t ?_⟩
  unfold resolve at ht
  unfold resolve?
  cases htarget : env.target r <;> simp only [htarget, reduceCtorEq, Except.ok.injEq] at ht
  rw [ht]

/-- Schemas that differ in spellings accept the same values. -/
theorem accepts_respelled (hstored : env.Spelled blind) (config : Config) (h : Schema.Alike (.spelling blind) s t)
    (v : Value) : Agree Fault.Akin (· = ·) (env.accepts config s v) (env.accepts config t v) := by
  refine accepts_alike (V := (· = ·)) ?_ (fun r _ => hstored.stored config r) h rfl
  exact Likeness.spelling_suits env config config (fun _ _ h => Or.inl h) (Or.inr ⟨rfl, rfl⟩)

/-- Where nothing asks for a class of numbers, schemas that differ in spellings accept the same numbers, however
these are spelled. -/
theorem accepts_renumbered (hstored : env.Spelled blind) (config : Config) (h : Schema.Alike (.spelling blind) s t)
    (hblind : blind) (hvw : v.Renumbers w) :
    Agree Fault.Akin (· = ·) (env.accepts config s v) (env.accepts config t w) := by
  refine accepts_alike (V := Value.Renumbers) ?_ (fun r _ => hstored.stored config r) h hvw
  refine Likeness.spelling_suits env config config (fun _ _ h => Or.inr ⟨hblind, h⟩) (Or.inl ?_)
  rintro _ _ ⟨n, m, p, rfl, rfl, -⟩
  exact ⟨rfl, rfl⟩

end Env

namespace Schema

/-- No constraint of the node asks for a class of numbers. -/
def Blind (s : Schema) : Prop := ∀ c ∈ s.split.2, c.Blind

/-- A well-formed schema differs from itself in spellings at most. -/
theorem alike_self {linked blind : Prop} {s : Schema} (hs : s.Every (KeyNode linked))
    (hb : s.Every fun t => blind → t.Blind) :
    Alike { Likeness.spelling blind with named := fun _ => linked } s s := by
  refine .refl ((hs.and hb).mono fun s hs => ?_)
  have hnode := hs.1
  cases s with
  | keyword k => rfl
  | literal v => exact ⟨Or.inl ⟨rfl, hnode⟩, Or.inl rfl⟩
  | constrained t cs =>
    exact List.forall₂_same.mpr fun c hc => .self (hnode c hc) fun hblind => hs.2 hblind c hc
  | union bs => trivial
  | intersection ms => trivial
  | ref r => exact ⟨rfl, hnode⟩
  | object o =>
    refine ⟨List.forall₂_same.mpr fun p _ => ⟨rfl, ?_⟩, rfl, rfl⟩
    cases p.presence <;> trivial
  | tuple es =>
    refine List.forall₂_same.mpr fun e _ => ?_
    cases e.role <;> trivial

end Schema

namespace Env

variable {env : Env} {config : Config} {s : Schema} {v w : Value}

/-- A schema without references that asks for no class of numbers accepts all spellings of a number or none. -/
theorem accepts_renumbers (hs : s.Every (Schema.KeyNode False)) (hb : s.Every Schema.Blind) (hvw : v.Renumbers w) :
    Agree Fault.Akin (· = ·) (env.accepts config s v) (env.accepts config s w) := by
  have hsuits : (Likeness.spelling True).Suits env config config Value.Renumbers := by
    refine Likeness.spelling_suits env config config (fun _ _ h => Or.inr ⟨trivial, h⟩) (Or.inl ?_)
    rintro _ _ ⟨n, m, p, rfl, rfl, -⟩
    exact ⟨rfl, rfl⟩
  refine accepts_alike (l := { Likeness.spelling True with named := fun _ => False }) ?_ nofun
    (Schema.alike_self hs (hb.mono fun _ h _ => h)) hvw
  exact ⟨hsuits.keyword, hsuits.domain, hsuits.literal, hsuits.literals, hsuits.constraint, hsuits.containers⟩

end Env
end Schemata
