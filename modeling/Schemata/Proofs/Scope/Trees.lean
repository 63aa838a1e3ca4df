import Schemata.Proofs.Scope.Reading
import Schemata.Proofs.Scope.Usable

/-! Definitions made of plain data and sound constraints. They are read as schemas that can be used, or refused with an
error that was to be foreseen. -/
namespace Schemata
namespace Value

/-- Plain data with sound constraints anywhere in it, and nothing that cannot be copied. -/
inductive Tree : Value → Prop
  | null : Tree .null
  | undefined : Tree .undefined
  | bool (b : Bool) : Tree (.bool b)
  | number (n : Number) : Tree (.number n)
  | string (s : String) : Tree (.string s)
  | symbol (s : Symbol) : Tree (.symbol s)
  | list {items : List Value} : (∀ v ∈ items, Tree v) → Tree (.list items)
  | tuple {label : Option Token} {items : List Value} : (∀ v ∈ items, Tree v) → Tree (.tuple label items)
  | mapping {entries : List (Value × Value)} : (∀ e ∈ entries, Tree e.1) → (∀ e ∈ entries, Tree e.2) →
      Tree (.mapping entries)
  | constraint {v : Value} {c : Constraint} : Constraint.ofData? v = some c → c.Sound → v.isCopyable = true → Tree v

/-- Somewhere the definition quotes data that may change: as a literal, or in a constraint. -/
inductive Quotes : Value → Prop
  | literal {d head v : Value} {q : Sequence} {rest : List Value} : d.items? = some (q, head :: rest) →
      head.isToken "===" = true → v ∈ rest → v.changeable? ≠ none → Quotes d
  | constraint {v : Value} {c : Constraint} : Constraint.ofData? v = some c → c.changeable? ≠ none → Quotes v
  | item {d v : Value} {q : Sequence} {items : List Value} : d.items? = some (q, items) → v ∈ items → Quotes v →
      Quotes d
  | entry {e : Value × Value} {entries : List (Value × Value)} : e ∈ entries → Quotes e.2 → Quotes (.mapping entries)

theorem record_of_constraint {v : Value} {c : Constraint} (h : Constraint.ofData? v = some c) :
    ∃ kind token parts, v = .record kind token parts ∧ kind.isConstraint = true := by
  cases v with
  | record kind token parts =>
    refine ⟨kind, token, parts, rfl, ?_⟩
    cases kind <;> first | rfl | cases h
  | _ => cases h

variable {v : Value}

theorem Tree.isCopyable (h : v.Tree) : v.isCopyable = true := by
  have all : ∀ vs : List Value, (∀ v ∈ vs, v.isCopyable = true) → areCopyable vs = true := by
    intro vs
    induction vs with
    | nil => exact fun _ => rfl
    | cons v vs ih =>
      intro h
      rw [List.forall_mem_cons] at h
      simp [areCopyable, h.1, ih h.2]
  induction h with
  | list _ ih => exact all _ ih
  | tuple _ ih => exact all _ ih
  | @mapping entries _ _ ihkeys ih =>
    have entries : ∀ es : List (Value × Value), (∀ e ∈ es, e.1.isCopyable = true) →
        (∀ e ∈ es, e.2.isCopyable = true) → areEntriesCopyable es = true := by
      intro es
      induction es with
      | nil => exact fun _ _ => rfl
      | cons e es ih =>
        intro hkeys hes
        rw [List.forall_mem_cons] at hkeys hes
        simp [areEntriesCopyable, hkeys.1, hes.1, ih hkeys.2 hes.2]
    exact entries _ ihkeys ih
  | constraint _ _ h => exact h
  | _ => rfl

theorem Tree.items {q : Sequence} {items : List Value} (h : v.Tree) (hv : v.items? = some (q, items)) :
    ∀ w ∈ items, w.Tree := by
  cases h with
  | list h =>
    obtain ⟨-, rfl⟩ := Prod.mk.inj (Option.some.inj hv)
    exact h
  | tuple h =>
    obtain ⟨-, rfl⟩ := Prod.mk.inj (Option.some.inj hv)
    exact h
  | constraint h =>
    obtain ⟨kind, token, parts, rfl, -⟩ := record_of_constraint h
    cases hv
  | _ => cases hv

theorem Tree.ofData?_eq_none (h : v.Tree) : Schema.ofData? v = none ∧ Producer.ofData? v = none := by
  cases h with
  | constraint h =>
    obtain ⟨kind, token, parts, rfl, hkind⟩ := record_of_constraint h
    cases kind <;> first | exact ⟨rfl, rfl⟩ | cases hkind
  | _ => exact ⟨rfl, rfl⟩

/-- What has no parts cannot change. -/
theorem changeable?_of_scalar (h : v.isScalar = true) : v.changeable? = none := by
  cases v <;> first | rfl | cases h

/-- The source of a default is an item of the definition. -/
theorem mem_of_form {d source : Value} (h : d.form = .default source) :
    ∃ q items, d.items? = some (q, items) ∧ source ∈ items := by
  unfold form at h
  cases hd : d.items? with
  | none => simp [hd] at h
  | some p =>
    obtain ⟨q, items⟩ := p
    refine ⟨q, items, rfl, ?_⟩
    simp only [hd] at h
    unfold formOf at h
    split at h
    · split_ifs at h
    · split_ifs at h
      obtain rfl := Form.default.inj h
      simp
    · cases h

end Value

namespace Engine

variable {α : Type} {quoted unset looped : Prop} {s₀ : Session} {scope : Option Nat} {P : α → Prop}

theorem producerOf_usable {source : Value} (h : source.Tree) :
    Runs (Session.Near quoted s₀) (producerOf source) Producer.Copyable (Fault.Foreseen quoted unset looped) := by
  unfold producerOf
  rw [h.ofData?_eq_none.2]
  exact fun _ hs => ⟨fun _ => h.isCopyable, hs.1, hs.2.stored, hs.2.memo, hs.2.waiting⟩

theorem normalized_usable {key : Schema} (value : Schema) (hkey : key.Usable quoted) :
    (IndexSignature.normalized key value).key.Usable quoted := by
  have pattern : ∀ p : Pattern, (Regex.read (.ofInt p.flags) p.source).toBool = true →
      (Schema.constrained (.keyword .string) [.pattern p]).Usable quoted := by
    intro p hp
    have hcompiles : p.Compiles := by
      cases hread : Regex.read (.ofInt p.flags) p.source with
      | ok r => exact ⟨r, hread⟩
      | error e => simp [hread, Except.toBool] at hp
    exact .intro (Schema.usableNode_constrained.mpr (List.forall_mem_singleton.mpr ⟨hcompiles, Or.inr rfl⟩))
      (List.forall_mem_singleton.mpr Schema.usable_keyword)
  unfold IndexSignature.normalized
  split
  · exact pattern _ (by decide +kernel)
  · exact pattern _ (by decide +kernel)
  · exact hkey

/-- Nothing that may change is quoted, unless some is. -/
theorem literal_usable {d head v : Value} {q : Value.Sequence} {rest : List Value} (hq : d.Quotes → quoted)
    (hd : d.items? = some (q, head :: rest)) (hmark : head.isToken "===" = true) (hv : v ∈ rest) :
    (Schema.literal v).Usable quoted := by
  rw [Schema.usable_literal]
  by_cases hchange : v.changeable? = none
  · exact Or.inr hchange
  · exact Or.inl (hq (.literal hd hmark hv hchange))

theorem constraint_usable {v : Value} {c : Constraint} (hv : v.Tree) (hq : v.Quotes → quoted)
    (h : Constraint.ofData? v = some c) : c.Usable quoted := by
  refine ⟨?_, ?_⟩
  · cases hv with
    | constraint hc hsound => exact Option.some.inj (hc.symm.trans h) ▸ hsound
    | _ => cases h
  · by_cases hchange : c.changeable? = none
    · exact Or.inr hchange
    · exact Or.inl (hq (.constraint h hchange))

theorem spreadOf_usable (hs₀ : s₀.Foresees unset looped scope) (d : Value) {s : Schema} (hs : s.Usable quoted) :
    Runs (Session.Near quoted s₀) (spreadOf scope d s)
      (fun es => ∀ e ∈ es, e.Made (Schema.Usable quoted) Producer.Copyable) (Fault.Foreseen quoted unset looped) := by
  refine (Runs.usable_env hs₀.sets).bind fun env henv => ?_
  have hends := Env.deref_ends Fault.Foreseen.expected (henv.2 looped) hs
  refine Runs.bind (P := fun t => t.Usable quoted ∧ env.deref s = .ok t) (.lift ?_) fun t ht => ?_
  · cases hrun : env.deref s with
    | ok t =>
      rw [hrun] at hends
      exact ⟨hends, rfl⟩
    | error e =>
      rw [hrun] at hends
      exact hends
  · cases t with
    | tuple es => exact .pure (Schema.usable_tuple.mp ht.1)
    | ref r => exact .throw fun _ => hs₀.loops (henv.1 ▸ Env.loops_of_deref ht.2)
    | _ => exact .throw (Fault.Foreseen.expected.schema _ rfl)

/-- Usable schemas, sound constraints and constants that can be copied. -/
def Traits.usable (quoted : Prop) : Traits :=
  ⟨Schema.Usable quoted, Schema.Usable quoted, Constraint.Usable quoted, Producer.Copyable, Value.Tree⟩

theorem usable_upkeep (hs₀ : s₀.Foresees unset looped scope) :
    Upkeep (Session.Near quoted s₀) (Fault.Foreseen quoted unset looped) scope (.usable quoted) where
  refuses := Fault.Foreseen.expected.schema
  keyword h := by
    obtain ⟨k, rfl⟩ | ⟨b, rfl⟩ | rfl := Schema.form_of_ofKeyword h
    · exact Schema.usable_keyword
    · exact Schema.usable_literal.mpr (Or.inr rfl)
    · exact Schema.usable_never
  ref _ _ hs := ⟨fun _ _ => Schema.usable_ref, hs⟩
  array hs := Schema.usable_tuple.mpr (List.forall_mem_singleton.mpr ⟨hs, by simp [Role.default?]⟩)
  key value hs := normalized_usable value hs
  named hs := hs
  scalar h := Schema.usable_literal.mpr (Or.inr (Value.changeable?_of_scalar h))
  constrain hs hcs := Schema.usable_constrain hs hcs
  tuple hes := Schema.usable_tuple.mpr hes
  producer h := producerOf_usable h
  union hss := union_usable hs₀.sets hss
  meetAll hs hss := meetAll_usable hs₀.sets hs hss
  spread d _ hs := spreadOf_usable hs₀ d hs
  build hproperties hindex := buildObject_usable hs₀.sets (Schema.usable_object.mpr ⟨hproperties, hindex⟩)

/-- Trees can be read, and what they quote is quoted. -/
theorem tree_readable : Readable (fun close d => close = id ∧ d.Tree ∧ (d.Quotes → quoted)) (.usable quoted) := by
  have listed : ∀ {d : Value} {q : Value.Sequence} {items : List Value}, d.Tree → (d.Quotes → quoted) →
      d.items? = some (q, items) → Listed (fun close d => close = id ∧ d.Tree ∧ (d.Quotes → quoted)) (.usable quoted) id
        items := by
    intro d q items hd hq hitems
    have htrees := hd.items hitems
    have hquotes : ∀ v ∈ items, v.Quotes → quoted := fun v hv h => hq (.item hitems hv h)
    refine ⟨fun v hv => ⟨rfl, htrees v hv, hquotes v hv⟩, ?_, fun v hv c hc =>
      constraint_usable (htrees v hv) (hquotes v hv) hc⟩
    rintro mark rest rfl hmark v hv
    exact literal_usable hq hitems hmark hv
  constructor
  · rintro _ items ⟨rfl, hd, hq⟩
    exact listed hd hq rfl
  · rintro _ label items ⟨rfl, hd, hq⟩
    exact listed hd hq rfl
  · rintro _ entries ⟨rfl, hd, hq⟩ e he
    cases hd with
    | mapping _ h => exact ⟨rfl, h e he, fun hquotes => hq (.entry he hquotes)⟩
    | constraint h => cases h
  · rintro _ label body ⟨rfl, hd, -⟩
    cases hd with
    | constraint h => cases h
  · rintro _ kind token parts ⟨rfl, hd, -⟩
    exact hd.ofData?_eq_none.1
  · rintro _ d source ⟨rfl, hd, -⟩ hform
    obtain ⟨q, items, hitems, hsource⟩ := Value.mem_of_form hform
    exact hd.items hitems source hsource

theorem config_usable (hset : s₀.Sets unset scope) (given : Option Config) :
    Runs (Session.Near quoted s₀) (config scope given) (fun _ => True) (Fault.Foreseen quoted unset looped) := by
  cases given with
  | some c => exact .pure trivial
  | none =>
    rintro s ⟨hagrees, hs⟩
    have hset' : s.Sets unset scope := fun e he => hset e ((congrArg Env.trial (hagrees scope)).symm.trans he)
    have hrun : (config scope none).run s = (s.configOf scope, s) := by
      unfold config
      rw [run_bind, run_get]
      exact run_lift _ s
    rw [hrun]
    exact ⟨hset'.configOf, hagrees, hs⟩

theorem parse_usable (hs₀ : s₀.Foresees unset looped scope) (given : Option Config)
    {d : Value} (hd : d.Tree) (hq : d.Quotes → quoted) :
    Runs (Session.Near quoted s₀) (parse scope given d) (Schema.Usable quoted) (Fault.Foreseen quoted unset looped) :=
  (config_usable hs₀.sets given).bind fun c _ =>
    Upkeep.read_kept c.undeclared (usable_upkeep hs₀) tree_readable d ⟨rfl, hd, hq⟩

end Engine
end Schemata
