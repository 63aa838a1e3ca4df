import Schemata.Algebra.Lookup
import Schemata.Proofs.Algebra.Exactness
import Schemata.Proofs.Algebra.KeyOf
import Schemata.Proofs.Algebra.Keyless
import Schemata.Proofs.History

/-! Every key of a schema can be looked up. A lookup goes through all branches of a union and through the members of
an intersection that have the key, and the keys of a schema are found on the same ways. -/
namespace Schemata

namespace Session

variable {s t : Session} {scope : Option Nat}

theorem trial_quiet (s : Session) (scope : Option Nat) : Quiet (s.env scope).trial := by
  refine .of_ends ((s.configOf_ends scope).mono (fun _ h => h) ?_)
  rintro _ ⟨issues, rfl⟩
  rfl

/-- No intersection that the memo keeps says that a key is not found. -/
def Keyless (s : Session) : Prop :=
  s.memo.Holds (fun _ => True) fun k r => ∀ a b, k = .intersection a b →
    Ends r (fun _ => True) fun e => e.isKeyNotFound = false

theorem keyless_of_empty (h : s.memo.entries = []) : s.Keyless := by
  intro e he
  simp [h] at he

theorem intersect_keyless (s : Session) (scope : Option Nat) (a b : Schema) :
    Ends ((s.env scope).intersect a b).1 (fun _ => True) fun e => e.isKeyNotFound = false :=
  Env.intersect_keyless (s.trial_quiet scope) a b

theorem Keyless.intersection (h : s.Keyless) (scope : Option Nat) (a b : Schema) :
    s.Agrees ((Engine.intersection scope a b).run s).2 ∧ ((Engine.intersection scope a b).run s).2.Keyless :=
  Engine.intersection_keeps h trivial fun _ _ _ _ _ _ => s.intersect_keyless scope a b

/-- Calls of any kind, through whatever scopes, leave a keyless memo. -/
theorem Keyless.after (h : s.Keyless) (calls : List Call) : s.Agrees (s.after calls) ∧ (s.after calls).Keyless := by
  induction calls generalizing s with
  | nil => exact ⟨fun _ => rfl, h⟩
  | cons c calls ih =>
    have step : s.Agrees (c.run.run s).2 ∧ (c.run.run s).2.Keyless := by
      cases c with
      | intersection scope a b => exact h.intersection scope a b
      | merge scope base overrides =>
        refine Engine.merge_keeps h (fun _ _ => trivial) ?_
        rintro upper k - hk a b rfl
        exact absurd hk Bool.false_ne_true
    obtain ⟨hagrees, hkeyless⟩ := ih step.2
    exact ⟨step.1.trans hagrees, hkeyless⟩

end Session

namespace Engine

variable {α : Type} {s₀ : Session} {scope : Option Nat} {x : Engine α}

/-- Sessions with the same environments and a keyless memo. -/
def Kin (s₀ s : Session) : Prop := s₀.Agrees s ∧ s.Keyless

/-- The computation goes from one such session to another. -/
def Goes (s₀ : Session) (x : Engine α) : Prop := Runs (Kin s₀) x (fun _ => True) fun _ => True

/-- No error of the computation says that a key is not found. -/
def Finds (s₀ : Session) (x : Engine α) : Prop := Runs (Kin s₀) x (fun _ => True) fun e => e.isKeyNotFound = false

theorem Finds.goes (h : Finds s₀ x) : Goes s₀ x := Runs.mono h (fun _ h => h) fun _ _ => trivial

theorem ends_any {y : Except Fault α} : Ends y (fun _ => True) fun _ => True := by
  cases y <;> trivial

theorem intersection_finds (scope : Option Nat) (a b : Schema) : Finds s₀ (intersection scope a b) := by
  rintro s ⟨hagrees, hkeyless⟩
  obtain ⟨hsame, hkeeps⟩ := hkeyless.intersection scope a b
  refine ⟨?_, hagrees.trans hsame, hkeeps⟩
  rw [(intersection_run scope a b s).1]
  obtain ⟨r, hr, hrun⟩ := derive_outcome (.intersection a b) (fun _ => (s.env scope).intersect a b) s
  rw [hrun]
  rcases hr with rfl | ⟨e, he, hequal, houtcome⟩
  · exact s.intersect_keyless scope a b
  · obtain ⟨p, q, hkey, -, -⟩ := Session.same_intersection hequal
    exact (hkeyless e he).2 r houtcome p q hkey

theorem meetAll_finds (scope : Option Nat) (s : Schema) (ss : List Schema) : Finds s₀ (meetAll scope s ss) := by
  induction ss generalizing s with
  | nil => exact Runs.pure trivial
  | cons t ss ih => exact Runs.bind (intersection_finds scope s t) fun met _ => ih met

theorem union_finds (scope : Option Nat) (ss : List Schema) : Finds s₀ (union scope ss) :=
  Runs.union fun s _ => (Env.union_quiet (s.trial_quiet scope) ss).keyless

section Steps

variable {follow : Ref → Engine Schema} {key : Value}

theorem missing_goes (key : Value) (s : Schema) : Goes s₀ (missing key s : Engine α) := Runs.throw trivial

theorem lift_goes (y : Except Fault α) : Goes s₀ (lift y) := Runs.lift ends_any

theorem valueAt_goes (o : ObjectShape Schema) (key : Value) : Goes s₀ (valueAt scope o key) := by
  unfold valueAt
  split
  · exact missing_goes _ _
  · split
    · split_ifs
      · exact (union_finds _ _).goes
      · exact Runs.pure trivial
    · split
      · exact missing_goes _ _
      · refine Runs.bind (Runs.env scope) fun e _ => Runs.bind (lift_goes _) fun taken _ => ?_
        split_ifs
        · exact Runs.pure trivial
        · exact missing_goes _ _

theorem elementValue_goes (es : List (Element Schema)) (key : Value) : Goes s₀ (elementValue es key) := by
  refine Runs.bind (lift_goes _) fun position _ => ?_
  cases position with
  | none => exact missing_goes _ _
  | some n =>
    dsimp only
    split
    · split_ifs
      · exact (union_finds _ _).goes
      · exact Runs.pure trivial
    · split
      · exact missing_goes _ _
      · exact (union_finds _ _).goes

/-- The values of all branches are looked up one by one. -/
theorem stepEach_runs {I : Session → Prop} {P : Schema → Schema → Prop} {Q : Fault → Prop} {ss : List Schema}
    (h : ∀ s ∈ ss, Runs I (stepWith scope key follow s) (P s) Q) :
    Runs I (stepEach scope key follow ss) (List.Forall₂ P ss) Q := by
  induction ss with
  | nil => exact Runs.pure .nil
  | cons s ss ih =>
    rw [List.forall_mem_cons] at h
    exact Runs.bind h.1 fun _ hvalue => Runs.bind (ih h.2) fun _ hvalues => Runs.pure (.cons hvalue hvalues)

theorem stepWith_union {I : Session → Prop} {P : Schema → Schema → Prop} {Q : Fault → Prop} {R : Schema → Prop}
    {bs : List Schema} (hne : bs ≠ []) (h : ∀ s ∈ bs, Runs I (stepWith scope key follow s) (P s) Q)
    (hunion : ∀ values, List.Forall₂ P bs values → Runs I (union scope values) R Q) :
    Runs I (stepWith scope key follow (.union bs)) R Q := by
  cases bs with
  | nil => exact absurd rfl hne
  | cons b bs =>
    rw [List.forall_mem_cons] at h
    refine Runs.bind h.1 fun first hfirst => Runs.bind (stepEach_runs h.2) fun values hvalues => ?_
    exact hunion _ (.cons hfirst hvalues)

/-- A raw key is looked up as it is. -/
theorem propertyValue_key (scope : Option Nat) (o : ObjectShape Schema) (k : Key) :
    propertyValue scope o k.toValue = valueAt scope o k.toValue := by
  cases k <;> rfl

/-- Of all errors of a member only that a key is not found is passed over. -/
theorem attempt_finds {x : Engine Schema} {P : Schema → Prop} {Q : Fault → Prop} (h : Runs (Kin s₀) x P Q) :
    Runs (Kin s₀) (tryCatch (some <$> x) fun e => if e.isKeyNotFound then pure none else throw e)
      (fun found => found = none → ∃ e, Q e ∧ e.isKeyNotFound = true) fun e => e.isKeyNotFound = false := by
  have hsome : Runs (Kin s₀) (some <$> x) (fun found => found = none → ∃ e, Q e ∧ e.isKeyNotFound = true) Q := by
    rw [map_eq_pure_bind]
    exact Runs.bind h fun _ _ => Runs.pure nofun
  refine hsome.tryCatch fun e he => ?_
  split_ifs with hmissing
  · exact Runs.pure fun _ => ⟨e, he, hmissing⟩
  · exact Runs.throw (by simpa using hmissing)

theorem stepFound_finds {key : Value} {ms : List Schema} (h : ∀ m ∈ ms, Goes s₀ (stepWith scope key follow m)) :
    Runs (Kin s₀) (stepFound scope key follow ms)
      (fun values => (∃ m ∈ ms, Finds s₀ (stepWith scope key follow m)) → values ≠ [])
      fun e => e.isKeyNotFound = false := by
  induction ms with
  | nil => exact Runs.pure (by simp)
  | cons m ms ih =>
    rw [List.forall_mem_cons] at h
    have rest := ih h.2
    by_cases hm : Finds s₀ (stepWith scope key follow m)
    · refine Runs.bind (attempt_finds hm) fun value hvalue => Runs.bind rest fun values _ => Runs.pure fun _ => ?_
      cases value with
      | none =>
        obtain ⟨e, he, hmissing⟩ := hvalue rfl
        simp [he] at hmissing
      | some t => simp
    · refine Runs.bind (attempt_finds h.1) fun value _ => Runs.bind rest fun values hvalues => Runs.pure fun hfinds => ?_
      rw [List.exists_mem_cons_iff, or_iff_right hm] at hfinds
      simp [hvalues hfinds]

variable (hfollow : ∀ r, Goes s₀ (follow r))
include hfollow

theorem stepWith_goes (k : Key) (s : Schema) : Goes s₀ (stepWith scope k.toValue follow s) := by
  induction s using Schema.induction_on_parts with
  | _ s ih =>
    cases s with
    | ref r => exact hfollow r
    | object o =>
      rw [stepWith, propertyValue_key]
      exact valueAt_goes o _
    | tuple es => exact elementValue_goes es _
    | union bs =>
      cases bs with
      | nil => exact missing_goes _ _
      | cons b bs => exact stepWith_union (List.cons_ne_nil _ _) ih fun _ _ => (union_finds _ _).goes
    | intersection ms =>
      refine Runs.bind (Runs.mono (stepFound_finds ih) (fun _ h => h) fun _ _ => trivial) fun values _ => ?_
      cases values with
      | nil => exact missing_goes _ _
      | cons t ts => exact (meetAll_finds _ _ _).goes
    | constrained base cs => exact ih base (by simp [Schema.parts])
    | keyword _ => exact missing_goes _ _
    | literal _ => exact missing_goes _ _

omit hfollow in
/-- A declared key is found, and so is one that the index signature takes. -/
theorem valueAt_finds {o : ObjectShape Schema} {k : Key} (hk : k ≠ .index)
    (ho : (Schema.object o).Every (Schema.KeyNode False))
    (hkey : o.declares k = true ∨ ∃ i, o.index = some i ∧ i.key.HasKey (s₀.env scope).hooks k.toValue) :
    Finds s₀ (valueAt scope o k.toValue) := by
  have hof : Key.ofValue? k.toValue = some k := by
    cases k <;> first | rfl | exact absurd rfl hk
  unfold valueAt
  rw [hof]
  dsimp only
  cases hp : o.property? k with
  | some p =>
    dsimp only
    split_ifs
    · exact union_finds _ _
    · exact Runs.pure trivial
  | none =>
    have hno : o.declares k = false := ObjectShape.declares_eq_false.mpr hp
    rw [hno] at hkey
    obtain ⟨i, hi, hkey⟩ := hkey.resolve_left Bool.false_ne_true
    have hi' : i.key.Every (Schema.KeyNode False) := ho.part (by simp [Schema.parts, IndexSignature.parts, hi])
    rw [hi]
    dsimp only
    refine Runs.bind (Runs.env scope) ?_
    rintro _ ⟨s, hs, rfl⟩
    refine Runs.bind (P := fun taken => taken = true) (Runs.lift ?_) fun taken htaken => ?_
    · cases hrun : (s.env scope).admits i.key k.toValue with
      | error e => exact (Env.admits_quiet (s.trial_quiet scope) i.key k.toValue).isKeyNotFound hrun
      | ok taken => exact Env.admits_of_hasKey hi' (Value.IsKey.isScalar ⟨k, rfl⟩) (by rwa [hs.1 scope]) hrun
    · rw [htaken]
      exact Runs.pure trivial

/-- A key of the schema's keys is found. -/
theorem stepWith_finds {k : Key} (hk : k ≠ .index) {s : Schema} (hs : s.Every (Schema.KeyNode False))
    {lead : Ref → Except Fault Schema} {keys : Schema} (hkeys : s.keyOfWith (s₀.env scope) lead = .ok keys)
    (hkey : keys.HasKey (s₀.env scope).hooks k.toValue) : Finds s₀ (stepWith scope k.toValue follow s) := by
  have hv : k.toValue.IsKey := ⟨k, rfl⟩
  induction s using Schema.induction_on_parts generalizing keys with
  | _ s ih =>
    cases s with
    | ref r => exact hs.root.elim
    | object o =>
      obtain ⟨s, hmem, hkey⟩ := Env.hasKey_of_union hv hkeys hkey
      rw [stepWith, propertyValue_key]
      exact valueAt_finds hk hs (ObjectShape.declares_of_hasKey hmem hkey)
    | union bs =>
      obtain ⟨hne, hbranches⟩ := Schema.keys_of_branch hv hs hkeys hkey
      refine stepWith_union (P := fun _ _ => True) hne (fun b hb => ?_) fun _ _ => union_finds _ _
      obtain ⟨own, hown, hkey⟩ := hbranches b hb
      exact ih b hb (hs.branch hb) hown hkey
    | intersection ms =>
      obtain ⟨m, hm, own, hown, hkey⟩ := Schema.keys_of_member hv hkeys hkey
      have hfinds := ih m hm (hs.member hm) hown hkey
      refine Runs.bind (stepFound_finds fun m _ => stepWith_goes hfollow k m) fun values hvalues => ?_
      cases values with
      | nil => exact absurd rfl (hvalues ⟨m, hm, hfinds⟩)
      | cons t ts => exact meetAll_finds _ _ _
    | constrained base cs => exact ih base (by simp [Schema.parts]) hs.base hkeys hkey
    | keyword _ => cases hkeys
    | literal _ => cases hkeys
    | tuple _ => cases hkeys

end Steps

theorem stepWithin_goes (k : Key) (fuel : Nat) (s : Schema) : Goes s₀ (stepWithin scope k.toValue fuel s) := by
  induction fuel generalizing s with
  | zero => exact stepWith_goes (fun _ => missing_goes _ _) k s
  | succ fuel ih =>
    refine stepWith_goes (fun r => ?_) k s
    exact Runs.bind (Runs.env scope) fun _ _ => Runs.bind (lift_goes _) fun t _ => ih t

theorem step_finds {k : Key} (hk : k ≠ .index) {s keys : Schema} (hs : s.Every (Schema.KeyNode False))
    (hkeys : (s₀.env scope).keyOf s = .ok keys) (hkey : keys.HasKey (s₀.env scope).hooks k.toValue) :
    Finds s₀ (step scope s k.toValue) := by
  refine Runs.bind (Runs.env scope) fun e _ => ?_
  exact stepWith_finds (fun r => Runs.bind (Runs.env scope) fun _ _ => Runs.bind (lift_goes _) fun t _ =>
    stepWithin_goes k _ t) hk hs hkeys hkey

variable {s keys : Schema} {config : Config}

/-- Every string and every symbol that the keys of a schema accept can be looked up in the schema, after whatever
calls whose intersections are recalled on the way. -/
theorem select_of_keyOf (calls : List Call) (hmemo : s₀.memo.entries = []) (hs : s.Every (Schema.KeyNode False))
    (hkeys : (s₀.env scope).keyOf s = .ok keys) {k : Key} (hk : k ≠ .index)
    (haccepts : (s₀.env scope).accepts config keys k.toValue = .ok true) :
    ∀ e, ((select scope s [k.toValue]).run (s₀.after calls)).1 = .error e → e.isKeyNotFound = false := by
  intro e he
  have hkeynode : keys.Every (Schema.KeyNode False) := Schema.every_keyOf hs hkeys
  have hkey := (Env.hasKey_of_accepts hkeynode (Value.IsKey.isScalar ⟨k, rfl⟩) haccepts).mp rfl
  have hfinds : Finds s₀ (select scope s [k.toValue]) :=
    Runs.bind (step_finds hk hs hkeys hkey) fun _ _ => Runs.pure trivial
  obtain ⟨hends, -⟩ := hfinds _ ((Session.keyless_of_empty hmemo).after calls)
  rw [he] at hends
  exact hends

/-- A text for the size, or a number for it beside any other numbers. -/
def sized : Schema :=
  .union [.object ⟨[⟨.name "size", .keyword .string, .required⟩], none, .ignore⟩,
    .intersection [.object ⟨[⟨.name "size", .keyword .number, .optional⟩], none, .ignore⟩,
      .object ⟨[], some ⟨.keyword .string, .keyword .number⟩, .ignore⟩]]

/-- The size is the one key that both branches have, and is found in both. -/
theorem select_of_keyOf_sized :
    let env := freshSession.env none
    let calls := [Call.intersection none (.keyword .number) (.keyword .integer)]
    env.keyOf sized = .ok (.literal (.string "size")) ∧
      env.accepts Config.default (.literal (.string "size")) (.string "size") = .ok true ∧
      ∀ e, ((select none sized [.string "size"]).run (freshSession.after calls)).1 = .error e →
        e.isKeyNotFound = false := by
  intro env calls
  have hkeys : env.keyOf sized = .ok (.literal (.string "size")) := rfl
  have haccepts : env.accepts Config.default (.literal (.string "size")) (.string "size") = .ok true := rfl
  have leaf : ∀ k : Keyword, (Schema.keyword k).Every (Schema.KeyNode False) := fun k =>
    .intro trivial (by simp [Schema.parts])
  have object : ∀ o : ObjectShape Schema, (∀ t ∈ (Schema.object o).parts, ∃ k, t = .keyword k) →
      (Schema.object o).Every (Schema.KeyNode False) := by
    refine fun o h => .intro trivial fun t ht => ?_
    obtain ⟨k, rfl⟩ := h t ht
    exact leaf k
  have hsized : sized.Every (Schema.KeyNode False) := by
    refine .intro trivial (List.forall_mem_cons.mpr ⟨object _ ?_, List.forall_mem_singleton.mpr ?_⟩)
    · simp [Schema.parts, IndexSignature.parts]
    · refine .intro trivial (List.forall_mem_cons.mpr ⟨object _ ?_, List.forall_mem_singleton.mpr (object _ ?_)⟩) <;>
        simp [Schema.parts, IndexSignature.parts]
  exact ⟨hkeys, haccepts, select_of_keyOf (k := .name "size") calls rfl hsized hkeys (by rintro ⟨⟩) haccepts⟩

end Engine
end Schemata
