import Mathlib.Tactic.SplitIfs
import Schemata.Proofs.Runs
import Schemata.Session

/-! Runs of the operations of a session, from one session to the next. -/
namespace Schemata

/-- Where no configuration can be had the settings are at fault. -/
theorem Session.configOf_ends (s : Session) (scope : Option Nat) :
    Ends (s.configOf scope) (fun _ => True) fun e => ∃ issues, e = .config issues := by
  have settings : Ends s.settings (fun _ => True) fun e => ∃ issues, e = .config issues := by
    unfold settings Settings.read Settings.ofGiven
    dsimp only
    split
    · trivial
    · exact ⟨_, rfl⟩
  unfold configOf
  split
  · trivial
  · refine settings.bind fun c _ => ?_
    unfold Config.ofSettings
    split_ifs
    · trivial
    · exact ⟨_, rfl⟩

namespace Engine

variable {α β : Type}

theorem run_pure (a : α) (s : Session) : (pure a : Engine α).run s = (.ok a, s) := rfl

theorem run_get (s : Session) : (get : Engine Session).run s = (.ok s, s) := rfl

theorem run_set (s t : Session) : (set t : Engine Unit).run s = (.ok (), t) := rfl

theorem run_modify (f : Session → Session) (s : Session) : (modify f : Engine Unit).run s = (.ok (), f s) := rfl

theorem run_lift (x : Except Fault α) (s : Session) : (lift x).run s = (x, s) := by
  cases x <;> rfl

/-- A later step runs from the session that the earlier one leaves, and not at all behind an error. -/
theorem run_bind (x : Engine α) (f : α → Engine β) (s : Session) : (x >>= f).run s =
    match x.run s with
    | (.ok a, t) => (f a).run t
    | (.error e, t) => (.error e, t) := by
  rw [ExceptT.run_bind]
  cases hx : x.run s with
  | mk r t =>
    cases r with
    | ok a => simp [bind, StateT.bind, hx]
    | error e =>
      simp [bind, StateT.bind, hx]
      rfl

/-- A handler runs from the session that the failed computation leaves. -/
theorem run_tryCatch (x : Engine α) (handle : Fault → Engine α) (s : Session) : (tryCatch x handle).run s =
    match x.run s with
    | (.ok a, t) => (.ok a, t)
    | (.error e, t) => (handle e).run t := by
  show (ExceptT.tryCatch x handle).run s = _
  unfold ExceptT.tryCatch
  rw [ExceptT.run_mk]
  simp only [bind, StateT.bind]
  cases hx : x s with
  | mk r t =>
    have hrun : x.run s = (r, t) := hx
    rw [hrun]
    cases r <;> rfl

theorem run_env (scope : Option Nat) (s : Session) : (env scope).run s = (.ok (s.env scope), s) := rfl

/-- Putting a check off never fails. -/
theorem run_defer (scope : Option Nat) (check : DeferredCheck) (s : Session) :
    ∃ put t, (defer scope check).run s = (.ok put, t) := by
  unfold defer
  rw [run_bind, run_get]
  cases scope with
  | none => exact ⟨_, _, rfl⟩
  | some id =>
    dsimp only
    cases s.scope? id with
    | none => exact ⟨_, _, rfl⟩
    | some sc =>
      obtain ⟨c, frozen, waiting⟩ := sc
      cases waiting <;> exact ⟨_, _, rfl⟩

/-- What is not in the memo is worked out. -/
theorem run_derive {s : Session} {key : DerivedKey} (h : (s.memo.request key).2 = .fresh)
    (work : Unit → Except Fault Schema × Bool) :
    ((derive key work).run s).1 = (work ()).1.map fun r => (r, (work ()).2) := by
  unfold derive
  by_cases hk : key.changeable?.isSome = true
  · rw [if_pos hk]
    simp only [run_bind, run_lift]
    cases (work ()).1 <;> rfl
  · rw [if_neg hk]
    simp only [run_bind, run_get, run_set, run_modify, run_lift, h]
    cases (work ()).1 <;> rfl

/-- With an empty memo the intersection of a session is that of its environment. -/
theorem run_intersection {s : Session} (hmemo : s.memo.entries = []) (scope : Option Nat) (a b : Schema) :
    ((intersection scope a b).run s).1 = ((s.env scope).intersect a b).1 := by
  have hfresh : (s.memo.request (DerivedKey.intersection a b)).2 = .fresh := by
    simp [Memo.request, Memo.find?, hmemo]
  have hderive := run_derive hfresh fun _ => (s.env scope).intersect a b
  unfold intersection
  simp only [run_bind, run_env]
  cases hrun : (derive (.intersection a b) fun _ => (s.env scope).intersect a b).run s with
  | mk outcome t =>
    rw [hrun] at hderive
    dsimp only at hderive
    subst hderive
    cases (s.env scope).intersect a b with
    | mk result deferred =>
      cases result with
      | error e => rfl
      | ok c =>
        cases deferred with
        | false => rfl
        | true =>
          obtain ⟨put, u, hdefer⟩ := run_defer scope (.intersection a b) t
          have hdiscard : (discard (defer scope (.intersection a b))).run t = (.ok (), u) := by
            show (((fun _ => ()) <$> defer scope (.intersection a b) : Engine Unit).run t) = _
            rw [map_eq_pure_bind, run_bind, hdefer]
            rfl
          dsimp only [Except.map]
          rw [if_pos rfl, run_bind, hdiscard]
          rfl

/-- From a session of one kind the computation leaves one of that kind. Every result satisfies `P` and every error
`Q`. -/
def Runs (I : Session → Prop) (x : Engine α) (P : α → Prop) (Q : Fault → Prop) : Prop :=
  ∀ s, I s → Ends (x.run s).1 P Q ∧ I (x.run s).2

namespace Runs

variable {I : Session → Prop} {x : Engine α} {P P' : α → Prop} {Q Q' : Fault → Prop}

theorem pure {a : α} (h : P a) : Runs I (Pure.pure a) P Q := fun _ hs => ⟨h, hs⟩

theorem throw {e : Fault} (h : Q e) : Runs I (MonadExcept.throw e) P Q := fun _ hs => ⟨h, hs⟩

theorem lift {y : Except Fault α} (h : Ends y P Q) : Runs I (Engine.lift y) P Q := by
  intro s hs
  rw [run_lift]
  exact ⟨h, hs⟩

theorem lifted {y : Except Fault α} : Runs I (Engine.lift y) (fun a => y = .ok a) fun _ => True := by
  refine lift ?_
  cases y <;> first | exact trivial | exact rfl

theorem mono (h : Runs I x P Q) (hP : ∀ a, P a → P' a) (hQ : ∀ e, Q e → Q' e) : Runs I x P' Q' := fun s hs =>
  ⟨(h s hs).1.mono hP hQ, (h s hs).2⟩

theorem bind {f : α → Engine β} {R : β → Prop} (h : Runs I x P Q) (hf : ∀ a, P a → Runs I (f a) R Q) :
    Runs I (x >>= f) R Q := by
  intro s hs
  obtain ⟨hends, hkind⟩ := h s hs
  rw [run_bind]
  cases hrun : x.run s with
  | mk r t =>
    rw [hrun] at hends hkind
    cases r with
    | error e => exact ⟨hends, hkind⟩
    | ok a => exact hf a hends t hkind

theorem tryCatch {handle : Fault → Engine α} (h : Runs I x P Q') (hh : ∀ e, Q' e → Runs I (handle e) P Q) :
    Runs I (MonadExcept.tryCatch x handle) P Q := by
  intro s hs
  obtain ⟨hends, hkind⟩ := h s hs
  rw [run_tryCatch]
  cases hrun : x.run s with
  | mk r t =>
    rw [hrun] at hends hkind
    cases r with
    | error e => exact hh e hends t hkind
    | ok a => exact ⟨hends, hkind⟩

theorem env (scope : Option Nat) : Runs I (Engine.env scope) (fun e => ∃ s, I s ∧ e = s.env scope) Q := fun s hs =>
  ⟨⟨s, hs, rfl⟩, hs⟩

theorem get : Runs I (get : Engine Session) I Q := fun _ hs => ⟨hs, hs⟩

theorem set {t : Session} (ht : I t) : Runs I (set t : Engine Unit) (fun _ => True) Q := fun _ _ =>
  ⟨trivial, ht⟩

theorem modify {f : Session → Session} (hf : ∀ s, I s → I (f s)) :
    Runs I (modify f : Engine Unit) (fun _ => True) Q := fun s hs => ⟨trivial, hf s hs⟩

/-- The union of schemas leaves the session as it is. -/
theorem union {scope : Option Nat} {ss : List Schema} {R : Schema → Prop}
    (h : ∀ s, I s → Ends ((s.env scope).union ss) R Q) : Runs I (Engine.union scope ss) R Q :=
  (env scope).bind fun _ ⟨s, hs, he⟩ => lift (he ▸ h s hs)

end Runs

end Engine
end Schemata
