import Schemata.Proofs.Scope.Batch
import Schemata.Proofs.Scope.Orderly
import Schemata.Proofs.Validation.Moving

/-! Orderly definitions are read alike in sessions that reserve other slots for the same names and number their
producers from elsewhere, whatever has been filled so far. -/
namespace Schemata

namespace Arenas

/-- The reference of a name of one arena. -/
def ref? (as : List Arena) (id : Nat) (name : String) : Option Ref := (find? as id).bind fun a => a.ref? name

end Arenas

/-- A scope may wait for other checks, or be frozen, and keep its configuration. -/
theorem Session.configOf_setScope {s : Session} {id : Nat} {sc sc' : Scope} (h : s.scope? id = some sc)
    (hconfig : sc'.config = sc.config) : (s.setScope id sc').configOf (some id) = s.configOf (some id) := by
  unfold configOf
  rw [Option.bind_some, Option.bind_some, scope?_setScope, if_pos rfl, h]
  exact congrArg Except.ok hconfig

namespace DeferredCheck

variable {id : Nat} {c d : DeferredCheck}

/-- A waiting check that ends well. -/
def Passes (id : Nat) (c : DeferredCheck) (s : Session) : Prop :=
  ∃ a, ((Engine.runDeferred (some id) c).run s).1 = .ok a

/-- Looking for overlaps ends well here and there or nowhere, whatever stands in the arenas. -/
def Like (id : Nat) (c d : DeferredCheck) : Prop :=
  (∃ shape index, d = .overlap shape index) ∧ ∀ s t : Session, t.hooks = s.hooks →
    t.configOf (some id) = s.configOf (some id) → (c.Passes id s ↔ d.Passes id t)

end DeferredCheck

/-- How the arenas of two sessions differ, and the numbers of their producers. -/
structure Mirror where
  id : Nat
  moving : Moving
  raised : Nat
  hooks : Hooks
  config : Except Fault Config
  left : List Arena
  right : List Arena
  outlook : Outlook
  waited : List DeferredCheck

namespace Mirror

variable (w : Mirror)

/-- The schema of the second session for one of the first. -/
def schema (s : Schema) : Schema := s.moved w.moving w.raised

/-- Two environments over the two lists of arenas. -/
structure Faces (env env' : Env) : Prop where
  left : env.arenas = w.left
  right : env'.arenas = w.right
  hooks : env'.hooks = env.hooks

/-- The same names have references, those that the batch does not define have the same domains, and nothing else than
objects and tuples stands where they are expected. -/
structure Sound : Prop where
  names : ∀ name, Arenas.ref? w.right w.id name = (Arenas.ref? w.left w.id name).map (Ref.moved w.moving)
  domains : ∀ name r, w.outlook.defines name = false → Arenas.ref? w.left w.id name = some r →
    ∀ env env', w.Faces env env' → env'.domains? (.ref (r.moved w.moving)) = env.domains? (.ref r)
  structures : ∀ name r, w.outlook.structures name = true → Arenas.ref? w.left w.id name = some r →
    ∀ env env', w.Faces env env' → env.Opaque r ∧ env'.Opaque (r.moved w.moving)

/-- Two sessions that differ in nothing else, as far as reading is concerned. -/
structure Twin (s t : Session) : Prop where
  left : s.arenas = w.left
  right : t.arenas = w.right
  hooks : s.hooks = w.hooks ∧ t.hooks = w.hooks
  config : s.configOf (some w.id) = w.config ∧ t.configOf (some w.id) = w.config
  counter : t.nextProducer = s.nextProducer + w.raised
  waiting : ∃ checks checks', (s.scope? w.id).bind (·.waiting) = some checks ∧
    (t.scope? w.id).bind (·.waiting) = some (w.waited ++ checks') ∧ List.Forall₂ (DeferredCheck.Like w.id) checks checks'

variable {w} in
theorem Twin.faces {s t : Session} (h : w.Twin s t) : w.Faces (s.env (some w.id)) (t.env (some w.id)) :=
  ⟨h.left, h.right, h.hooks.2.trans h.hooks.1.symm⟩

end Mirror

namespace Engine

variable {α β γ δ : Type} {w : Mirror} {R : α → β → Prop} {Q : γ → δ → Prop}

/-- From twin sessions both computations fail, or both leave twin sessions and related results. -/
def Mirrors (w : Mirror) (x : Engine α) (y : Engine β) (R : α → β → Prop) : Prop :=
  ∀ s t, w.Twin s t →
    (∀ a s', x.run s = (.ok a, s') → ∃ b t', y.run t = (.ok b, t') ∧ R a b ∧ w.Twin s' t') ∧
    ∀ e s', x.run s = (.error e, s') → ∃ f t', y.run t = (.error f, t')

namespace Mirrors

/-- Computations that cannot fail. -/
theorem total {x : Engine α} {y : Engine β} (h : ∀ s t, w.Twin s t → ∃ a s' b t', x.run s = (.ok a, s') ∧
    y.run t = (.ok b, t') ∧ R a b ∧ w.Twin s' t') : Mirrors w x y R := by
  intro s t hst
  obtain ⟨a, s', b, t', hx, hy, hab, hst'⟩ := h s t hst
  rw [hx]
  refine ⟨fun a' s'' hrun => ?_, fun e s'' hrun => by cases hrun⟩
  cases hrun
  exact ⟨b, t', hy, hab, hst'⟩

theorem pure {a : α} {b : β} (h : R a b) : Mirrors w (Pure.pure a) (Pure.pure b) R :=
  total fun s t hst => ⟨a, s, b, t, rfl, rfl, h, hst⟩

theorem throw {e f : Fault} : Mirrors w (MonadExcept.throw e : Engine α) (MonadExcept.throw f : Engine β) R :=
  fun _ t _ => ⟨fun _ _ hrun => (by cases hrun), fun _ _ _ => ⟨f, t, rfl⟩⟩

theorem lift {x : Except Fault α} {y : Except Fault β} (h : Agree (fun _ _ => True) R x y) :
    Mirrors w (Engine.lift x) (Engine.lift y) R := by
  cases x <;> cases y
  · exact .throw
  · exact h.elim
  · exact h.elim
  · exact .pure h

theorem mono {x : Engine α} {y : Engine β} {R' : α → β → Prop} (h : Mirrors w x y R) (hR : ∀ a b, R a b → R' a b) :
    Mirrors w x y R' := by
  intro s t hst
  obtain ⟨hok, herror⟩ := h s t hst
  refine ⟨fun a s' hrun => ?_, herror⟩
  obtain ⟨b, t', hrun', hab, hst'⟩ := hok a s' hrun
  exact ⟨b, t', hrun', hR a b hab, hst'⟩

theorem bind {x : Engine α} {y : Engine β} {f : α → Engine γ} {g : β → Engine δ} (hxy : Mirrors w x y R)
    (hfg : ∀ a b, R a b → Mirrors w (f a) (g b) Q) : Mirrors w (x >>= f) (y >>= g) Q := by
  intro s t hst
  obtain ⟨hok, herror⟩ := hxy s t hst
  cases hrun : x.run s with
  | mk r s' =>
    cases r with
    | error e =>
      obtain ⟨e', t', hrun'⟩ := herror e s' hrun
      rw [run_bind_error hrun, run_bind_error hrun']
      exact ⟨fun _ _ h => (by cases h), fun _ _ _ => ⟨e', t', rfl⟩⟩
    | ok a =>
      obtain ⟨b, t', hrun', hab, hst'⟩ := hok a s' hrun
      rw [run_bind_ok hrun, run_bind_ok hrun']
      exact hfg a b hab s' t' hst'

theorem env : Mirrors w (Engine.env (some w.id)) (Engine.env (some w.id)) w.Faces :=
  total fun s t hst => ⟨_, s, _, t, run_env _ s, run_env _ t, hst.faces, hst⟩

end Mirrors

theorem ref?_mirrors (hw : w.Sound) (name : String) : Mirrors w (ref? (some w.id) name) (ref? (some w.id) name)
    fun r q => q = r.map (Ref.moved w.moving) ∧ Arenas.ref? w.left w.id name = r :=
  .total fun s t hst => ⟨Arenas.ref? w.left w.id name, s, Arenas.ref? w.right w.id name, t, by rw [← hst.left]; rfl,
    by rw [← hst.right]; rfl, ⟨hw.names name, rfl⟩, hst⟩

theorem newProducer_mirrors (source : Value) (isFactory : Bool) :
    Mirrors w (newProducer source isFactory) (newProducer source isFactory) fun p q => q = p.moved w.raised := by
  refine .total fun s t hst => ⟨⟨⟨s.nextProducer, 0⟩, source, isFactory⟩, { s with nextProducer := s.nextProducer + 1 },
    ⟨⟨t.nextProducer, 0⟩, source, isFactory⟩, { t with nextProducer := t.nextProducer + 1 }, rfl, rfl, ?_,
    hst.left, hst.right, hst.hooks, hst.config, ?_, hst.waiting⟩
  · simp [Producer.moved, hst.counter]
  · show t.nextProducer + 1 = s.nextProducer + 1 + w.raised
    rw [hst.counter]
    omega

theorem producerOf_mirrors {source : Value} (h : (Producer.ofData? source).isNone = true) :
    Mirrors w (producerOf source) (producerOf source) fun p q => q = p.moved w.raised := by
  unfold producerOf
  rw [Option.isNone_iff_eq_none.mp h]
  exact newProducer_mirrors _ _

/-- Checks that are put off wait in both sessions. -/
theorem defer_mirrors {c d : DeferredCheck} (h : c.Like w.id d) :
    Mirrors w (defer (some w.id) c) (defer (some w.id) d) fun a b => a = true ∧ b = true := by
  have deferred : ∀ {s : Session} {checks : List DeferredCheck} (c : DeferredCheck),
      (s.scope? w.id).bind (·.waiting) = some checks → ∃ s', (defer (some w.id) c).run s = (.ok true, s') ∧
        s'.arenas = s.arenas ∧ s'.hooks = s.hooks ∧ s'.configOf (some w.id) = s.configOf (some w.id) ∧
        s'.nextProducer = s.nextProducer ∧ (s'.scope? w.id).bind (·.waiting) = some (checks ++ [c]) := by
    intro s checks c hchecks
    obtain ⟨sc, hsc, hwaiting⟩ := Option.bind_eq_some_iff.mp hchecks
    refine ⟨s.setScope w.id { sc with waiting := some (checks ++ [c]) }, ?_, rfl, rfl, Session.configOf_setScope hsc rfl,
      rfl, ?_⟩
    · unfold defer
      rw [run_bind, run_get]
      dsimp only
      simp only [hsc, hwaiting]
      rfl
    · rw [Session.scope?_setScope, if_pos rfl, hsc]
      rfl
  refine .total fun s t hst => ?_
  obtain ⟨checks, checks', hs, ht, hlike⟩ := hst.waiting
  obtain ⟨s', hrun, harenas, hhooks, hconfig, hcounter, hwaiting⟩ := deferred c hs
  obtain ⟨t', hrun', harenas', hhooks', hconfig', hcounter', hwaiting'⟩ := deferred d ht
  refine ⟨true, s', true, t', hrun, hrun', ⟨rfl, rfl⟩, harenas.trans hst.left, harenas'.trans hst.right, ?_, ?_, ?_, ?_⟩
  · exact ⟨hhooks.trans hst.hooks.1, hhooks'.trans hst.hooks.2⟩
  · exact ⟨hconfig.trans hst.config.1, hconfig'.trans hst.config.2⟩
  · rw [hcounter', hst.counter, hcounter]
  · exact ⟨_, checks' ++ [d], hwaiting, by rw [hwaiting', List.append_assoc], List.rel_append hlike (.cons h .nil)⟩

end Engine
end Schemata
