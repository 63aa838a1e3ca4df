import Schemata.Proofs.Scope.Batch

/-! Calls on scopes, one after the other. Between calls every name of a scope leads to a schema, and so does every
reference of these schemas; what a name stands for never changes, and a call that fails defines nothing. -/
namespace Schemata

/-- A call on the scopes of a session. -/
inductive ScopeCall where
  | openScope (config : Option Config)
  | define (scope : Nat) (name definition : Value)
  | defineAll (scope : Nat) (definitions : List (Value × Value))
  | freeze (scope : Nat)
  | validate (scope : Nat) (config : Option Config) (definition value : Value)

namespace ScopeCall

def run : ScopeCall → Engine Unit
  | openScope config => discard (Engine.openScope config)
  | define scope name definition => discard (Engine.defineAll scope [(name, definition)])
  | defineAll scope definitions => discard (Engine.defineAll scope definitions)
  | freeze scope => Engine.freeze scope
  | validate scope config definition value => discard (Engine.validate (some scope) config definition value)

/-- Definitions are plain, and those of a batch stand under distinct keys. -/
def IsPlain : ScopeCall → Prop
  | define _ _ definition => definition.isPlain = true
  | defineAll _ definitions =>
    (∀ d ∈ definitions, d.2.isPlain = true) ∧ definitions.Pairwise fun d e => d.1.same e.1 = false
  | validate _ _ definition _ => definition.isPlain = true
  | _ => True

instance : (call : ScopeCall) → Decidable call.IsPlain
  | openScope _ => inferInstanceAs (Decidable True)
  | define _ _ definition => inferInstanceAs (Decidable (definition.isPlain = true))
  | defineAll _ _ => inferInstanceAs (Decidable (_ ∧ _))
  | freeze _ => inferInstanceAs (Decidable True)
  | validate _ _ definition _ => inferInstanceAs (Decidable (definition.isPlain = true))

end ScopeCall

namespace Session

/-- The session after calls, whatever came of them. -/
def afterCalls (s : Session) (calls : List ScopeCall) : Session := calls.foldl (fun s c => (c.run.run s).2) s

variable {s t : Session} {id : Nat} {a : Arena}

theorem settled_start (application : String) (hooks : Hooks) (environment : Variables) :
    { start application hooks with environment := environment }.Settled := by
  refine ⟨⟨?_, ?_, ?_⟩, ?_⟩ <;> simp [start, Arenas.Sound, Arenas.find?, arena?, Memo.Holds, Memo.empty, scope?]

/-- The second session has the names of the first and what they stand for, and what was frozen. -/
structure Rests (s t : Session) : Prop where
  settled : t.Settled
  follows : s.Follows t
  restores : s.Restores t

namespace Rests

theorem steady (hs : s.Settled) (h : s.Steady t) (ht : t.Tidy) : s.Rests t := by
  have harena : ∀ id, t.arena? id = s.arena? id := fun id => by
    unfold arena?
    rw [h.arenas]
  refine ⟨⟨ht, fun id a ha => hs.full id a (harena id ▸ ha)⟩, ⟨fun id a ha => ?_, ?_⟩, fun id a ha => ?_⟩
  · exact ⟨a, (harena id).trans ha, .refl a, fun _ => rfl⟩
  · rintro id ⟨sc, hsc, hfrozen⟩
    have hstate := h.scopes id
    rw [hsc] at hstate
    obtain ⟨sc', hsc', heq⟩ := Option.map_eq_some_iff.mp hstate
    exact ⟨sc', hsc', (congrArg Prod.snd heq).trans hfrozen⟩
  · exact ⟨a, (harena id).trans ha, .refl a⟩

theorem refl (hs : s.Settled) : s.Rests s := steady hs (.refl s) hs.tidy

/-- Reading leaves names as they are. -/
theorem reads (hs : s.Settled) {α : Type} {x : Engine α} {P : α → Prop}
    (h : Engine.Reads Limits.Lenient s.arenas x P) : s.Rests (x.run s).2 := by
  obtain ⟨-, hsteady, htidy⟩ := h.orderly rfl hs.tidy
  exact steady hs hsteady htidy

theorem freeze (hs : s.Settled) (id : Nat) : s.Rests ((Engine.freeze id).run s).2 := by
  unfold Engine.freeze
  rw [Engine.run_modify]
  cases hsc : s.scope? id with
  | none => exact refl hs
  | some sc =>
    refine ⟨⟨hs.tidy.setScope (hs.tidy.waiting id sc · hsc), hs.full⟩, ⟨fun _ a ha => ⟨a, ha, .refl a, fun _ => rfl⟩, ?_⟩,
      fun _ a ha => ⟨a, ha, .refl a⟩⟩
    rintro other ⟨sc', hsc', hfrozen⟩
    unfold IsFrozen
    rw [scope?_setScope]
    by_cases hother : other = id
    · rw [if_pos hother, hsc]
      exact ⟨_, rfl, rfl⟩
    · rw [if_neg hother]
      exact ⟨sc', hsc', hfrozen⟩

end Rests

section Open

variable {other new : Nat} {sc : Scope} {c : Config}

/-- The session with one more scope. -/
def opened (s : Session) (c : Config) : Session :=
  { s with
    nextScope := s.nextScope + 1
    arenas := s.arenas ++ [Arena.empty s.nextScope]
    scopes := s.scopes ++ [(s.nextScope, Scope.mk c false none)] }

theorem arena?_opened (h : s.arena? id = some a) : (s.opened c).arena? id = some a := by
  unfold arena? opened
  rw [List.find?_append, show s.arenas.find? _ = some a from h]
  rfl

theorem scope?_opened (h : s.scope? id = some sc) : (s.opened c).scope? id = some sc := by
  unfold scope? opened
  rw [List.lookup_append, show s.scopes.lookup id = some sc from h]
  rfl

/-- The arena of the new scope has no names. -/
theorem arena_of_opened (h : (s.opened c).arena? id = some a) : s.arena? id = some a ∨ a = Arena.empty s.nextScope := by
  cases hold : s.arena? id with
  | some b => exact Or.inl ((arena?_opened hold).symm.trans h ▸ rfl)
  | none =>
    unfold arena? opened at h
    rw [List.find?_append, show s.arenas.find? _ = none from hold, Option.none_or, List.find?_singleton] at h
    split_ifs at h
    exact Or.inr (Option.some.inj h).symm

/-- The new scope waits for nothing. -/
theorem scope_of_opened (h : (s.opened c).scope? id = some sc) : s.scope? id = some sc ∨ sc.waiting = none := by
  cases hold : s.scope? id with
  | some b => exact Or.inl ((scope?_opened hold).symm.trans h ▸ rfl)
  | none =>
    unfold scope? opened at h
    rw [List.lookup_append, show s.scopes.lookup id = none from hold, Option.none_or, List.lookup_cons] at h
    cases hid : id == s.nextScope with
    | true =>
      simp only [hid] at h
      exact Or.inr (Option.some.inj h ▸ rfl)
    | false => simp [hid] at h

theorem evolves_opened (s : Session) (c : Config) : Arenas.Evolves s.arenas (s.opened c).arenas := by
  refine ⟨fun r ⟨a, ha, hr⟩ => ⟨a, arena?_opened ha, hr⟩, fun r ⟨b, hb, hr⟩ ⟨a, ha, _⟩ => ?_,
    fun r u _ ⟨a, ha, _⟩ hu => ?_⟩
  · obtain rfl := Option.some.inj ((arena?_opened (c := c) ha).symm.trans hb)
    exact ⟨_, ha, hr⟩
  · rw [Arenas.target_of_find ha] at hu
    rw [Arenas.target_of_find (arena?_opened (c := c) ha), hu]

theorem settled_opened (hs : s.Settled) (c : Config) : (s.opened c).Settled ∧ s.Follows (s.opened c) := by
  have hsound : Arenas.Sound (s.opened c).arenas := by
    intro id a ha
    rcases arena_of_opened ha with ha | rfl
    · exact hs.tidy.arenas id a ha
    · exact Arena.sound_empty _
  have htidy := hs.tidy.evolve (evolves_opened s c) hsound
  refine ⟨⟨⟨hsound, htidy.memo, fun id sc checks hsc hchecks => ?_⟩, fun id a ha => ?_⟩,
    ⟨fun id a ha => ⟨a, arena?_opened ha, .refl a, fun _ => rfl⟩, ?_⟩⟩
  · rcases scope_of_opened hsc with hsc | hnone
    · exact htidy.waiting id sc checks hsc hchecks
    · simp [hnone] at hchecks
  · rcases arena_of_opened ha with ha | rfl
    · exact hs.full id a ha
    · exact Arena.full_empty _
  · rintro id ⟨sc, hsc, hfrozen⟩
    exact ⟨sc, scope?_opened hsc, hfrozen⟩

end Open

end Session

namespace ScopeCall

variable {s t : Session}

/-- Names keep what they stand for, and after a failure there are no new ones. -/
def Keeps (s : Session) {α : Type} (x : Engine α) : Prop :=
  (x.run s).2.Settled ∧ s.Follows (x.run s).2 ∧ ∀ e, (x.run s).1 = .error e → s.Restores (x.run s).2

namespace Keeps

variable {α β : Type} {x : Engine α} {f : α → Engine β}

theorem of_rests (h : s.Rests (x.run s).2) : Keeps s x := ⟨h.settled, h.follows, fun _ _ => h.restores⟩

/-- After a step that leaves the names as they are. -/
theorem bind (h : s.Rests (x.run s).2) (hf : ∀ a, Keeps (x.run s).2 (f a)) : Keeps s (x >>= f) := by
  unfold Keeps
  cases hrun : x.run s with
  | mk outcome t =>
    rw [hrun] at h hf
    cases outcome with
    | error e =>
      rw [Engine.run_bind_error hrun]
      exact ⟨h.settled, h.follows, fun _ _ => h.restores⟩
    | ok a =>
      rw [Engine.run_bind_ok hrun]
      obtain ⟨hsettled, hfollows, hfails⟩ := hf a
      refine ⟨hsettled, h.follows.trans hfollows, fun e he id c hc => ?_⟩
      obtain ⟨b, hb, hcb⟩ := h.restores id c hc
      obtain ⟨d, hd, hbd⟩ := hfails e he id b hb
      exact ⟨d, hd, hcb.trans hbd⟩

theorem discard (h : Keeps s x) : Keeps s (Functor.discard x) := by
  obtain ⟨hsettled, hfollows, hfails⟩ := h
  unfold Keeps
  rw [Engine.discard_run]
  refine ⟨hsettled, hfollows, fun e he => ?_⟩
  cases hx : (x.run s).1 with
  | ok a => simp [hx, Except.map] at he
  | error f => exact hfails f hx

end Keeps

theorem openScope_keeps (hs : s.Settled) (config : Option Config) : Keeps s (Engine.openScope config) := by
  have hconfig := Session.Rests.reads hs (Engine.config_reads none config)
  refine Keeps.bind hconfig fun c => ?_
  obtain ⟨hopened, hfollows⟩ := Session.settled_opened hconfig.settled c
  refine ⟨hopened, hfollows, ?_⟩
  rintro e ⟨⟩

theorem validate_keeps (hs : s.Settled) (id : Nat) (config : Option Config) {d : Value} (hd : d.isPlain = true)
    (v : Value) : Keeps s (Engine.validate (some id) config d v) := by
  have hparse := Session.Rests.reads hs (Engine.parse_reads (.lenient hs.tidy.arenas id) config hd)
  unfold Engine.validate Engine.validateSchema
  rw [Engine.schemaOf_of_isPlain (some id) config hd]
  refine Keeps.bind hparse fun schema => ?_
  have hfreeze := Session.Rests.freeze hparse.settled id
  refine Keeps.bind hfreeze fun _ => ?_
  have hconfig := Session.Rests.reads hfreeze.settled (Engine.config_reads (some id) config)
  refine Keeps.bind hconfig fun c => .of_rests (Session.Rests.reads hconfig.settled (P := fun _ => True) ?_)
  exact (Engine.Reads.env _).bind fun _ _ => .lift fun _ _ => trivial

theorem keeps (hs : s.Settled) (call : ScopeCall) (h : call.IsPlain) : Keeps s call.run := by
  cases call with
  | openScope config => exact (openScope_keeps hs config).discard
  | define id name d =>
    refine Keeps.discard (Engine.defineAll_follows hs id ?_ (List.pairwise_singleton _ _))
    exact List.forall_mem_singleton.mpr h
  | defineAll id definitions => exact Keeps.discard (Engine.defineAll_follows hs id h.1 h.2)
  | freeze id => exact .of_rests (Session.Rests.freeze hs id)
  | validate id config d v => exact (validate_keeps hs id config h v).discard

end ScopeCall

namespace Session

variable {s : Session} {calls : List ScopeCall}

/-- After any calls the session is settled, and follows the one before them. -/
theorem Settled.afterCalls (hs : s.Settled) (h : ∀ c ∈ calls, c.IsPlain) :
    (s.afterCalls calls).Settled ∧ s.Follows (s.afterCalls calls) := by
  induction calls generalizing s with
  | nil => exact ⟨hs, .refl s⟩
  | cons c calls ih =>
    obtain ⟨hc, hcalls⟩ := List.forall_mem_cons.mp h
    obtain ⟨hsettled, hfollows, -⟩ := ScopeCall.keeps hs c hc
    obtain ⟨hsettled', hfollows'⟩ := ih hsettled hcalls
    exact ⟨hsettled', hfollows.trans hfollows'⟩

end Session

namespace Session

end Session
end Schemata
