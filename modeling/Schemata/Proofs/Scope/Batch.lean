import Schemata.Proofs.Scope.Reading
import Schemata.Scope

/-! Batches of definitions. A batch reserves slots behind those of the arena, fills them one after the other, and
either keeps all of them or gives all of its names up. -/
namespace Schemata
namespace Arenas

variable {as bs cs : List Arena} {a b c : Arena} {id : Nat} {r : Ref} {t : Schema}

/-- The arenas with one of them in the place of that of its number. -/
def replace (as : List Arena) (b : Arena) : List Arena := as.map fun a => if a.id == b.id then b else a

theorem find?_replace (h : find? as id = some a) (hid : b.id = id) (other : Nat) :
    find? (replace as b) other = if other = id then some b else find? as other := by
  subst hid
  have hkeeps : ((fun a : Arena => a.id == other) ∘ fun a : Arena => if a.id == b.id then b else a) =
      fun a => a.id == other := by
    funext a
    by_cases ha : a.id = b.id <;> simp [ha]
  have hmap : find? (replace as b) other = (find? as other).map fun a => if a.id == b.id then b else a := by
    unfold find? replace
    rw [List.find?_map, hkeeps]
  rw [hmap]
  by_cases hother : other = b.id
  · rw [hother, h]
    simp [id_of_find h]
  · cases hfind : find? as other with
    | none => simp [hother]
    | some c => simp [hother, id_of_find hfind]

theorem Sound.replace (h : Sound as) (hfind : find? as id = some a) (hid : b.id = id) (hb : b.Sound) :
    Sound (replace as b) := by
  intro other c hc
  rw [find?_replace hfind hid] at hc
  split_ifs at hc with hother
  · exact Option.some.inj hc ▸ hb
  · exact h other c hc

/-- An arena can change where the names that it has later, of the slots it had before, stood for the same schemas. -/
theorem evolves_replace (hfind : find? as id = some a) (hid : b.id = id) (hlength : a.slots.length ≤ b.slots.length)
    (hregisters : ∀ r, b.Registers r → r.handle < a.slots.length → a.Registers r)
    (htarget : ∀ r t, b.Registers r → a.Registers r → a.target r = .filled t → b.target r = .filled t) :
    Evolves as (replace as b) := by
  have hreplaced := find?_replace hfind hid
  have hother : ∀ {r : Ref}, r.arena ≠ id → find? (Arenas.replace as b) r.arena = find? as r.arena := fun h => by
    rw [hreplaced, if_neg h]
  have hself : ∀ {r : Ref}, r.arena = id → find? (Arenas.replace as b) r.arena = some b ∧ find? as r.arena = some a :=
    fun h => by rw [hreplaced, if_pos h, h]; exact ⟨rfl, hfind⟩
  refine ⟨fun r hr => ?_, fun r hr hr' => ?_, fun r t hr hr' ht => ?_⟩
  · by_cases hid : r.arena = id
    · obtain ⟨hb, ha⟩ := hself hid
      obtain ⟨c, hc, hlt⟩ := hr
      obtain rfl := Option.some.inj (ha.symm.trans hc)
      exact ⟨b, hb, hlt.trans_le hlength⟩
    · unfold Reserves
      rwa [hother hid]
  · by_cases hid : r.arena = id
    · obtain ⟨hb, ha⟩ := hself hid
      obtain ⟨c, hc, hr⟩ := hr
      obtain ⟨d, hd, hlt⟩ := hr'
      obtain rfl := Option.some.inj (hb.symm.trans hc)
      obtain rfl := Option.some.inj (ha.symm.trans hd)
      exact ⟨a, ha, hregisters r hr hlt⟩
    · unfold Registers at hr ⊢
      rwa [hother hid] at hr
  · by_cases hid : r.arena = id
    · obtain ⟨hb, ha⟩ := hself hid
      obtain ⟨c, hc, hr⟩ := hr
      obtain ⟨d, hd, hr'⟩ := hr'
      obtain rfl := Option.some.inj (hb.symm.trans hc)
      obtain rfl := Option.some.inj (ha.symm.trans hd)
      rw [target_of_find hb]
      rw [target_of_find ha] at ht
      exact htarget r t hr hr' ht
    · unfold target at ht ⊢
      rwa [hother hid]

theorem evolves_grows (hfind : find? as id = some a) (ha : a.Sound) (hb : b.Sound) (h : a.Grows b) :
    Evolves as (replace as b) := by
  refine evolves_replace hfind (h.id.trans (id_of_find hfind)) h.slots.length_le (fun r hr hlt => ?_) fun r t _ hr ht => ?_
  · rw [Arena.registers_iff, lookup_eq_some ha.names]
    refine ⟨(Arena.registers_iff.mp hr).1.trans h.id, ?_⟩
    exact (h.behind _ (hb.mem hr)).resolve_right (Nat.not_le.mpr hlt)
  · rw [h.target ha hr, ht]

theorem evolves_fill (hfind : find? as id = some a) (hr : ∀ t, a.slots[r.handle]? ≠ some (some t)) :
    Evolves as (replace as (a.fill r t)) := by
  have hid : a.id = id := id_of_find hfind
  refine evolves_replace hfind (b := a.fill r t) hid (by simp [Arena.fill]) (fun q hq _ => ?_) fun q u _ hq hu => ?_
  · exact Arena.registers_fill.mp hq
  · rw [Arena.target_eq_filled] at hu ⊢
    have hne : r.handle ≠ q.handle := fun h => hr u (h ▸ hu)
    exact (List.getElem?_set_ne hne).trans hu

/-- Giving up what a batch added. -/
theorem evolves_restores (hfind : find? as id = some b) (ha : a.Sound) (h : a.Grows b) (hc : a.Restores c)
    (hlength : c.slots.length = b.slots.length) : Evolves as (replace as c) := by
  have hid : c.id = id := hc.grows.id.trans (h.id.symm.trans (id_of_find hfind))
  refine evolves_replace hfind hid hlength.ge (fun r hr _ => h.registers (hc.registers.mp hr)) fun r t hr _ ht => ?_
  have hr := hc.registers.mp hr
  rw [hc.grows.target ha hr, ← h.target ha hr, ht]

end Arenas

namespace Session

variable {s t u : Session} {id : Nat} {a b c : Arena} {as : List Arena}

/-- The second session is the first one with an arena that has grown. -/
structure Grown (id : Nat) (s : Session) (a : Arena) (t : Session) (b : Arena) : Prop where
  tidy : t.Tidy
  states : ∀ other, (t.scope? other).map (fun sc => (sc.config, sc.frozen)) =
    (s.scope? other).map fun sc => (sc.config, sc.frozen)
  arena : Arenas.find? t.arenas id = some b
  others : ∀ other, other ≠ id → Arenas.find? t.arenas other = Arenas.find? s.arenas other
  grows : a.Grows b

namespace Grown

theorem refl (hs : s.Tidy) (ha : Arenas.find? s.arenas id = some a) : Grown id s a s a :=
  ⟨hs, fun _ => rfl, ha, fun _ _ => rfl, .refl a⟩

theorem steady (h : Grown id s a t b) (ht : t.Steady u) (hu : u.Tidy) : Grown id s a u b :=
  ⟨hu, fun other => (ht.scopes other).trans (h.states other), ht.arenas ▸ h.arena, ht.arenas ▸ h.others, h.grows⟩

theorem sound (h : Grown id s a t b) : b.Sound := h.tidy.arenas id b h.arena

/-- The grown arena changes once more. -/
theorem replace (h : Grown id s a t b) (he : Arenas.Evolves t.arenas (Arenas.replace t.arenas c)) (hc : c.Sound)
    (hgrows : a.Grows c) : Grown id s a (t.setArena c) c := by
  have hid : c.id = id := hgrows.id.trans (h.grows.id.symm.trans (Arenas.id_of_find h.arena))
  have hfind := Arenas.find?_replace h.arena hid
  refine ⟨h.tidy.evolve he (h.tidy.arenas.replace h.arena hid hc), h.states, ?_, fun other hother => ?_, hgrows⟩
  · exact (hfind id).trans (if_pos rfl)
  · exact ((hfind other).trans (if_neg hother)).trans (h.others other hother)

end Grown

end Session

namespace Engine

variable {s t : Session} {id : Nat} {a b : Arena} {names : List String} {batch : List (Ref × Value)}

theorem run_bind_ok {α β : Type} {x : Engine α} {f : α → Engine β} {a : α} (h : x.run s = (.ok a, t)) :
    (x >>= f).run s = (f a).run t := by
  rw [run_bind, h]

theorem run_bind_error {α β : Type} {x : Engine α} {f : α → Engine β} {e : Fault} (h : x.run s = (.error e, t)) :
    (x >>= f).run s = (.error e, t) := by
  rw [run_bind, h]

/-- Slots for new names are reserved behind those that there are. -/
theorem allocateAll_grows (hnames : names.Nodup) (hfit : ∀ n ∈ names, Schema.ofKeyword? n = none)
    (h : Session.Grown id s a t b) (hfresh : ∀ n ∈ names, n ∉ b.names) :
    ∃ refs u c, (allocateAll id names).run t = (.ok refs, u) ∧ Session.Grown id s a u c ∧ b.Grows c ∧
      c.names = b.names ++ names ∧ refs.map (·.name) = names ∧
      ∀ r ∈ refs, c.Registers r ∧ b.slots.length ≤ r.handle ∧ c.slots[r.handle]? = some none := by
  induction names generalizing t b with
  | nil => exact ⟨[], t, b, rfl, h, .refl b, by simp, rfl, by simp⟩
  | cons name names ih =>
    obtain ⟨hname, hnames⟩ := List.nodup_cons.mp hnames
    obtain ⟨hfit', hfit⟩ := List.forall_mem_cons.mp hfit
    obtain ⟨hfresh', hfresh⟩ := List.forall_mem_cons.mp hfresh
    have hsound := h.sound.allocate hfresh' hfit'
    have hgrows := Arena.Grows.allocate b name
    have hstep := h.replace (Arenas.evolves_grows h.arena h.sound hsound hgrows) hsound (h.grows.trans hgrows)
    have hall : (b.allocate name).2.names = b.names ++ [name] := by simp [Arena.names, Arena.allocate]
    obtain ⟨refs, u, c, hrun, hgrown, hc, hcnames, hrefs, hslots⟩ := ih hnames hfit hstep (by
      intro n hn
      rw [hall, List.mem_append, List.mem_singleton]
      rintro (hin | rfl)
      · exact hfresh n hn hin
      · exact hname hn)
    have hfirst : (b.allocate name).2.Registers (b.allocate name).1 := by
      rw [Arena.registers_iff, lookup_eq_some hsound.names]
      exact ⟨rfl, List.mem_append_right _ (List.mem_singleton_self _)⟩
    have hpending : c.slots[b.slots.length]? = some none := by
      rw [hc.slot (by simp [Arena.allocate])]
      simp [Arena.allocate]
    refine ⟨(b.allocate name).1 :: refs, u, c, ?_, hgrown, hgrows.trans hc, by simp [hcnames, hall], ?_, ?_⟩
    · unfold allocateAll
      rw [run_bind, run_get]
      have harena : t.arena? id = some b := h.arena
      simp only [harena, run_bind, run_set, hrun, run_pure]
    · rw [List.map_cons, hrefs]
      rfl
    · refine List.forall_mem_cons.mpr ⟨⟨hc.registers hfirst, le_rfl, hpending⟩, fun r hr => ?_⟩
      obtain ⟨hregisters, hbehind, hslot⟩ := hslots r hr
      exact ⟨hregisters, hgrows.slots.length_le.trans hbehind, hslot⟩

/-- The definitions of a batch are plain, and their slots are new ones that wait to be filled. -/
structure Awaits (a b : Arena) (batch : List (Ref × Value)) : Prop where
  plain : ∀ e ∈ batch, e.2.isPlain = true
  names : (batch.map (·.1.name)).Nodup
  registers : ∀ e ∈ batch, b.Registers e.1
  behind : ∀ e ∈ batch, a.slots.length ≤ e.1.handle
  pending : ∀ e ∈ batch, b.slots[e.1.handle]? = some none

/-- Filling one slot leaves the others waiting. -/
theorem Awaits.fill {r : Ref} {d : Value} {t : Schema} (h : Awaits a b ((r, d) :: batch)) (hb : b.Sound) :
    Awaits a (b.fill r t) batch := by
  have hnames := List.nodup_cons.mp h.names
  refine ⟨fun e he => h.plain e (List.mem_cons_of_mem _ he), hnames.2, fun e he => ?_,
    fun e he => h.behind e (List.mem_cons_of_mem _ he), fun e he => ?_⟩
  · exact Arena.registers_fill.mpr (h.registers e (List.mem_cons_of_mem _ he))
  · have hne : r.handle ≠ e.1.handle := by
      intro heq
      have hr := hb.mem (h.registers _ List.mem_cons_self)
      have hname := hb.name_unique hr (heq ▸ hb.mem (h.registers e (List.mem_cons_of_mem _ he)))
      exact hnames.1 (List.mem_map.mpr ⟨e, he, hname.symm⟩)
    exact (List.getElem?_set_ne hne).trans (h.pending e (List.mem_cons_of_mem _ he))

/-- The first slot of a batch is filled. -/
theorem fill_grows {r : Ref} {d : Value} {schema : Schema} (h : Session.Grown id s a t b)
    (hbatch : Awaits a b ((r, d) :: batch)) (hinto : schema.Into b.Registers) :
    (updateArena id fun a => a.fill r schema).run t = (.ok (), t.setArena (b.fill r schema)) ∧
      Session.Grown id s a (t.setArena (b.fill r schema)) (b.fill r schema) := by
  have hpending := hbatch.pending _ List.mem_cons_self
  refine ⟨?_, h.replace (Arenas.evolves_fill h.arena fun t ht => by simp [hpending] at ht)
    (h.sound.fill (hbatch.registers _ List.mem_cons_self) hinto) (h.grows.fill (hbatch.behind _ List.mem_cons_self))⟩
  unfold updateArena
  rw [run_modify, show t.arena? id = some b from h.arena]

/-- Filling a batch changes nothing but its slots. When it ends well all of them are filled. -/
theorem fillAll_grows (h : Session.Grown id s a t b) (hbatch : Awaits a b batch) :
    ∃ c, Session.Grown id s a ((fillAll id batch).run t).2 c ∧ c.handles = b.handles ∧
      Ends ((fillAll id batch).run t).1 (fun _ => (∀ e ∈ batch, ∃ u, c.slots[e.1.handle]? = some (some u)) ∧
        ∀ (i : Nat) u, b.slots[i]? = some (some u) → c.slots[i]? = some (some u)) fun _ => True := by
  induction batch generalizing t b with
  | nil => exact ⟨b, h, rfl, by simp, fun _ _ h => h⟩
  | cons e batch ih =>
    obtain ⟨r, d⟩ := e
    obtain ⟨hparse, hsteady, htidy⟩ := parse_orderly id none (hbatch.plain _ List.mem_cons_self) h.tidy
    have hgrown := h.steady hsteady htidy
    unfold fillAll
    cases hrun : (parse (some id) none d).run t with
    | mk outcome u =>
      rw [hrun] at hparse hgrown
      cases outcome with
      | error e =>
        rw [run_bind_error hrun]
        exact ⟨b, hgrown, rfl, trivial⟩
      | ok schema =>
        have hregisters := hbatch.registers _ List.mem_cons_self
        have hpending := hbatch.pending _ List.mem_cons_self
        obtain ⟨hupdate, hstep⟩ := fill_grows hgrown hbatch (Schema.Into.mono hparse fun q => (Arenas.named_iff h.arena).mp)
        obtain ⟨c, hc, hhandles, hends⟩ := ih hstep (hbatch.fill h.sound)
        rw [run_bind_ok hrun, run_bind_ok hupdate]
        have hself : (b.fill r schema).slots[r.handle]? = some (some schema) := by
          simp [Arena.fill, h.sound.lt hregisters]
        refine ⟨c, hc, hhandles, hends.mono (fun _ hfilled => ⟨?_, fun i v hi => hfilled.2 i v ?_⟩) fun _ h => h⟩
        · exact List.forall_mem_cons.mpr ⟨⟨schema, hfilled.2 _ _ hself⟩, hfilled.1⟩
        · have hne : r.handle ≠ i := by
            rintro rfl
            simp [hpending] at hi
          exact (List.getElem?_set_ne hne).trans hi

theorem setWaiting_grown (waiting : Option (List DeferredCheck)) (h : Session.Grown id s a t b)
    (hwaiting : ∀ checks, waiting = some checks → ∀ c ∈ checks, c.Reserved t.arenas) :
    ∃ u, (setWaiting id waiting).run t = (.ok (), u) ∧ Session.Grown id s a u b ∧ u.arenas = t.arenas := by
  unfold setWaiting
  rw [run_modify]
  cases hscope : t.scope? id with
  | none => exact ⟨t, rfl, h, rfl⟩
  | some sc =>
    have hset : (t.setScope id { sc with waiting := waiting }).Tidy := h.tidy.setScope hwaiting
    exact ⟨_, rfl, h.steady (Session.steady_setScope hscope rfl rfl) hset, rfl⟩

theorem setWaiting_arenas (id : Nat) (waiting : Option (List DeferredCheck)) (s : Session) :
    ((setWaiting id waiting).run s).2.arenas = s.arenas := by
  unfold setWaiting
  rw [run_modify]
  cases s.scope? id <;> rfl

/-- The checks that a scope waits for. -/
theorem waiting_reserved {C : (Schema → Prop) → Prop} (h : t.Neat C) :
    ∀ c ∈ ((t.scope? id).bind (·.waiting)).getD [], c.Reserved t.arenas := by
  intro c hc
  obtain ⟨checks, hchecks, hc⟩ : ∃ checks, (t.scope? id).bind (·.waiting) = some checks ∧ c ∈ checks := by
    cases hw : (t.scope? id).bind (·.waiting) with
    | none => simp [hw] at hc
    | some checks => exact ⟨checks, rfl, by simpa [hw] using hc⟩
  obtain ⟨sc, hsc, hwaiting⟩ := Option.bind_eq_some_iff.mp hchecks
  exact h.waiting id sc checks hsc hwaiting c hc

/-- Checks that waited change nothing but the memo and the warnings. -/
theorem runAllDeferred_reads {C : (Schema → Prop) → Prop} (hC : ∀ key, C key → Limits.Fair key) {as : List Arena}
    {checks : List DeferredCheck} (scope : Option Nat) (h : ∀ c ∈ checks, c.Reserved as) :
    Reads C as (runAllDeferred scope checks) fun _ => True := by
  induction checks with
  | nil => exact .pure trivial
  | cons c checks ih =>
    obtain ⟨hc, hchecks⟩ := List.forall_mem_cons.mp h
    refine Reads.bind (P := fun _ => True) ?_ fun _ _ => ih hchecks
    cases c with
    | intersection p q => exact (intersection_reads hC scope (hc p q rfl).1 (hc p q rfl).2).discard
    | overlap shape index => exact warnOverlaps_reads index shape.properties

/-- A batch that is complete has all of its slots filled; one that fails has changed nothing but them either. -/
theorem completeBatch_grows (h : Session.Grown id s a t b) (hbatch : Awaits a b batch) :
    ∃ c, Session.Grown id s a ((completeBatch id batch).run t).2 c ∧ c.handles = b.handles ∧
      Ends ((completeBatch id batch).run t).1 (fun _ => ∀ e ∈ batch, ∃ u, c.slots[e.1.handle]? = some (some u))
        fun _ => True := by
  unfold completeBatch
  obtain ⟨t₁, hrun₁, h₁, -⟩ := setWaiting_grown (some []) h (by
    rintro checks ⟨⟩
    simp)
  obtain ⟨c, h₂, hhandles, hends⟩ := fillAll_grows h₁ hbatch
  rw [run_bind_ok hrun₁]
  cases hrun₂ : (fillAll id batch).run t₁ with
  | mk outcome t₂ =>
    rw [hrun₂] at h₂ hends
    cases outcome with
    | error e =>
      rw [run_bind_error hrun₂]
      exact ⟨c, h₂, hhandles, trivial⟩
    | ok _ =>
      obtain ⟨t₃, hrun₃, h₃, harenas⟩ := setWaiting_grown none h₂ (by simp)
      rw [run_bind_ok hrun₂, run_bind, run_get]
      dsimp only
      rw [run_bind_ok hrun₃]
      have hchecks : ∀ c ∈ ((t₂.scope? id).bind (·.waiting)).getD [], c.Reserved t₃.arenas :=
        harenas ▸ waiting_reserved (Session.tidy_iff_neat.mp h₂.tidy)
      obtain ⟨hdone, hsteady, htidy⟩ := (runAllDeferred_reads (fun _ h => h.fair) (some id) hchecks).orderly rfl h₃.tidy
      refine ⟨c, h₃.steady hsteady htidy, hhandles, ?_⟩
      cases (runAllDeferred (some id) (((t₂.scope? id).bind (·.waiting)).getD [])).run t₃ with
      | mk outcome u => cases outcome <;> first | exact hends.1 | trivial

section Define

variable {sc : Scope} {definitions : List (Value × Value)}

theorem checkName_ok {name : Value} {text : String} (h : checkName sc a name = .ok text) :
    name = .string text ∧ sc.frozen = false ∧ Schema.ofKeyword? text = none ∧ a.ref? text = none := by
  unfold checkName at h
  split_ifs at h with hfrozen
  split at h
  · split_ifs at h with hunfit hkeyword hdefined
    obtain rfl := Except.ok.inj h
    exact ⟨rfl, by simpa using hfrozen, by simpa using hkeyword, by simpa using hdefined⟩
  · simp at h

theorem mapM_ok {α β : Type} {f : α → Except Fault β} {as : List α} {bs : List β} (h : as.mapM f = .ok bs) :
    List.Forall₂ (fun a b => f a = .ok b) as bs := by
  induction as generalizing bs with
  | nil =>
    obtain rfl := Except.ok.inj h
    exact .nil
  | cons a as ih =>
    rw [List.mapM_cons] at h
    obtain ⟨b, rest, hb, hrest, rfl⟩ := combine_ok h
    exact .cons hb (ih hrest)

/-- Names of a batch are fit, new and distinct, and there are none for a frozen scope. -/
theorem checkNames_ok {texts : List String} (h : (definitions.mapM fun d => checkName sc a d.1) = .ok texts)
    (hkeys : definitions.Pairwise fun d e => d.1.same e.1 = false) :
    texts.Nodup ∧ (∀ n ∈ texts, Schema.ofKeyword? n = none ∧ n ∉ a.names ∧ sc.frozen = false) ∧
      texts.length = definitions.length := by
  have hchecked := mapM_ok h
  refine ⟨?_, fun n hn => ?_, hchecked.length_eq.symm⟩
  · clear h
    induction hchecked with
    | nil => exact .nil
    | cons hd hrest ih =>
      obtain ⟨hfirst, hkeys⟩ := List.pairwise_cons.mp hkeys
      refine List.nodup_cons.mpr ⟨fun hin => ?_, ih hkeys⟩
      obtain ⟨e, he, hsame⟩ := forall₂_exists_right hrest hin
      have hdifferent := hfirst e he
      rw [(checkName_ok hd).1, (checkName_ok hsame).1] at hdifferent
      simp [Value.same] at hdifferent
  · obtain ⟨d, -, hd⟩ := forall₂_exists_right hchecked hn
    obtain ⟨-, hopen, hfit, hnew⟩ := checkName_ok hd
    exact ⟨hfit, Arena.ref?_eq_none.mp hnew, hopen⟩

/-- The references of reserved slots and their definitions. -/
theorem awaits_zip {refs : List Ref} {ds : List Value} (hlength : refs.length ≤ ds.length)
    (hplain : ∀ d ∈ ds, d.isPlain = true) (hnames : (refs.map (·.name)).Nodup)
    (hslots : ∀ r ∈ refs, b.Registers r ∧ a.slots.length ≤ r.handle ∧ b.slots[r.handle]? = some none) :
    Awaits a b (refs.zip ds) := by
  have hleft : ∀ e ∈ refs.zip ds, e.1 ∈ refs := fun e he => (List.of_mem_zip he).1
  refine ⟨fun e he => hplain _ (List.of_mem_zip he).2, ?_, fun e he => (hslots _ (hleft e he)).1,
    fun e he => (hslots _ (hleft e he)).2.1, fun e he => (hslots _ (hleft e he)).2.2⟩
  have hfirst : (refs.zip ds).map (·.1.name) = refs.map (·.name) := by
    conv_rhs => rw [← List.map_fst_zip hlength, List.map_map]
    rfl
  rwa [hfirst]

end Define

end Engine

namespace Session

variable {s t u : Session}

/-- Between calls: sessions are orderly and every name has its schema. -/
structure Settled (s : Session) : Prop where
  tidy : s.Tidy
  full : ∀ id a, s.arena? id = some a → a.Full

def IsFrozen (s : Session) (id : Nat) : Prop := ∃ sc, s.scope? id = some sc ∧ sc.frozen = true

/-- Names and what they stand for are kept, also in later sessions. A frozen scope stays so and gets no new ones. -/
structure Follows (s t : Session) : Prop where
  arena : ∀ id a, s.arena? id = some a → ∃ b, t.arena? id = some b ∧ a.Grows b ∧ (s.IsFrozen id → b.handles = a.handles)
  frozen : ∀ id, s.IsFrozen id → t.IsFrozen id

/-- Names are the same, and what they stand for. -/
def Restores (s t : Session) : Prop := ∀ id a, s.arena? id = some a → ∃ b, t.arena? id = some b ∧ a.Restores b

theorem Follows.refl (s : Session) : s.Follows s := ⟨fun _ a h => ⟨a, h, .refl a, fun _ => rfl⟩, fun _ h => h⟩

theorem Follows.trans (h : s.Follows t) (k : t.Follows u) : s.Follows u := by
  refine ⟨fun id a ha => ?_, fun id hid => k.frozen id (h.frozen id hid)⟩
  obtain ⟨b, hb, hab, hfrozen⟩ := h.arena id a ha
  obtain ⟨c, hc, hbc, hfrozen'⟩ := k.arena id b hb
  exact ⟨c, hc, hab.trans hbc, fun hid => (hfrozen' (h.frozen id hid)).trans (hfrozen hid)⟩

theorem Grown.follows {id : Nat} {a b : Arena} (h : Grown id s a t b) (ha : s.arena? id = some a)
    (hfrozen : s.IsFrozen id → b.handles = a.handles) : s.Follows t := by
  refine ⟨fun other c hc => ?_, fun other hother => ?_⟩
  · by_cases hid : other = id
    · subst hid
      obtain rfl := Option.some.inj (ha.symm.trans hc)
      exact ⟨b, h.arena, h.grows, hfrozen⟩
    · exact ⟨c, (h.others other hid).trans hc, .refl c, fun _ => rfl⟩
  · obtain ⟨sc, hsc, hfrozen⟩ := hother
    have hstate := h.states other
    rw [hsc] at hstate
    obtain ⟨sc', hsc', heq⟩ := Option.map_eq_some_iff.mp hstate
    exact ⟨sc', hsc', (congrArg Prod.snd heq).trans hfrozen⟩

theorem Grown.restores {id : Nat} {a b : Arena} (h : Grown id s a t b) (ha : s.arena? id = some a)
    (hb : a.Restores b) : s.Restores t := by
  intro other c hc
  by_cases hid : other = id
  · subst hid
    obtain rfl := Option.some.inj (ha.symm.trans hc)
    exact ⟨b, h.arena, hb⟩
  · exact ⟨c, (h.others other hid).trans hc, .refl c⟩

theorem Grown.settled {id : Nat} {a b : Arena} (h : Grown id s a t b) (hs : s.Settled) (hb : b.Full) : t.Settled := by
  refine ⟨h.tidy, fun other c hc => ?_⟩
  by_cases hid : other = id
  · subst hid
    exact Option.some.inj (h.arena.symm.trans hc) ▸ hb
  · exact hs.full other c ((h.others other hid).symm.trans hc)

end Session

namespace Engine

variable {s : Session} {id : Nat} {a : Arena}

/-- Reads a batch into slots reserved for its names, and gives the names up again when that fails. -/
def runBatch (id : Nat) (names : List String) (ds : List Value) : Engine (List Ref) := do
  let refs ← allocateAll id names
  tryCatch (completeBatch id (refs.zip ds)) fun e => do
    updateArena id fun a => names.foldl Arena.discard a
    setWaiting id none
    throw e
  pure refs

theorem runBatch_ok {names : List String} {ds : List Value} {refs : List Ref} {t u : Session}
    (halloc : (allocateAll id names).run s = (.ok refs, t)) (h : (completeBatch id (refs.zip ds)).run t = (.ok (), u)) :
    (runBatch id names ds).run s = (.ok refs, u) := by
  unfold runBatch
  rw [run_bind_ok halloc, run_bind, run_tryCatch, h]
  rfl

theorem runBatch_error {names : List String} {ds : List Value} {refs : List Ref} {t u v : Session} {e : Fault}
    (halloc : (allocateAll id names).run s = (.ok refs, t)) (h : (completeBatch id (refs.zip ds)).run t = (.error e, u))
    (hdiscard : (updateArena id fun a => names.foldl Arena.discard a).run u = (.ok (), v)) :
    (runBatch id names ds).run s = (.error e, ((setWaiting id none).run v).2) := by
  have hwaiting : ∃ w, (setWaiting id none).run v = (.ok (), w) := by
    unfold setWaiting
    rw [run_modify]
    exact ⟨_, rfl⟩
  obtain ⟨w, hwaiting⟩ := hwaiting
  unfold runBatch
  rw [run_bind_ok halloc, run_bind, run_tryCatch, h]
  dsimp only
  rw [run_bind_ok hdiscard, run_bind_ok hwaiting, hwaiting]
  rfl

/-- Giving the names of a batch up restores the arena. -/
theorem discardAll_grows {names : List String} {c : Arena} {u : Session} (hs : s.Tidy) (ha : s.arena? id = some a)
    (hnew : ∀ n ∈ names, n ∉ a.names) (h : Session.Grown id s a u c) (hnames : c.names = a.names ++ names) :
    a.Restores (names.foldl Arena.discard c) ∧
      Arenas.Evolves u.arenas (Arenas.replace u.arenas (names.foldl Arena.discard c)) ∧
      Session.Grown id s a (u.setArena (names.foldl Arena.discard c)) (names.foldl Arena.discard c) ∧
      (updateArena id fun a => names.foldl Arena.discard a).run u = (.ok (), u.setArena (names.foldl Arena.discard c)) := by
  have hrestores : a.Restores (names.foldl Arena.discard c) :=
    h.grows.discardAll (hs.arenas id a ha) h.sound hnew (by simp [hnames])
  have hevolves := Arenas.evolves_restores h.arena (hs.arenas id a ha) h.grows hrestores Arena.discardAll_length
  refine ⟨hrestores, hevolves, h.replace hevolves (hrestores.sound (hs.arenas id a ha)) hrestores.grows, ?_⟩
  unfold updateArena
  rw [run_modify, show u.arena? id = some c from h.arena]

/-- With the names of a batch reserved, its definitions are read, or the names are given up. -/
theorem batch_follows {names : List String} {ds : List Value} (hs : s.Settled)
    (ha : s.arena? id = some a) (hnames : names.Nodup)
    (hfit : ∀ n ∈ names, Schema.ofKeyword? n = none ∧ n ∉ a.names ∧ ¬ s.IsFrozen id) (hlength : names.length = ds.length)
    (hplain : ∀ d ∈ ds, d.isPlain = true) :
    let run := (runBatch id names ds).run s
    run.2.Settled ∧ s.Follows run.2 ∧ ∀ e, run.1 = .error e → s.Restores run.2 := by
  intro run
  obtain ⟨refs, t, b, halloc, hgrown, -, hbnames, hrefs, hslots⟩ :=
    allocateAll_grows hnames (fun n hn => (hfit n hn).1) (.refl hs.tidy ha) fun n hn => (hfit n hn).2.1
  have hrefslength : refs.length = names.length := by rw [← hrefs, List.length_map]
  have hawaits : Awaits a b (refs.zip ds) := awaits_zip (by omega) hplain (hrefs ▸ hnames) hslots
  obtain ⟨c, hgrown', hhandles, hends⟩ := completeBatch_grows hgrown hawaits
  have hcnames : c.names = a.names ++ names := by
    rw [← hbnames, Arena.names_of_handles hhandles]
  have hfrozen : s.IsFrozen id → c.handles = a.handles := by
    intro hfrozen
    obtain rfl : names = [] := List.eq_nil_iff_forall_not_mem.mpr fun n hn => (hfit n hn).2.2 hfrozen
    refine (hgrown'.grows.handles.eq_of_length ?_).symm
    simpa [Arena.names] using (congrArg List.length hcnames).symm
  cases hcomplete : (completeBatch id (refs.zip ds)).run t with
  | mk outcome u =>
    rw [hcomplete] at hgrown' hends
    cases outcome with
    | ok _ =>
      have hrun : run = (.ok refs, u) := runBatch_ok halloc hcomplete
      rw [hrun]
      refine ⟨hgrown'.settled hs fun r hr => ?_, hgrown'.follows ha hfrozen, by simp⟩
      rcases List.mem_append.mp (hcnames ▸ hr.name_mem) with hold | hnew
      · obtain ⟨q, hq, hname⟩ := Arena.exists_registers hold
        obtain rfl := Arena.registers_unique hr (hgrown'.grows.registers hq) hname
        rw [hgrown'.grows.target (hs.tidy.arenas id a ha) hq]
        exact hs.full id a ha q hq
      · obtain ⟨q, hq, hname⟩ := List.mem_map.mp (hrefs ▸ hnew)
        have hqc : c.Registers q := by
          rw [Arena.registers_iff, hhandles, hgrown'.grows.id, ← hgrown.grows.id, ← Arena.registers_iff]
          exact (hslots q hq).1
        obtain rfl := Arena.registers_unique hr hqc hname
        rw [← List.map_fst_zip (show refs.length ≤ ds.length by omega)] at hq
        obtain ⟨e, he, rfl⟩ := List.mem_map.mp hq
        obtain ⟨t, ht⟩ := hends e he
        exact ⟨t, Arena.target_eq_filled.mpr ht⟩
    | error e =>
      obtain ⟨hrestores, -, hback, hdiscard⟩ := discardAll_grows hs.tidy ha (fun n hn => (hfit n hn).2.1) hgrown' hcnames
      obtain ⟨v, hwaiting, hdone, -⟩ := setWaiting_grown none hback (by simp)
      have hrun : run = (.error e, v) := by
        rw [show run = _ from runBatch_error halloc hcomplete hdiscard, hwaiting]
      rw [hrun]
      refine ⟨hdone.settled hs ?_, hdone.follows ha fun _ => hrestores.handles, fun _ _ => hdone.restores ha hrestores⟩
      exact hrestores.full (hs.tidy.arenas id a ha) (hs.full id a ha)

/-- Names are checked before anything changes. -/
theorem defineAll_cases (id : Nat) (definitions : List (Value × Value)) (s : Session) :
    (∃ outcome, (defineAll id definitions).run s = (outcome, s)) ∨ ∃ sc a names, s.scope? id = some sc ∧
      s.arena? id = some a ∧ (definitions.mapM fun d => checkName sc a d.1) = .ok names ∧
      (defineAll id definitions).run s = (runBatch id names (definitions.map (·.2))).run s := by
  unfold defineAll
  rw [run_bind, run_get]
  dsimp only
  cases s.scope? id with
  | none => exact Or.inl ⟨_, rfl⟩
  | some sc =>
    cases s.arena? id with
    | none => exact Or.inl ⟨_, rfl⟩
    | some a =>
      dsimp only
      cases definitions.findSome? fun d => d.1.changeable? with
      | some typeName => exact Or.inl ⟨_, rfl⟩
      | none =>
        dsimp only
        cases hnames : definitions.mapM fun d => checkName sc a d.1 with
        | error e => exact Or.inl ⟨_, rfl⟩
        | ok names => exact Or.inr ⟨sc, a, names, rfl, rfl, hnames, run_bind_ok (run_lift (.ok names) s)⟩

/-- A batch adds all of its names or none. -/
theorem defineAll_follows (hs : s.Settled) (id : Nat) {definitions : List (Value × Value)}
    (hplain : ∀ d ∈ definitions, d.2.isPlain = true) (hkeys : definitions.Pairwise fun d e => d.1.same e.1 = false) :
    ((defineAll id definitions).run s).2.Settled ∧ s.Follows ((defineAll id definitions).run s).2 ∧
      ∀ e, ((defineAll id definitions).run s).1 = .error e → s.Restores ((defineAll id definitions).run s).2 := by
  rcases defineAll_cases id definitions s with ⟨outcome, hrun⟩ | ⟨sc, a, names, hsc, ha, hnames, hrun⟩
  · rw [hrun]
    exact ⟨hs, .refl s, fun _ _ _ a ha => ⟨a, ha, .refl a⟩⟩
  · rw [hrun]
    obtain ⟨hnodup, hfit, hlength⟩ := checkNames_ok hnames hkeys
    refine batch_follows hs ha hnodup (fun n hn => ⟨(hfit n hn).1, (hfit n hn).2.1, ?_⟩) (by simpa using hlength)
      (List.forall_mem_map.mpr hplain)
    rintro ⟨sc', hsc', hfrozen⟩
    obtain rfl := Option.some.inj (hsc.symm.trans hsc')
    simp [(hfit n hn).2.2] at hfrozen

end Engine
end Schemata
