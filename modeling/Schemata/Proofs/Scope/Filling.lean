import Schemata.Proofs.Scope.Reserving

/-! A batch whose slots are filled in any order. Each of its definitions is read as it is while the whole batch is
pending, with the references moved to where the order has put them. -/
namespace Schemata

theorem Engine.parse_mirrors {w : Mirror} (hw : w.Sound) {d : Value} (h : d.isOrderly w.outlook = true) :
    Mirrors w (parse (some w.id) none d) (parse (some w.id) none d) (w.Shows d) := by
  have hconfig : Mirrors w (config (some w.id) none) (config (some w.id) none) (· = ·) := by
    have run_config : ∀ s : Session, (config (some w.id) none).run s = (s.configOf (some w.id), s) := fun s =>
      run_lift (s.configOf (some w.id)) s
    intro s t hst
    rw [run_config, run_config, hst.config.1, hst.config.2]
    refine ⟨fun c s' hrun => ?_, fun e s' hrun => ?_⟩
    · obtain ⟨hc, rfl⟩ := Prod.mk.inj hrun
      exact ⟨c, t, by rw [hc], rfl, hst⟩
    · exact ⟨e, t, by rw [(Prod.mk.inj hrun).1]⟩
  refine hconfig.bind ?_
  rintro c _ rfl
  exact read_mirrors c.undeclared hw d h

/-- New names for an open arena, with definitions that can be read in any order. -/
structure Batch (s : Session) (id : Nat) where
  arena : Arena
  scope : Scope
  outlook : Outlook
  entries : List (String × Value)
  settled : s.Settled
  finds : Arenas.find? s.arenas id = some arena
  opens : s.scope? id = some scope
  distinct : (entries.map (·.1)).Nodup
  fresh : ∀ n ∈ entries.map (·.1), n ∉ arena.names
  fit : ∀ n ∈ entries.map (·.1), Schema.ofKeyword? n = none
  orderly : ∀ e ∈ entries, e.2.isPlain = true ∧ e.2.isOrderly outlook = true
  defines : ∀ n ∈ entries.map (·.1), outlook.defines n = true
  structures : ∀ e ∈ entries, outlook.structures e.1 = true → e.2.isStructure = true
  older : ∀ r t, arena.Registers r → outlook.structures r.name = true → arena.target r = .filled t → t.isStructure = true

namespace Batch

variable {s : Session} {id : Nat} (b : Batch s id)

def names : List String := b.entries.map (·.1)

/-- The session in which the names of the batch have their slots and nothing is read yet. -/
def blank : Session :=
  { s.setScope id { b.scope with waiting := some [] } with
    arenas := Arenas.replace s.arenas (b.arena.reserve b.names)
    nextProducer := 0 }

/-- What a definition is read as in a blank session, and the checks that it puts off. -/
def reading? (d : Value) : Option (Schema × List DeferredCheck) :=
  match (Engine.parse (some id) none d).run b.blank with
  | (.ok schema, t) => some (schema, ((t.scope? id).bind (·.waiting)).getD [])
  | (.error _, _) => none

theorem arena_id : b.arena.id = id := Arenas.id_of_find b.finds

theorem arena_sound : b.arena.Sound := b.settled.tidy.arenas id b.arena b.finds

theorem reserved_sound : (b.arena.reserve b.names).Sound := b.arena_sound.reserve b.distinct b.fresh b.fit

theorem blank_find : Arenas.find? b.blank.arenas id = some (b.arena.reserve b.names) := by
  have hid : (b.arena.reserve b.names).id = id := b.arena_id
  exact (Arenas.find?_replace b.finds hid id).trans (if_pos rfl)

theorem blank_tidy : b.blank.Tidy := by
  have hscope : (s.setScope id { b.scope with waiting := some [] }).Tidy := b.settled.tidy.setScope (by
    rintro checks ⟨⟩
    simp)
  have hgrows := Arena.Grows.reserve b.arena b.names
  have harenas := hscope.evolve (Arenas.evolves_grows b.finds b.arena_sound b.reserved_sound hgrows)
    (b.settled.tidy.arenas.replace b.finds b.arena_id b.reserved_sound)
  exact ⟨harenas.arenas, harenas.memo, harenas.waiting⟩

theorem blank_waiting : (b.blank.scope? id).bind (·.waiting) = some [] := by
  have hscope : b.blank.scope? id = some { b.scope with waiting := some [] } := by
    refine (Session.scope?_setScope id).trans ?_
    rw [if_pos rfl, b.opens]
    rfl
  rw [hscope]
  rfl

theorem blank_config : b.blank.configOf (some id) = s.configOf (some id) := Session.configOf_setScope b.opens rfl

/-- A reading refers to names of the arena and of the batch. -/
theorem reading_into {d : Value} (hd : d.isPlain = true) {schema : Schema} {checks : List DeferredCheck}
    (h : b.reading? d = some (schema, checks)) : schema.Into (b.arena.reserve b.names).Registers := by
  obtain ⟨hparse, -⟩ := Engine.parse_orderly id none hd b.blank_tidy
  unfold reading? at h
  cases hrun : (Engine.parse (some id) none d).run b.blank with
  | mk outcome t =>
    rw [hrun] at h hparse
    cases outcome with
    | error e => simp at h
    | ok u =>
      obtain ⟨rfl, -⟩ := Prod.mk.inj (Option.some.inj h)
      exact Schema.Into.mono hparse fun q => (Arenas.named_iff b.blank_find).mp

section Order

variable {order : List (String × Value)} (hperm : b.entries.Perm order)

/-- Where the slots of the batch are when its names come in another order. -/
def moving : Moving := .reorder b.arena.id b.arena.slots.length b.distinct (hperm.map (·.1))

/-- Reading in the blank session and in one that is being filled. -/
def mirror (n : Nat) (right : List Arena) (waited : List DeferredCheck) : Mirror :=
  ⟨id, b.moving hperm, n, s.hooks, s.configOf (some id), b.blank.arenas, right, b.outlook, waited⟩

/-- The session in which some of the batch has been read, in the given order. -/
structure Filled (done : List (String × Value)) (t : Session) (c : Arena) : Prop where
  arenas : t.arenas = Arenas.replace s.arenas c
  hooks : t.hooks = s.hooks
  config : t.configOf (some id) = s.configOf (some id)
  grows : b.arena.Grows c
  handles : c.handles = (b.arena.reserve (order.map (·.1))).handles
  length : c.slots.length = (b.arena.reserve (order.map (·.1))).slots.length
  among : ∀ e ∈ done, e ∈ order
  pending : ∀ e ∈ order, e ∉ done → c.slots[(b.arena.place (order.map (·.1)) e.1).handle]? = some none
  filled : ∀ e ∈ done, ∃ schema checks, b.reading? e.2 = some (schema, checks) ∧
    (e.2.isStructure = true → schema.isStructure = true) ∧
    ∃ n, c.slots[(b.arena.place (order.map (·.1)) e.1).handle]? = some (some (schema.moved (b.moving hperm) n))

/-- The checks that wait when some of the batch has been read. -/
def Waits (done : List (String × Value)) (t : Session) : Prop :=
  ∃ checks checks', (t.scope? id).bind (·.waiting) = some checks' ∧ List.Forall₂ (DeferredCheck.Like id) checks checks' ∧
    ∀ c, c ∈ checks ↔ ∃ e ∈ done, ∃ schema cs, b.reading? e.2 = some (schema, cs) ∧ c ∈ cs

variable {b hperm} {done : List (String × Value)} {t : Session} {c : Arena} {r : Ref} {name : String}

theorem mem_order (hperm : b.entries.Perm order) : name ∈ order.map (·.1) ↔ name ∈ b.names := (hperm.map (·.1)).mem_iff.symm

theorem order_distinct (hperm : b.entries.Perm order) : (order.map (·.1)).Nodup := (hperm.map (·.1)).nodup_iff.mp b.distinct

theorem moved_place (h : name ∈ b.names) :
    (b.arena.place b.names name).moved (b.moving hperm) = b.arena.place (order.map (·.1)) name :=
  Moving.reorder_place h

/-- References of earlier names stay. -/
theorem moved_earlier (hr : Arenas.Registers s.arenas r) : r.moved (b.moving hperm) = r := by
  refine Moving.reorder_elsewhere ?_
  rw [b.arena_id]
  by_contra h
  obtain ⟨harena, hhandle⟩ := not_or.mp h
  obtain ⟨a, ha, hr⟩ := hr
  rw [not_not.mp harena] at ha
  obtain rfl := Option.some.inj (b.finds.symm.trans ha)
  exact hhandle (b.arena_sound.lt hr)

/-- The reference of a name, by the arena that stands in the place of the batch's. -/
theorem ref?_replace (hid : c.id = b.arena.id) {names : List String} (hnames : names.Nodup)
    (hfresh : ∀ n ∈ names, n ∉ b.arena.names) (hhandles : c.handles = (b.arena.reserve names).handles) (name : String) :
    Arenas.ref? (Arenas.replace s.arenas c) id name =
      if name ∈ names then some (b.arena.place names name) else b.arena.ref? name := by
  have hsame : c.ref? name = (b.arena.reserve names).ref? name := by
    unfold Arena.ref?
    rw [hhandles, hid]
    rfl
  unfold Arenas.ref?
  rw [Arenas.find?_replace b.finds (hid.trans b.arena_id), if_pos rfl, Option.bind_some, hsame,
    Arena.ref?_reserve hnames hfresh]

theorem ref?_blank (b : Batch s id) (name : String) : Arenas.ref? b.blank.arenas id name =
    if name ∈ b.names then some (b.arena.place b.names name) else b.arena.ref? name :=
  ref?_replace (c := b.arena.reserve b.names) rfl b.distinct b.fresh rfl name

/-- Earlier names that are known to lead to objects and tuples still do. -/
theorem earlier_isOpaque {env : Env} (henv : env.arenas = Arenas.replace s.arenas c) (hgrows : b.arena.Grows c)
    (hr : b.arena.Registers r) (hname : b.outlook.structures r.name = true) : env.Opaque r := by
  obtain ⟨u, hu⟩ := b.settled.full id b.arena b.finds r hr
  have harena : r.arena = id := (Arena.registers_iff.mp hr).1.trans b.arena_id
  refine Or.inr ⟨u, ?_, b.older r u hr hname hu⟩
  rw [Arenas.env_target_replace henv b.finds (hgrows.id.trans b.arena_id) harena, hgrows.target b.arena_sound hr, hu]

theorem blank_isOpaque {env : Env} (henv : env.arenas = b.blank.arenas) (hname : name ∈ b.names) :
    env.Opaque (b.arena.place b.names name) := by
  refine Or.inl ?_
  rw [Arenas.env_target_replace henv b.finds (b := b.arena.reserve b.names) b.arena_id b.arena_id]
  unfold Arena.target
  rw [Arena.slot_reserve hname]

namespace Filled

theorem find (h : b.Filled hperm done t c) : Arenas.find? t.arenas id = some c := by
  rw [h.arenas, Arenas.find?_replace b.finds (h.grows.id.trans b.arena_id), if_pos rfl]

theorem ref? (h : b.Filled hperm done t c) (name : String) : Arenas.ref? t.arenas id name =
    if name ∈ b.names then some (b.arena.place (order.map (·.1)) name) else b.arena.ref? name := by
  have hfresh : ∀ n ∈ order.map (·.1), n ∉ b.arena.names := fun n hn => b.fresh n ((mem_order hperm).mp hn)
  rw [h.arenas, ref?_replace h.grows.id (order_distinct hperm) hfresh h.handles]
  simp only [mem_order hperm]

/-- The same names have references, moved to where the order has put them. -/
theorem ref?_moved (h : b.Filled hperm done t c) (name : String) : Arenas.ref? t.arenas id name =
    (Arenas.ref? b.blank.arenas id name).map (Ref.moved (b.moving hperm)) := by
  rw [h.ref?, ref?_blank]
  split_ifs with hname
  · exact congrArg some (moved_place hname).symm
  · cases hr : b.arena.ref? name with
    | none => rfl
    | some r =>
      obtain ⟨-, hr⟩ := Arena.ref?_eq_some.mp hr
      rw [Option.map_some, moved_earlier (Arenas.registers_of_arena b.finds hr).2]

theorem slotCount (h : b.Filled hperm done t c) {a : Arena} (hid : a.id = b.arena.id)
    (hlength : a.slots.length = b.arena.slots.length + b.entries.length) {env env' : Env}
    (henv : env.arenas = Arenas.replace s.arenas a) (henv' : env'.arenas = t.arenas) : env'.slotCount = env.slotCount := by
  refine Arenas.slotCount_replace henv (henv'.trans h.arenas) (hid.trans h.grows.id.symm) ?_
  rw [hlength, h.length, Arena.length_reserve, List.length_map, hperm.length_eq]

/-- What earlier names lead to is as it was. -/
theorem moves_earlier (h : b.Filled hperm done t c) {env env' : Env} (henv : env.arenas = b.blank.arenas)
    (henv' : env'.arenas = t.arenas) (hhooks : env'.hooks = env.hooks) :
    env.Moves (b.moving hperm) (Arenas.Registers s.arenas) env' := by
  have hlength : (b.arena.reserve b.names).slots.length = b.arena.slots.length + b.entries.length := by
    rw [Arena.length_reserve, names, List.length_map]
  refine .of_filled hhooks (h.slotCount (a := b.arena.reserve b.names) rfl hlength henv henv') fun r hr => ?_
  obtain ⟨t, ht, hinto, hblank⟩ := Arenas.env_target_earlier henv b.settled.tidy.arenas b.settled.full b.finds
    (Arena.Grows.reserve b.arena b.names) hr
  obtain ⟨t', ht', -, hfilled⟩ := Arenas.env_target_earlier (henv'.trans h.arenas) b.settled.tidy.arenas b.settled.full
    b.finds h.grows hr
  obtain rfl : t = t' := Target.filled.inj (ht.symm.trans ht')
  refine ⟨t, hblank, hinto, 0, ?_⟩
  rw [moved_earlier hr, hfilled, Schema.moved_eq_self (hinto.mono fun q hq => moved_earlier hq)]

/-- A name of the batch that is to lead to an object or a tuple does so when it leads to something. -/
theorem isOpaque (h : b.Filled hperm done t c) {env : Env} (henv : env.arenas = t.arenas) {e : String × Value}
    (he : e ∈ b.entries) (hname : b.outlook.structures e.1 = true) :
    env.Opaque (b.arena.place (order.map (·.1)) e.1) := by
  unfold Env.Opaque
  rw [Arenas.env_target_replace (henv.trans h.arenas) b.finds (h.grows.id.trans b.arena_id) b.arena_id]
  by_cases hdone : e ∈ done
  · obtain ⟨schema, checks, -, hstructure, n, hslot⟩ := h.filled e hdone
    refine Or.inr ⟨_, Arena.target_eq_filled.mpr hslot, (Schema.moved_isStructure schema).trans (hstructure ?_)⟩
    exact b.structures e he hname
  · refine Or.inl ?_
    unfold Arena.target
    rw [h.pending e (hperm.mem_iff.mp he) hdone]

/-- Whatever has been read of the batch, its definitions are read as in the blank session. -/
theorem sound (h : b.Filled hperm done t c) (n : Nat) (waited : List DeferredCheck) :
    (b.mirror hperm n t.arenas waited).Sound := by
  refine ⟨h.ref?_moved, fun name r hname hr env env' henv => ?_, fun name r hname hr env env' henv => ?_⟩
  all_goals change Arenas.ref? b.blank.arenas id name = some r at hr
  · have hout : name ∉ b.names := fun hin => Bool.false_ne_true (hname.symm.trans (b.defines name hin))
    rw [ref?_blank, if_neg hout] at hr
    have hregisters := (Arenas.registers_of_arena b.finds (Arena.ref?_eq_some.mp hr).2).2
    exact (h.moves_earlier henv.left henv.right henv.hooks).domains? (n := 0) (Schema.into_ref.mpr hregisters)
  · change env.Opaque r ∧ env'.Opaque (r.moved (b.moving hperm))
    rw [ref?_blank] at hr
    split_ifs at hr with hin
    · obtain rfl := Option.some.inj hr
      obtain ⟨e, he, rfl⟩ := List.mem_map.mp hin
      refine ⟨blank_isOpaque henv.left hin, ?_⟩
      rw [moved_place hin]
      exact h.isOpaque henv.right he hname
    · obtain ⟨rfl, hr⟩ := Arena.ref?_eq_some.mp hr
      refine ⟨earlier_isOpaque henv.left (Arena.Grows.reserve b.arena b.names) hr hname, ?_⟩
      rw [moved_earlier (Arenas.registers_of_arena b.finds hr).2]
      exact earlier_isOpaque (henv.right.trans h.arenas) h.grows hr hname

end Filled

/-- One more definition is read as in the blank session, or fails as there. -/
theorem Filled.parse (h : b.Filled hperm done t c) (hwaits : b.Waits done t) {e : String × Value} (he : e ∈ order) :
    (∀ schema cs, b.reading? e.2 = some (schema, cs) → ∃ u, (Engine.parse (some id) none e.2).run t =
      (.ok (schema.moved (b.moving hperm) t.nextProducer), u) ∧ b.Filled hperm done u c ∧ b.Waits (done ++ [e]) u ∧
      (e.2.isStructure = true → schema.isStructure = true)) ∧
    (b.reading? e.2 = none → ∃ f u, (Engine.parse (some id) none e.2).run t = (.error f, u)) := by
  obtain ⟨checks, checks', hwaiting, hlike, hmem⟩ := hwaits
  obtain ⟨-, horderly⟩ := b.orderly e (hperm.mem_iff.mpr he)
  have htwin : (b.mirror hperm t.nextProducer t.arenas checks').Twin b.blank t := by
    refine ⟨rfl, rfl, ⟨rfl, h.hooks⟩, ⟨b.blank_config, h.config⟩, (Nat.zero_add _).symm, [], [], b.blank_waiting, ?_, .nil⟩
    rw [List.append_nil]
    exact hwaiting
  obtain ⟨hok, herror⟩ := Engine.parse_mirrors (h.sound t.nextProducer checks') horderly b.blank t htwin
  unfold reading?
  cases hblank : (Engine.parse (some id) none e.2).run b.blank with
  | mk outcome v =>
    cases outcome with
    | error f =>
      refine ⟨by simp, fun _ => ?_⟩
      exact herror f v hblank
    | ok schema =>
      refine ⟨?_, by simp⟩
      rintro _ _ ⟨⟩
      obtain ⟨moved, u, hrun, ⟨rfl, hkept⟩, hst⟩ := hok schema v hblank
      obtain ⟨cs, cs', hcs, hcs', hlikes⟩ := hst.waiting
      refine ⟨u, hrun, ⟨?_, ?_, ?_, h.grows, h.handles, h.length, h.among, h.pending, h.filled⟩, ?_, hkept.isStructure⟩
      · exact hst.right.trans h.arenas
      · exact hst.hooks.2
      · exact hst.config.2
      · refine ⟨checks ++ cs, checks' ++ cs', hcs', List.rel_append hlike hlikes, fun c => ?_⟩
        have hreading : b.reading? e.2 = some (schema, cs) := by
          unfold reading?
          rw [hblank]
          exact congrArg (fun cs : Option (List DeferredCheck) => some (schema, cs.getD [])) hcs
        rw [List.mem_append, hmem]
        constructor
        · rintro (⟨e', he', hc⟩ | hc)
          · exact ⟨e', List.mem_append_left _ he', hc⟩
          · exact ⟨e, List.mem_append_right _ (List.mem_singleton_self e), schema, cs, hreading, hc⟩
        · rintro ⟨e', he', schema', cs'', hreading', hc⟩
          rcases List.mem_append.mp he' with he' | he'
          · exact Or.inl ⟨e', he', schema', cs'', hreading', hc⟩
          · rw [List.mem_singleton.mp he', hreading] at hreading'
            cases hreading'
            exact Or.inr hc

/-- Definitions of one name are one. -/
theorem eq_of_name (hperm : b.entries.Perm order) {e e' : String × Value} (he : e ∈ order) (he' : e' ∈ order)
    (h : e.1 = e'.1) : e = e' :=
  List.inj_on_of_nodup_map (order_distinct hperm) he he' h

/-- The next slot is filled with what its definition was read as. -/
theorem Filled.fill (h : b.Filled hperm done t c) {e : String × Value} (he : e ∈ order) (hdone : e ∉ done)
    {schema : Schema} {checks : List DeferredCheck} (hreading : b.reading? e.2 = some (schema, checks))
    (hstructure : e.2.isStructure = true → schema.isStructure = true) (n : Nat) :
    let filled := c.fill (b.arena.place (order.map (·.1)) e.1) (schema.moved (b.moving hperm) n)
    b.Filled hperm (done ++ [e]) (t.setArena filled) filled := by
  intro filled
  have hmem : e.1 ∈ order.map (·.1) := List.mem_map_of_mem he
  have hother : ∀ e' ∈ order, e' ≠ e → filled.slots[(b.arena.place (order.map (·.1)) e'.1).handle]? =
      c.slots[(b.arena.place (order.map (·.1)) e'.1).handle]? := by
    intro e' he' hne
    refine List.getElem?_set_ne fun heq => hne ?_
    exact eq_of_name hperm he' he ((Arena.place_inj hmem).mp heq).symm
  have hself : filled.slots[(b.arena.place (order.map (·.1)) e.1).handle]? =
      some (some (schema.moved (b.moving hperm) n)) := by
    have hslot := h.pending e he hdone
    exact List.getElem?_set_self (List.getElem?_eq_some_iff.mp hslot).1
  refine ⟨?_, h.hooks, h.config, h.grows.fill (Nat.le_add_right _ _), h.handles, ?_, ?_, fun e' he' hnew => ?_,
    List.forall_mem_append.mpr ⟨fun e' he' => ?_, ?_⟩⟩
  · show Arenas.replace t.arenas filled = _
    rw [h.arenas]
    exact Arenas.replace_replace rfl
  · rw [← h.length]
    exact List.length_set
  · exact List.forall_mem_append.mpr ⟨h.among, List.forall_mem_singleton.mpr he⟩
  · rw [List.mem_append, not_or, List.mem_singleton] at hnew
    rw [hother e' he' hnew.2]
    exact h.pending e' he' hnew.1
  · rw [hother e' (h.among e' he') fun heq => hdone (heq ▸ he')]
    exact h.filled e' he'
  · exact List.forall_mem_singleton.mpr ⟨schema, checks, hreading, hstructure, n, hself⟩

/-- The definitions that are left are read one after the other, until one cannot be read. -/
theorem fillAll_fills {rest : List (String × Value)} (horder : done ++ rest = order) (h : b.Filled hperm done t c)
    (hwaits : b.Waits done t) :
    let run := (Engine.fillAll id (rest.map fun e => (b.arena.place (order.map (·.1)) e.1, e.2))).run t
    ((∀ e ∈ rest, (b.reading? e.2).isSome) → ∃ u c', run = (.ok (), u) ∧ b.Filled hperm order u c' ∧ b.Waits order u) ∧
      ((∃ e ∈ rest, b.reading? e.2 = none) → ∃ f u, run = (.error f, u)) := by
  induction rest generalizing done t c with
  | nil =>
    rw [List.append_nil] at horder
    subst horder
    exact ⟨fun _ => ⟨t, c, rfl, h, hwaits⟩, by simp⟩
  | cons e rest ih =>
    have he : e ∈ order := horder ▸ List.mem_append_right _ List.mem_cons_self
    have hdone : e ∉ done := by
      have hdistinct := (order_distinct hperm).of_map
      rw [← horder] at hdistinct
      exact fun hin => List.disjoint_of_nodup_append hdistinct hin List.mem_cons_self
    obtain ⟨hok, herror⟩ := h.parse hwaits he
    rw [List.map_cons]
    unfold Engine.fillAll
    cases hreading : b.reading? e.2 with
    | none =>
      obtain ⟨f, u, hrun⟩ := herror hreading
      rw [Engine.run_bind_error hrun]
      exact ⟨fun hall => by simp [hreading] at hall, fun _ => ⟨f, u, rfl⟩⟩
    | some read =>
      obtain ⟨schema, checks⟩ := read
      obtain ⟨u, hrun, hu, hwaits', hstructure⟩ := hok schema checks hreading
      have hfilled := hu.fill he hdone hreading hstructure t.nextProducer
      have hupdate : (Engine.updateArena id fun a => a.fill (b.arena.place (order.map (·.1)) e.1)
          (schema.moved (b.moving hperm) t.nextProducer)).run u = (.ok (), u.setArena (c.fill
            (b.arena.place (order.map (·.1)) e.1) (schema.moved (b.moving hperm) t.nextProducer))) := by
        unfold Engine.updateArena
        rw [Engine.run_modify, show u.arena? id = some c from hu.find]
      rw [Engine.run_bind_ok hrun, Engine.run_bind_ok hupdate]
      have hrest := ih (by rw [List.append_assoc]; exact horder) hfilled hwaits'
      exact ⟨fun hall => hrest.1 (List.forall_mem_cons.mp hall).2, fun hnone => hrest.2 (by simpa [hreading] using hnone)⟩

end Order

end Batch
end Schemata
