import Schemata.Proofs.Scope.Calls
import Schemata.Proofs.Scope.Filling

/-! The order of a batch. Where its definitions can be read without looking behind its names, a batch can be defined in
any order or in none, and every text that names something is validated alike in whatever order it was defined. -/
namespace Schemata
namespace Engine

section Checks

variable {id : Nat}

theorem warnOverlaps_run (scope : Option Nat) (index : IndexSignature Schema) (ps : List (Property Schema)) (s : Session) :
    ∃ ws, ((warnOverlaps scope index ps).run s).2 = { s with warnings := ws } := by
  induction ps generalizing s with
  | nil => exact ⟨s.warnings, rfl⟩
  | cons p ps ih =>
    unfold warnOverlaps
    simp only [run_bind, run_env, run_lift]
    cases (s.env scope).admits index.key p.key.toValue with
    | error e => exact ⟨s.warnings, rfl⟩
    | ok taken =>
      cases taken with
      | false => exact ih s
      | true =>
        simp only [if_true, run_bind, run_lift]
        cases (s.env scope).isSubset p.value index.value with
        | error e => exact ⟨s.warnings, rfl⟩
        | ok inside =>
          cases inside with
          | true => exact ih s
          | false =>
            obtain ⟨ws, hws⟩ := ih { s with warnings := s.warnings ++ [⟨p, index⟩] }
            exact ⟨ws, hws⟩

/-- Overlaps that wait are looked for one after the other, until one cannot be told. -/
theorem runAllDeferred_run {checks : List DeferredCheck} (hlike : ∀ d ∈ checks, ∃ c, DeferredCheck.Like id c d)
    (t : Session) :
    ((∀ d ∈ checks, d.Passes id t) →
      ∃ ws, (runAllDeferred (some id) checks).run t = (.ok (), { t with warnings := ws })) ∧
    ((∃ d ∈ checks, ¬ d.Passes id t) → ∃ f u, (runAllDeferred (some id) checks).run t = (.error f, u)) := by
  induction checks generalizing t with
  | nil => exact ⟨fun _ => ⟨t.warnings, rfl⟩, by simp⟩
  | cons d checks ih =>
    obtain ⟨⟨c, hc⟩, hchecks⟩ := List.forall_mem_cons.mp hlike
    obtain ⟨⟨shape, index, rfl⟩, -⟩ := hc
    obtain ⟨ws, hws⟩ := warnOverlaps_run (some id) index shape.properties t
    unfold runAllDeferred
    cases hrun : (runDeferred (some id) (.overlap shape index)).run t with
    | mk outcome u =>
      obtain rfl : u = { t with warnings := ws } := (congrArg Prod.snd hrun).symm.trans hws
      cases outcome with
      | error f =>
        rw [run_bind_error hrun]
        refine ⟨fun hall => ?_, fun _ => ⟨f, _, rfl⟩⟩
        obtain ⟨a, ha⟩ := hall _ List.mem_cons_self
        simp [hrun] at ha
      | ok a =>
        rw [run_bind_ok hrun]
        have hsame : ∀ d ∈ checks, (d.Passes id { t with warnings := ws } ↔ d.Passes id t) := by
          intro d hd
          obtain ⟨c, -, hc⟩ := hchecks d hd
          exact (hc t { t with warnings := ws } rfl rfl).symm.trans (hc t t rfl rfl)
        obtain ⟨hok, herror⟩ := ih hchecks { t with warnings := ws }
        refine ⟨fun hall => ?_, ?_⟩
        · exact hok fun d hd => (hsame d hd).mpr (hall d (List.mem_cons_of_mem _ hd))
        · rintro ⟨d, hd, hfails⟩
          rcases List.mem_cons.mp hd with rfl | hd
          · exact absurd ⟨a, congrArg Prod.fst hrun⟩ hfails
          · exact herror ⟨d, hd, fun hpasses => hfails ((hsame d hd).mp hpasses)⟩

end Checks

theorem run_setWaiting {id : Nat} {t : Session} {sc : Scope} (h : t.scope? id = some sc)
    (waiting : Option (List DeferredCheck)) :
    (setWaiting id waiting).run t = (.ok (), t.setScope id { sc with waiting := waiting }) := by
  unfold setWaiting
  rw [run_modify, h]

end Engine

namespace Batch

variable {s : Session} {id : Nat} {b : Batch s id} {order : List (String × Value)} {hperm : b.entries.Perm order}
  {t u : Session} {c : Arena}

/-- The definition can be read, and nothing fails that its reading puts off. -/
def Accepts (b : Batch s id) (d : Value) : Prop :=
  ∃ schema checks, b.reading? d = some (schema, checks) ∧ ∀ c ∈ checks, c.Passes id s

theorem Filled.keep {done : List (String × Value)} (h : b.Filled hperm done t c) (harenas : u.arenas = t.arenas)
    (hhooks : u.hooks = t.hooks) (hconfig : u.configOf (some id) = t.configOf (some id)) : b.Filled hperm done u c :=
  { h with
    arenas := harenas.trans h.arenas
    hooks := hhooks.trans h.hooks
    config := hconfig.trans h.config }

/-- The session in which the slots of the batch are reserved, in the given order. -/
def reserved (b : Batch s id) (order : List (String × Value)) : Session :=
  { s with arenas := Arenas.replace s.arenas (b.arena.reserve (order.map (·.1))) }

theorem filled_nil (b : Batch s id) (hperm : b.entries.Perm order) (hhooks : t.hooks = s.hooks)
    (harenas : t.arenas = (b.reserved order).arenas) (hconfig : t.configOf (some id) = s.configOf (some id)) :
    b.Filled hperm [] t (b.arena.reserve (order.map (·.1))) := by
  refine ⟨harenas, hhooks, hconfig, Arena.Grows.reserve _ _, rfl, rfl, by simp, fun e he _ => ?_, by simp⟩
  exact Arena.slot_reserve (List.mem_map_of_mem he)

/-- Whether a batch can be completed does not depend on its order. -/
theorem completeBatch_run (b : Batch s id) (hperm : b.entries.Perm order) :
    let run := (Engine.completeBatch id (order.map fun e => (b.arena.place (order.map (·.1)) e.1, e.2))).run
      (b.reserved order)
    ((∀ e ∈ b.entries, b.Accepts e.2) → ∃ u c, run = (.ok (), u) ∧ b.Filled hperm order u c) ∧
      ((∃ e ∈ b.entries, ¬ b.Accepts e.2) → ∃ f u, run = (.error f, u)) := by
  have hfirst := b.filled_nil hperm (t := (b.reserved order).setScope id { b.scope with waiting := some [] }) rfl rfl
    (Session.configOf_setScope b.opens rfl)
  have hwaits : b.Waits [] ((b.reserved order).setScope id { b.scope with waiting := some [] }) := by
    refine ⟨[], [], ?_, .nil, by simp⟩
    rw [Session.scope?_setScope, if_pos rfl, show (b.reserved order).scope? id = some b.scope from b.opens]
    rfl
  obtain ⟨hok, herror⟩ := fillAll_fills (List.nil_append order) hfirst hwaits
  unfold Engine.completeBatch
  rw [Engine.run_bind_ok (Engine.run_setWaiting (t := b.reserved order) b.opens (some []))]
  by_cases hall : ∀ e ∈ order, (b.reading? e.2).isSome
  · obtain ⟨u, c, hrun, hfilled, checks, checks', hwaiting, hlike, hmem⟩ := hok hall
    obtain ⟨sc, hsc, -⟩ := Option.bind_eq_some_iff.mp hwaiting
    rw [Engine.run_bind_ok hrun, Engine.run_bind, Engine.run_get]
    dsimp only
    rw [Engine.run_bind_ok (Engine.run_setWaiting hsc none), hwaiting, Option.getD_some]
    have hdone := hfilled.keep (u := u.setScope id { sc with waiting := none }) rfl rfl (Session.configOf_setScope hsc rfl)
    have hpasses : ∀ c d, DeferredCheck.Like id c d →
        (c.Passes id s ↔ d.Passes id (u.setScope id { sc with waiting := none })) := fun c d hcd =>
      hcd.2 _ _ hdone.hooks hdone.config
    obtain ⟨hpass, hfail⟩ := Engine.runAllDeferred_run
      (fun d hd => (forall₂_exists_right hlike hd).imp fun c h => h.2) (u.setScope id { sc with waiting := none })
    constructor
    · intro haccepts
      obtain ⟨ws, hws⟩ := hpass fun d hd => by
        obtain ⟨c, hc, hcd⟩ := forall₂_exists_right hlike hd
        refine (hpasses c d hcd).mp ?_
        obtain ⟨e, he, schema, cs, hreading, hc⟩ := (hmem c).mp hc
        obtain ⟨schema', cs', hreading', hcs⟩ := haccepts e (hperm.mem_iff.mpr he)
        rw [hreading] at hreading'
        cases hreading'
        exact hcs c hc
      exact ⟨_, c, hws, hdone.keep rfl rfl rfl⟩
    · rintro ⟨e, he, hrejects⟩
      refine hfail ?_
      have he := hperm.mem_iff.mp he
      obtain ⟨⟨schema, cs⟩, hreading⟩ := Option.isSome_iff_exists.mp (hall e he)
      obtain ⟨c, hc, hfails⟩ : ∃ c ∈ cs, ¬ c.Passes id s := by
        by_contra hnone
        push Not at hnone
        exact hrejects ⟨schema, cs, hreading, hnone⟩
      obtain ⟨d, hd, hcd⟩ := forall₂_exists_left hlike ((hmem c).mpr ⟨e, he, schema, cs, hreading, hc⟩)
      exact ⟨d, hd, fun h => hfails ((hpasses c d hcd).mpr h)⟩
  · push Not at hall
    obtain ⟨e, he, hnone⟩ := hall
    have hnone : b.reading? e.2 = none := by simpa using hnone
    obtain ⟨f, u, hrun⟩ := herror ⟨e, he, hnone⟩
    rw [Engine.run_bind_error hrun]
    refine ⟨fun haccepts => ?_, fun _ => ⟨f, u, rfl⟩⟩
    obtain ⟨schema, checks, hreading, -⟩ := haccepts e (hperm.mem_iff.mpr he)
    simp [hnone] at hreading

/-- The arena in which every name of the batch leads to what its definition is read as. -/
def complete (b : Batch s id) : Arena :=
  ⟨b.arena.id, b.arena.slots ++ b.entries.map fun e => (b.reading? e.2).map (·.1), (b.arena.reserve b.names).handles⟩

/-- The reference is that of a name, of the batch or an earlier one. -/
def Knows (b : Batch s id) (r : Ref) : Prop := Arenas.Registers b.blank.arenas r

theorem complete_grows (b : Batch s id) : b.arena.Grows b.complete := by
  have hgrows := Arena.Grows.reserve b.arena b.names
  exact ⟨rfl, hgrows.handles, List.prefix_append _ _, hgrows.behind⟩

theorem complete_slot {e : String × Value} (he : e ∈ b.entries) :
    b.complete.slots[(b.arena.place b.names e.1).handle]? = some ((b.reading? e.2).map (·.1)) := by
  have hlt : b.names.idxOf e.1 < b.names.length := List.idxOf_lt_length_of_mem (List.mem_map_of_mem he)
  have hlt' : b.names.idxOf e.1 < b.entries.length := by simpa [names] using hlt
  have hself : b.entries[b.names.idxOf e.1] = e := by
    refine eq_of_name (.refl b.entries) (List.getElem_mem hlt') he ?_
    have hname : b.names[b.names.idxOf e.1] = e.1 := List.getElem_idxOf hlt
    simp only [names, List.getElem_map] at hname
    exact hname
  show (b.arena.slots ++ b.entries.map _)[b.arena.slots.length + b.names.idxOf e.1]? = _
  rw [List.getElem?_append_right (Nat.le_add_right _ _), Nat.add_sub_cancel_left, List.getElem?_map,
    List.getElem?_eq_getElem hlt', hself]
  rfl

theorem Knows.cases {r : Ref} (h : b.Knows r) :
    (∃ e ∈ b.entries, r = b.arena.place b.names e.1) ∨ Arenas.Registers s.arenas r := by
  obtain ⟨a, ha, hr⟩ := h
  by_cases hid : r.arena = id
  · rw [hid, b.blank_find] at ha
    obtain rfl := Option.some.inj ha
    have hself := Arena.ref?_reserve b.distinct b.fresh r.name
    rw [show (b.arena.reserve (b.entries.map (·.1))).ref? r.name = some r from hr] at hself
    split_ifs at hself with hname
    · obtain ⟨e, he, hname⟩ := List.mem_map.mp hname
      exact Or.inl ⟨e, he, by rw [hname]; exact Option.some.inj hself⟩
    · exact Or.inr (Arenas.registers_of_arena b.finds (Arena.ref?_eq_some.mp hself.symm).2).2
  · have hfind := Arenas.find?_replace (b := b.arena.reserve b.names) b.finds b.arena_id r.arena
    rw [if_neg hid] at hfind
    exact Or.inr ⟨a, hfind.symm.trans ha, hr⟩

theorem knows_earlier {r : Ref} (h : Arenas.Registers s.arenas r) : b.Knows r := by
  obtain ⟨a, ha, hr⟩ := h
  have hfind := Arenas.find?_replace (b := b.arena.reserve b.names) b.finds b.arena_id r.arena
  by_cases hid : r.arena = id
  · rw [hid, b.finds] at ha
    obtain rfl := Option.some.inj ha
    rw [if_pos hid] at hfind
    exact ⟨_, hfind, (Arena.Grows.reserve b.arena b.names).registers hr⟩
  · rw [if_neg hid] at hfind
    exact ⟨a, hfind.trans ha, hr⟩

/-- When the batch is complete its names lead to what its definitions are read as, moved to where the order has put it. -/
theorem Filled.moves (h : b.Filled hperm order t c) {env env' : Env}
    (henv : env.arenas = Arenas.replace s.arenas b.complete) (henv' : env'.arenas = t.arenas)
    (hhooks : env'.hooks = env.hooks) : env.Moves (b.moving hperm) b.Knows env' := by
  have hlength : b.complete.slots.length = b.arena.slots.length + b.entries.length := by simp [complete]
  refine .of_filled hhooks (h.slotCount (a := b.complete) rfl hlength henv henv') fun r hr => ?_
  have hfilled := henv'.trans h.arenas
  rcases hr.cases with ⟨e, he, rfl⟩ | hr
  · obtain ⟨schema, checks, hreading, -, n, hslot⟩ := h.filled e (hperm.mem_iff.mp he)
    have hinto := b.reading_into (b.orderly e he).1 hreading
    refine ⟨schema, ?_, hinto.mono fun q hq => (Arenas.registers_of_arena b.blank_find hq).2, n, ?_⟩
    · rw [Arenas.env_target_replace (b := b.complete) henv b.finds b.arena_id b.arena_id, Arena.target_eq_filled,
        complete_slot he, hreading]
      rfl
    · rw [moved_place (List.mem_map_of_mem he),
        Arenas.env_target_replace hfilled b.finds (h.grows.id.trans b.arena_id) b.arena_id]
      exact Arena.target_eq_filled.mpr hslot
  · have htarget := fun {a : Arena} {env : Env} (hgrows : b.arena.Grows a) (henv : env.arenas = Arenas.replace s.arenas a) =>
      Arenas.env_target_earlier henv b.settled.tidy.arenas b.settled.full b.finds hgrows hr
    obtain ⟨u, hu, hinto, hcomplete⟩ := htarget b.complete_grows henv
    obtain ⟨u', hu', -, hlater⟩ := htarget h.grows hfilled
    obtain rfl : u = u' := Target.filled.inj (hu.symm.trans hu')
    refine ⟨u, hcomplete, hinto.mono fun q hq => knows_earlier hq, 0, ?_⟩
    rw [moved_earlier hr, hlater, Schema.moved_eq_self (hinto.mono fun q hq => moved_earlier hq)]

/-- A text names in every order what it names before the batch is read. -/
theorem Filled.nameReversed_run {done : List (String × Value)} (h : b.Filled hperm done t c) (cs : List Char) :
    (Engine.nameReversed (some id) cs).run t =
      (((Engine.nameReversed (some id) cs).run b.blank).1.map (Schema.moved (b.moving hperm) 0), t) := by
  fun_induction Engine.nameReversed (some id) cs with
  | case1 rest ih =>
    rw [Engine.run_bind, Engine.run_bind, ih]
    cases (Engine.nameReversed (some id) rest).run b.blank with
    | mk outcome u =>
      cases outcome with
      | error e => rfl
      | ok schema => exact Prod.ext (congrArg Except.ok (Schema.moved_array schema).symm) rfl
  | case2 cs hcs name schema hschema =>
    refine Prod.ext (congrArg Except.ok ?_) rfl
    rcases Schema.ofKeyword_cases hschema with hword | rfl
    · exact (Schema.moved_word hword).symm
    · rfl
  | case3 cs hcs name hname =>
    have href : ∀ u : Session, (Engine.ref? (some id) name).run u = (.ok (Arenas.ref? u.arenas id name), u) := fun _ => rfl
    rw [Engine.run_bind_ok (href t), Engine.run_bind_ok (href b.blank), h.ref?_moved]
    cases Arenas.ref? b.blank.arenas id name <;> rfl

/-- What comes of validating a value against a text when the batch is complete. -/
def outcome (b : Batch s id) (given : Option Config) (text : String) (v : Value) :
    Except Fault (Except (List Failure) Value) := do
  let schema ← ((Engine.name (some id) text).run b.blank).1
  let env : Env := ⟨s.hooks, Arenas.replace s.arenas b.complete, s.configOf (some id)⟩
  env.validate (given.getD b.scope.config) schema v

theorem Filled.validate_run (h : b.Filled hperm order t c) (given : Option Config) (text : String) (v : Value) :
    ((Engine.validate (some id) given (.string text) v).run t).1 = b.outcome given text v := by
  have hconfig : ∀ u : Session, u.configOf (some id) = s.configOf (some id) →
      (Engine.config (some id) given).run u = (.ok (given.getD b.scope.config), u) := by
    intro u hu
    cases given with
    | some c => rfl
    | none =>
      have hscope : s.configOf (some id) = .ok b.scope.config := by
        unfold Session.configOf
        rw [Option.bind_some, b.opens]
      refine (Engine.run_lift (u.configOf (some id)) u).trans ?_
      rw [hu, hscope]
      rfl
  have hname : (Engine.name (some id) text).run t =
      (((Engine.name (some id) text).run b.blank).1.map (Schema.moved (b.moving hperm) 0), t) :=
    h.nameReversed_run _
  have hparse : (Engine.schemaOf (some id) given (.string text)).run t =
      (((Engine.name (some id) text).run b.blank).1.map (Schema.moved (b.moving hperm) 0), t) :=
    (Engine.run_bind_ok (hconfig t h.config)).trans hname
  obtain ⟨hends, -⟩ :=
    (Engine.nameReversed_reads (.lenient b.blank_tidy.arenas id) text.toList.reverse).orderly rfl b.blank_tidy
  unfold Engine.validate outcome
  cases hschema : ((Engine.name (some id) text).run b.blank).1 with
  | error e =>
    rw [hschema] at hparse
    rw [Engine.run_bind_error hparse]
    rfl
  | ok schema =>
    rw [hschema] at hparse
    have hinto : schema.Into b.Knows := by
      have hnamed : schema.IsNamed ⟨Arenas.Named b.blank.arenas id, fun _ => True⟩ := by
        have hname : (Engine.nameReversed (some id) text.toList.reverse).run b.blank =
            (Engine.name (some id) text).run b.blank := rfl
        rwa [hname, hschema] at hends
      exact (Schema.into_iff_within.mpr hnamed.within).mono fun r hr => hr.2
    obtain ⟨u, hfreeze, hu⟩ : ∃ u, (Engine.freeze id).run t = (.ok (), u) ∧ b.Filled hperm order u c := by
      unfold Engine.freeze
      rw [Engine.run_modify]
      cases hsc : t.scope? id with
      | none => exact ⟨t, rfl, h⟩
      | some sc => exact ⟨_, rfl, h.keep rfl rfl (Session.configOf_setScope hsc rfl)⟩
    rw [Engine.run_bind_ok hparse]
    unfold Engine.validateSchema
    dsimp only
    rw [Engine.run_bind_ok hfreeze, Engine.run_bind_ok (hconfig u hu.config), Engine.run_bind_ok (Engine.run_env _ u),
      Engine.run_lift]
    exact (hu.moves rfl rfl hu.hooks).validate _ hinto v

end Batch

/-- The names of a batch that are texts, with their definitions. -/
def Value.named (definitions : List (Value × Value)) : List (String × Value) :=
  definitions.filterMap fun d => d.1.string?.map fun n => (n, d.2)

/-- The name leads to an object or a tuple. -/
def Arena.leadsToStructure (a : Arena) (name : String) : Bool :=
  (a.ref? name).any fun r =>
    match a.target r with
    | .filled t => t.isStructure
    | _ => false

/-- What is known of names when definitions are to be added to a scope. -/
def Session.outlook (s : Session) (id : Nat) (definitions : List (Value × Value)) : Outlook where
  defines name := definitions.any fun d => d.1.isToken name
  structures name :=
    definitions.any (fun d => d.1.isToken name && d.2.isStructure) || (s.arena? id).any fun a => a.leadsToStructure name

namespace Engine

variable {s : Session} {id : Nat} {a : Arena} {sc : Scope} {definitions : List (Value × Value)} {names : List String}

theorem mem_named {n : String} {d : Value} : (n, d) ∈ Value.named definitions ↔ (.string n, d) ∈ definitions := by
  unfold Value.named
  rw [List.mem_filterMap]
  constructor
  · rintro ⟨⟨key, d'⟩, hd, h⟩
    obtain ⟨n', hn, heq⟩ := Option.map_eq_some_iff.mp h
    obtain ⟨rfl, rfl⟩ := Prod.mk.inj heq
    cases key <;> simp only [Value.string?, Option.some.injEq, reduceCtorEq] at hn
    exact hn ▸ hd
  · exact fun h => ⟨_, h, rfl⟩

/-- Names that are accepted are texts. -/
theorem named_of_checked (h : (definitions.mapM fun d => checkName sc a d.1) = .ok names) :
    (Value.named definitions).map (·.1) = names ∧ (Value.named definitions).map (·.2) = definitions.map (·.2) := by
  have hchecked := mapM_ok h
  clear h
  induction hchecked with
  | nil => exact ⟨rfl, rfl⟩
  | @cons d n definitions names hd hrest ih =>
    obtain ⟨key, d⟩ := d
    obtain rfl : key = .string n := (checkName_ok hd).1
    exact ⟨congrArg (n :: ·) ih.1, congrArg (d :: ·) ih.2⟩

theorem mapM_isOk {α β : Type} {f : α → Except Fault β} {as : List α} :
    (∃ bs, as.mapM f = .ok bs) ↔ ∀ a ∈ as, ∃ b, f a = .ok b := by
  induction as with
  | nil => exact ⟨by simp, fun _ => ⟨[], rfl⟩⟩
  | cons a as ih =>
    rw [List.forall_mem_cons, ← ih, List.mapM_cons]
    constructor
    · rintro ⟨bs, h⟩
      obtain ⟨b, hb, h⟩ := bind_ok h
      obtain ⟨rest, hrest, -⟩ := bind_ok h
      exact ⟨⟨b, hb⟩, rest, hrest⟩
    · rintro ⟨⟨b, hb⟩, rest, hrest⟩
      exact ⟨b :: rest, by rw [hb, hrest]; rfl⟩

end Engine

section Definitions

variable {s : Session} {id : Nat} {a : Arena} {sc : Scope} {definitions : List (Value × Value)} {names : List String}

theorem Value.isToken_iff {d : Value} {name : String} : d.isToken name = true ↔ d = .string name := by
  unfold isToken
  cases d <;> simp [string?]

theorem Arena.leadsToStructure_iff {name : String} : a.leadsToStructure name = true ↔
    ∃ r t, a.ref? name = some r ∧ a.target r = .filled t ∧ t.isStructure = true := by
  unfold leadsToStructure
  cases a.ref? name with
  | none => simp
  | some r => cases htarget : a.target r <;> simp [htarget]

theorem Session.defines_iff {name : String} : (s.outlook id definitions).defines name = true ↔
    ∃ d, (name, d) ∈ Value.named definitions := by
  unfold outlook
  simp only [List.any_eq_true, Value.isToken_iff, Engine.mem_named]
  constructor
  · rintro ⟨⟨_, d⟩, hd, rfl⟩
    exact ⟨d, hd⟩
  · rintro ⟨d, hd⟩
    exact ⟨_, hd, rfl⟩

theorem Session.structures_iff (ha : s.arena? id = some a) {name : String} :
    (s.outlook id definitions).structures name = true ↔
      (∃ d, (name, d) ∈ Value.named definitions ∧ d.isStructure = true) ∨ a.leadsToStructure name = true := by
  unfold outlook
  simp only [ha, Option.any_some, Bool.or_eq_true, List.any_eq_true, Bool.and_eq_true, Value.isToken_iff,
    Engine.mem_named]
  refine or_congr_left ⟨?_, ?_⟩
  · rintro ⟨⟨_, d⟩, hd, rfl, hstructure⟩
    exact ⟨d, hd, hstructure⟩
  · rintro ⟨d, hd, hstructure⟩
    exact ⟨_, hd, rfl, hstructure⟩

/-- Definitions whose names are accepted make a batch. -/
def Batch.ofDefinitions (hs : s.Settled) (ha : s.arena? id = some a) (hsc : s.scope? id = some sc)
    (hnames : (definitions.mapM fun d => Engine.checkName sc a d.1) = .ok names)
    (hkeys : definitions.Pairwise fun d e => d.1.same e.1 = false)
    (hplain : ∀ d ∈ definitions, d.2.isPlain = true ∧ d.2.isOrderly (s.outlook id definitions) = true) : Batch s id where
  arena := a
  scope := sc
  outlook := s.outlook id definitions
  entries := Value.named definitions
  settled := hs
  finds := ha
  opens := hsc
  distinct := (Engine.named_of_checked hnames).1 ▸ (Engine.checkNames_ok hnames hkeys).1
  fresh := (Engine.named_of_checked hnames).1 ▸ fun n hn => ((Engine.checkNames_ok hnames hkeys).2.1 n hn).2.1
  fit := (Engine.named_of_checked hnames).1 ▸ fun n hn => ((Engine.checkNames_ok hnames hkeys).2.1 n hn).1
  orderly := fun e he => hplain _ (Engine.mem_named.mp he)
  defines := fun n hn => by
    obtain ⟨e, he, rfl⟩ := List.mem_map.mp hn
    exact Session.defines_iff.mpr ⟨e.2, he⟩
  structures := fun e he hstructure => by
    obtain ⟨hdistinct, hfit, -⟩ := Engine.checkNames_ok hnames hkeys
    rw [← (Engine.named_of_checked hnames).1] at hdistinct hfit
    rcases (Session.structures_iff ha).mp hstructure with ⟨d, hd, hstructure⟩ | hleads
    · exact List.inj_on_of_nodup_map hdistinct hd he rfl ▸ hstructure
    · obtain ⟨r, t, hr, -⟩ := Arena.leadsToStructure_iff.mp hleads
      have hnew := Arena.ref?_eq_none.mpr (hfit e.1 (List.mem_map_of_mem he)).2.1
      simp [hnew] at hr
  older := fun r t hr hstructure ht => by
    obtain ⟨-, hfit, -⟩ := Engine.checkNames_ok hnames hkeys
    rw [← (Engine.named_of_checked hnames).1] at hfit
    rcases (Session.structures_iff ha).mp hstructure with ⟨d, hd, -⟩ | hleads
    · exact absurd hr.name_mem (hfit r.name (List.mem_map.mpr ⟨_, hd, rfl⟩)).2.1
    · obtain ⟨q, u, hq, hu, hstructure⟩ := Arena.leadsToStructure_iff.mp hleads
      rw [show a.ref? r.name = some r from hr] at hq
      cases hq
      rw [ht] at hu
      cases hu
      exact hstructure

/-- Whether a batch is defined does not depend on its order. -/
theorem Batch.defineAll_run (b : Batch s id) (hperm : b.entries.Perm (Value.named definitions))
    (hchangeable : ∀ d ∈ definitions, d.1.changeable? = none)
    (hnames : (definitions.mapM fun d => Engine.checkName b.scope b.arena d.1) = .ok names) (hne : definitions ≠ []) :
    let run := (Engine.defineAll id definitions).run s
    ((∀ e ∈ b.entries, b.Accepts e.2) →
      ∃ refs u c, run = (.ok refs, u) ∧ b.Filled hperm (Value.named definitions) u c) ∧
    ((∃ e ∈ b.entries, ¬ b.Accepts e.2) → ∃ f u, run = (.error f, u)) := by
  obtain ⟨hfirst, hsecond⟩ := Engine.named_of_checked hnames
  obtain ⟨hok, herror⟩ := b.completeBatch_run hperm
  have hdistinct := order_distinct hperm
  generalize horder : Value.named definitions = order at *
  have halloc : (Engine.allocateAll id names).run s =
      (.ok (order.map fun e => b.arena.place (order.map (·.1)) e.1), b.reserved order) := by
    rw [← hfirst]
    cases order with
    | nil => exact absurd (List.map_eq_nil_iff.mp hsecond.symm) hne
    | cons e rest =>
      refine (Engine.run_allocateAll b.finds hdistinct).trans ?_
      rw [← List.map_cons, List.map_map]
      rfl
  have hbatch : (order.map fun e => b.arena.place (order.map (·.1)) e.1).zip (definitions.map (·.2)) =
      order.map fun e => (b.arena.place (order.map (·.1)) e.1, e.2) := by
    rw [← hsecond]
    exact List.zip_map'
  unfold Engine.defineAll
  rw [Engine.run_bind, Engine.run_get]
  dsimp only
  rw [show s.scope? id = some b.scope from b.opens, show s.arena? id = some b.arena from b.finds]
  dsimp only
  rw [List.findSome?_eq_none_iff.mpr hchangeable]
  dsimp only
  rw [hnames, Engine.run_bind_ok (Engine.run_lift (.ok names) s),
    Engine.run_bind_ok halloc, hbatch]
  refine ⟨fun haccepts => ?_, fun hrejects => ?_⟩
  · obtain ⟨u, c, hrun, hfilled⟩ := hok haccepts
    refine ⟨order.map fun e => b.arena.place (order.map (·.1)) e.1, u, c, ?_, hfilled⟩
    rw [Engine.run_bind, Engine.run_tryCatch, hrun]
    rfl
  · obtain ⟨f, u, hrun⟩ := herror hrejects
    refine ⟨f, ?_⟩
    rw [Engine.run_bind, Engine.run_tryCatch, hrun]
    exact ⟨_, rfl⟩

/-- A batch with a name that is not accepted is not defined. -/
theorem Engine.defineAll_refuses (ha : s.arena? id = some a) (hsc : s.scope? id = some sc)
    (h : ¬ ∀ d ∈ definitions, d.1.changeable? = none ∧ ∃ n, checkName sc a d.1 = .ok n) :
    ∃ f u, (defineAll id definitions).run s = (.error f, u) := by
  unfold defineAll
  rw [run_bind, run_get]
  dsimp only
  rw [hsc, ha]
  dsimp only
  cases hkey : definitions.findSome? fun d => d.1.changeable? with
  | some typeName => exact ⟨_, _, rfl⟩
  | none =>
    cases hnames : definitions.mapM fun d => checkName sc a d.1 with
    | error e => exact ⟨_, _, rfl⟩
    | ok names =>
      exact absurd (fun d hd => ⟨List.findSome?_eq_none_iff.mp hkey d hd, mapM_isOk.mp ⟨names, hnames⟩ d hd⟩) h

theorem Engine.defineAll_absent (h : s.scope? id = none ∨ s.arena? id = none) :
    (defineAll id definitions).run s = (.ok [], s) := by
  unfold defineAll
  rw [run_bind, run_get]
  dsimp only
  rcases h with h | h <;> rw [h]
  · rfl
  · cases s.scope? id <;> rfl

/-- Names are the same in every order. -/
theorem Batch.Filled.contains_run {b : Batch s id} {order : List (String × Value)} {hperm : b.entries.Perm order}
    {t : Session} {c : Arena} (h : b.Filled hperm order t c) (text : String) :
    ((Engine.contains id (.string text)).run t).1 = .ok (Arenas.ref? b.blank.arenas id text).isSome := by
  have hrun : ((Engine.contains id (.string text)).run t).1 = .ok (Arenas.ref? t.arenas id text).isSome := rfl
  rw [hrun, h.ref?_moved, Option.isSome_map]

/-- A batch is defined in one order when it is in another, and every text is then validated alike: a name of the batch
takes the same values, with the same outcome, whatever was defined before it. -/
theorem Session.Settled.defineAll_perm (hs : s.Settled) (id : Nat) {definitions definitions' : List (Value × Value)}
    (hperm : definitions.Perm definitions') (hkeys : definitions.Pairwise fun d e => d.1.same e.1 = false)
    (hplain : ∀ d ∈ definitions, d.2.isPlain = true ∧ d.2.isOrderly (s.outlook id definitions) = true) :
    let x := (Engine.defineAll id definitions).run s
    let y := (Engine.defineAll id definitions').run s
    ((∃ refs, x.1 = .ok refs) ↔ ∃ refs, y.1 = .ok refs) ∧
      ∀ refs refs', x.1 = .ok refs → y.1 = .ok refs' → ∀ text,
        ((Engine.contains id (.string text)).run x.2).1 = ((Engine.contains id (.string text)).run y.2).1 ∧
        ∀ given v, ((Engine.validate (some id) given (.string text) v).run x.2).1 =
          ((Engine.validate (some id) given (.string text) v).run y.2).1 := by
  intro x y
  by_cases hne : definitions = []
  · subst hne
    obtain rfl := List.nil_perm.mp hperm
    exact ⟨.rfl, fun _ _ _ _ _ => ⟨rfl, fun _ _ => rfl⟩⟩
  have hne' : definitions' ≠ [] := fun h => hne (List.perm_nil.mp (h ▸ hperm))
  by_cases habsent : s.scope? id = none ∨ s.arena? id = none
  · rw [show x = (.ok [], s) from Engine.defineAll_absent habsent,
      show y = (.ok [], s) from Engine.defineAll_absent habsent]
    exact ⟨.rfl, fun _ _ _ _ _ => ⟨rfl, fun _ _ => rfl⟩⟩
  obtain ⟨hscope, harena⟩ := not_or.mp habsent
  obtain ⟨sc, hsc⟩ := Option.ne_none_iff_exists'.mp hscope
  obtain ⟨a, ha⟩ := Option.ne_none_iff_exists'.mp harena
  by_cases hchecks : ∀ d ∈ definitions, d.1.changeable? = none ∧ ∃ n, Engine.checkName sc a d.1 = .ok n
  · have hchecks' : ∀ d ∈ definitions', d.1.changeable? = none ∧ ∃ n, Engine.checkName sc a d.1 = .ok n := fun d hd =>
      hchecks d (hperm.mem_iff.mpr hd)
    obtain ⟨names, hnames⟩ := Engine.mapM_isOk.mpr fun d hd => (hchecks d hd).2
    obtain ⟨names', hnames'⟩ := Engine.mapM_isOk.mpr fun d hd => (hchecks' d hd).2
    let b := Batch.ofDefinitions hs ha hsc hnames hkeys hplain
    obtain ⟨hok, herror⟩ := b.defineAll_run (.refl _) (fun d hd => (hchecks d hd).1) hnames hne
    obtain ⟨hok', herror'⟩ := b.defineAll_run (hperm.filterMap _) (fun d hd => (hchecks' d hd).1) hnames' hne'
    by_cases haccepts : ∀ e ∈ b.entries, b.Accepts e.2
    · obtain ⟨refs, t, c, hrun, hfilled⟩ := hok haccepts
      obtain ⟨refs', u, c', hrun', hfilled'⟩ := hok' haccepts
      rw [show x = (.ok refs, t) from hrun, show y = (.ok refs', u) from hrun']
      refine ⟨⟨fun _ => ⟨refs', rfl⟩, fun _ => ⟨refs, rfl⟩⟩, fun _ _ _ _ text => ⟨?_, fun given v => ?_⟩⟩
      · exact (hfilled.contains_run text).trans (hfilled'.contains_run text).symm
      · exact (hfilled.validate_run given text v).trans (hfilled'.validate_run given text v).symm
    · push Not at haccepts
      obtain ⟨f, t, hrun⟩ := herror haccepts
      obtain ⟨f', u, hrun'⟩ := herror' haccepts
      rw [show x = (.error f, t) from hrun, show y = (.error f', u) from hrun']
      simp
  · obtain ⟨f, t, hrun⟩ := Engine.defineAll_refuses ha hsc hchecks
    have hchecks' : ¬ ∀ d ∈ definitions', d.1.changeable? = none ∧ ∃ n, Engine.checkName sc a d.1 = .ok n := fun h =>
      hchecks fun d hd => h d (hperm.mem_iff.mp hd)
    obtain ⟨f', u, hrun'⟩ := Engine.defineAll_refuses ha hsc hchecks'
    rw [show x = (.error f, t) from hrun, show y = (.error f', u) from hrun']
    simp

/-- Two definitions that refer to each other, one of them with a default and one with an index signature. -/
theorem Session.Settled.defineAll_perm_mutual :
    let hooks : Hooks := ⟨fun _ v => .value v, fun _ => .ok .null⟩
    let s := (Session.start "app" hooks).afterCalls [.openScope none]
    let person : Value × Value := (.string "person", .mapping [(.string "name", .string "string"),
      (.string "friends", .string "person[]"), (.string "lead", .list [.string "team", .string "|", .string "null"]),
      (.string "age", .list [.list [.string "number", .string "|", .null], .string "=", .null])])
    let team : Value × Value := (.string "team", .mapping [(.string "[string]", .string "person[]")])
    let x := (Engine.defineAll 1 [person, team]).run s
    let y := (Engine.defineAll 1 [team, person]).run s
    let lonely : Value := .mapping [(.string "name", .string "x"), (.string "friends", .list []), (.string "lead", .null)]
    s.Settled ∧ [person, team].Perm [team, person] ∧
      ([person, team].Pairwise fun d e => d.1.same e.1 = false) ∧
      (∀ d ∈ [person, team], d.2.isPlain = true ∧ d.2.isOrderly (s.outlook 1 [person, team]) = true) ∧
      (x.1 matches .ok _) = true ∧ (y.1 matches .ok _) = true ∧
      (((Engine.validate (some 1) none (.string "person") lonely).run y.2).1 matches .ok (.ok _)) = true ∧
      ∀ text given v, ((Engine.validate (some 1) given (.string text) v).run x.2).1 =
        ((Engine.validate (some 1) given (.string text) v).run y.2).1 := by
  intro hooks s person team x y lonely
  have hs : s.Settled := ((Session.settled_start "app" hooks []).afterCalls (by simp [ScopeCall.IsPlain])).1
  have hperm : [person, team].Perm [team, person] := .swap _ _ _
  have hkeys : [person, team].Pairwise fun d e => d.1.same e.1 = false := by decide +kernel
  have hplain : ∀ d ∈ [person, team], d.2.isPlain = true ∧ d.2.isOrderly (s.outlook 1 [person, team]) = true := by
    decide +kernel
  have hx : (x.1 matches .ok _) = true := by decide +kernel
  have hy : (y.1 matches .ok _) = true := by decide +kernel
  refine ⟨hs, hperm, hkeys, hplain, hx, hy, by decide +kernel, fun text given v => ?_⟩
  obtain ⟨-, halike⟩ := hs.defineAll_perm 1 hperm hkeys hplain
  cases hx' : x.1 with
  | error e => simp [hx'] at hx
  | ok refs =>
    cases hy' : y.1 with
    | error e => simp [hy'] at hy
    | ok refs' => exact (halike refs refs' hx' hy' text).2 given v

/-- An index key that the batch itself names is looked at in one order only. -/
example :
    let s := (Session.start "app" ⟨fun _ v => .value v, fun _ => .ok .null⟩).afterCalls [.openScope none]
    let object : Value × Value := (.string "o", .mapping [(.string "[k]", .string "number")])
    let key : Value × Value := (.string "k", .string "number")
    (((Engine.defineAll 1 [object, key]).run s).1 matches .ok _) = true ∧
      (((Engine.defineAll 1 [key, object]).run s).1 matches .error _) = true := by
  decide +kernel

end Definitions
end Schemata
