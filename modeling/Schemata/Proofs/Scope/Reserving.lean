import Schemata.Proofs.Scope.MirroredReading

/-! Slots reserved for the names of a batch, in one order or another. What stood in the arenas before is where it
was, and a name of the batch has its slot by its place in the order. -/
namespace Schemata

theorem zipIdx_of_nodup {names : List String} (h : names.Nodup) (k : Nat) :
    names.zipIdx k = names.map fun n => (n, k + names.idxOf n) := by
  refine List.ext_getElem (by simp) fun i hi hi' => ?_
  have hlt : i < names.length := by simpa using hi
  rw [List.getElem_zipIdx, List.getElem_map, h.idxOf_getElem i hlt]

namespace Arena

variable {a : Arena} {name : String} {names : List String}

/-- The arena with slots for more names, in their order. -/
def reserve (a : Arena) (names : List String) : Arena :=
  ⟨a.id, a.slots ++ List.replicate names.length none, a.handles ++ names.zipIdx a.slots.length⟩

/-- The reference of a name that got its slot among others. -/
def place (a : Arena) (names : List String) (name : String) : Ref := ⟨a.id, a.slots.length + names.idxOf name, name⟩

theorem reserve_nil (a : Arena) : a.reserve [] = a := by simp [reserve]

theorem reserve_cons (a : Arena) (name : String) (names : List String) :
    a.reserve (name :: names) = (a.allocate name).2.reserve names := by
  simp [reserve, allocate, List.replicate_succ]

theorem length_reserve (a : Arena) (names : List String) :
    (a.reserve names).slots.length = a.slots.length + names.length := by
  simp [reserve]

theorem Grows.reserve (a : Arena) (names : List String) : a.Grows (a.reserve names) := by
  induction names generalizing a with
  | nil => exact (reserve_nil a).symm ▸ .refl a
  | cons name names ih => exact (reserve_cons a name names).symm ▸ (Grows.allocate a name).trans (ih _)

theorem Sound.reserve (ha : a.Sound) (hnames : names.Nodup) (hnew : ∀ n ∈ names, n ∉ a.names)
    (hfit : ∀ n ∈ names, Schema.ofKeyword? n = none) : (a.reserve names).Sound := by
  induction names generalizing a with
  | nil => exact (reserve_nil a).symm ▸ ha
  | cons name names ih =>
    obtain ⟨hname, hnames⟩ := List.nodup_cons.mp hnames
    obtain ⟨hnew', hnew⟩ := List.forall_mem_cons.mp hnew
    obtain ⟨hfit', hfit⟩ := List.forall_mem_cons.mp hfit
    rw [reserve_cons]
    refine ih (ha.allocate hnew' hfit') hnames (fun n hn => ?_) hfit
    have hall : (a.allocate name).2.names = a.names ++ [name] := by simp [Arena.names, Arena.allocate]
    rw [hall, List.mem_append, List.mem_singleton]
    rintro (hin | rfl)
    · exact hnew n hn hin
    · exact hname hn

/-- New names have the references of their places, other names those that they had. -/
theorem ref?_reserve (hnames : names.Nodup) (hnew : ∀ n ∈ names, n ∉ a.names) (name : String) :
    (a.reserve names).ref? name = if name ∈ names then some (a.place names name) else a.ref? name := by
  unfold ref? reserve
  dsimp only
  rw [zipIdx_of_nodup hnames, List.lookup_append]
  split_ifs with hname
  · have hold : a.handles.lookup name = none := by
      simpa [ref?] using ref?_eq_none.mpr (hnew name hname)
    have hkeys : ((names.map fun n => (n, a.slots.length + names.idxOf n)).map (·.1)).Nodup := by
      simpa [Function.comp_def] using hnames
    rw [hold, Option.none_or, (lookup_eq_some hkeys).mpr (List.mem_map.mpr ⟨name, hname, rfl⟩)]
    rfl
  · have hnone : (names.map fun n => (n, a.slots.length + names.idxOf n)).lookup name = none := by
      rw [List.lookup_eq_none_iff]
      intro e he
      obtain ⟨n, hn, rfl⟩ := List.mem_map.mp he
      have hne : name ≠ n := fun heq => hname (heq ▸ hn)
      simpa using hne
    rw [hnone, Option.or_none]

theorem slot_reserve (h : name ∈ names) : (a.reserve names).slots[(a.place names name).handle]? = some none := by
  have hlt : names.idxOf name < names.length := List.idxOf_lt_length_of_mem h
  show (a.slots ++ List.replicate names.length none)[a.slots.length + names.idxOf name]? = some none
  rw [List.getElem?_append_right (Nat.le_add_right _ _), Nat.add_sub_cancel_left, List.getElem?_replicate, if_pos hlt]

theorem place_inj {other : String} (h : name ∈ names) :
    (a.place names name).handle = (a.place names other).handle ↔ name = other := by
  show a.slots.length + names.idxOf name = a.slots.length + names.idxOf other ↔ name = other
  rw [Nat.add_left_cancel_iff, List.idxOf_inj h]

end Arena

namespace Moving

variable {id base : Nat} {names names' : List String} {r : Ref}

/-- Slots behind those of an arena change places when their names do. -/
def reorder (id base : Nat) (hnames : names.Nodup) (hperm : names.Perm names') : Moving where
  slot p := if h : p.1 = id ∧ base ≤ p.2 ∧ p.2 - base < names.length then (id, base + names'.idxOf names[p.2 - base]) else p
  injective := by
    have inside : ∀ i (hi : i < names.length), names'.idxOf names[i] < names.length := fun i hi =>
      hperm.length_eq ▸ List.idxOf_lt_length_of_mem (hperm.mem_iff.mp (List.getElem_mem hi))
    rintro ⟨x, h⟩ ⟨y, k⟩ heq
    dsimp only at heq
    split_ifs at heq with hx hy hy
    · obtain ⟨rfl, hbase, hlt⟩ := hx
      obtain ⟨rfl, hbase', hlt'⟩ := hy
      have hidx := Nat.add_left_cancel (Prod.mk.inj heq).2
      rw [List.idxOf_inj (hperm.mem_iff.mp (List.getElem_mem hlt)), hnames.getElem_inj_iff] at hidx
      exact Prod.ext rfl (by show h = k; omega)
    · obtain ⟨rfl, rfl⟩ := Prod.mk.inj heq
      have := inside _ hx.2.2
      exact absurd ⟨rfl, by omega, by omega⟩ hy
    · obtain ⟨rfl, rfl⟩ := Prod.mk.inj heq
      have := inside _ hy.2.2
      exact absurd ⟨rfl, by omega, by omega⟩ hx
    · exact heq

variable {hnames : names.Nodup} {hperm : names.Perm names'}

theorem reorder_place {a : Arena} {name : String} (h : name ∈ names) :
    (a.place names name).moved (reorder a.id a.slots.length hnames hperm) = a.place names' name := by
  have hlt : names.idxOf name < names.length := List.idxOf_lt_length_of_mem h
  have hslot : (reorder a.id a.slots.length hnames hperm).slot (a.id, a.slots.length + names.idxOf name) =
      (a.id, a.slots.length + names'.idxOf name) := by
    simp [reorder, hlt]
  unfold Ref.moved Arena.place
  dsimp only
  rw [hslot]

theorem reorder_elsewhere (h : r.arena ≠ id ∨ r.handle < base) : r.moved (reorder id base hnames hperm) = r := by
  have hslot : (reorder id base hnames hperm).slot (r.arena, r.handle) = (r.arena, r.handle) := by
    refine dif_neg fun hin => ?_
    rcases h with h | h
    · exact h hin.1
    · exact absurd hin.2.1 (Nat.not_le.mpr h)
  unfold Ref.moved
  rw [hslot]

end Moving

namespace Arenas

variable {as : List Arena} {a b c : Arena} {id : Nat} {r : Ref}

theorem replace_replace (h : b.id = c.id) : replace (replace as b) c = replace as c := by
  unfold replace
  rw [List.map_map]
  refine List.map_congr_left fun x _ => ?_
  by_cases hx : x.id = c.id <;> simp [h, hx]

theorem slotCount_replace {env env' : Env} (henv : env.arenas = replace as b) (henv' : env'.arenas = replace as c)
    (hid : b.id = c.id) (hlength : b.slots.length = c.slots.length) : env'.slotCount = env.slotCount := by
  unfold Env.slotCount
  rw [henv, henv']
  clear henv henv'
  induction as with
  | nil => rfl
  | cons x as ih =>
    unfold replace at ih ⊢
    rw [List.map_cons, List.map_cons, List.foldr_cons, List.foldr_cons, ih]
    by_cases hx : x.id = c.id <;> simp [hid, hx, hlength]

theorem env_target_replace {env : Env} (henv : env.arenas = replace as b) (ha : find? as id = some a) (hid : b.id = id)
    (hr : r.arena = id) : env.target r = b.target r := by
  rw [env_target henv]
  exact target_of_find ((find?_replace ha hid r.arena).trans (if_pos hr))

/-- Where every name has its schema, one arena may grow and what the names lead to stays. -/
theorem env_target_earlier {env : Env} (henv : env.arenas = replace as b) (hsound : Sound as)
    (hfull : ∀ id a, find? as id = some a → a.Full) (ha : find? as id = some a) (hgrows : a.Grows b)
    (hr : Registers as r) : ∃ t, target as r = .filled t ∧ t.Into (Registers as) ∧ env.target r = .filled t := by
  obtain ⟨c, hc, hcr⟩ := hr
  obtain ⟨t, ht⟩ := hfull _ c hc r hcr
  have htarget : target as r = .filled t := (target_of_find hc).trans ht
  refine ⟨t, htarget, ?_, ?_⟩
  · exact ((hsound.closed r.arena).leads r t ⟨rfl, c, hc, hcr⟩ htarget).mono fun q hq => hq.2
  have hid : b.id = id := hgrows.id.trans (id_of_find ha)
  by_cases hr : r.arena = id
  · obtain rfl : a = c := Option.some.inj (ha.symm.trans (hr ▸ hc))
    rw [env_target_replace henv ha hid hr, hgrows.target (hsound _ a ha) hcr, ht]
  · rw [env_target henv, ← htarget]
    unfold target
    rw [find?_replace ha hid, if_neg hr]

end Arenas

/-- Environments in which every reference of `S` has its schema. -/
theorem Env.Moves.of_filled {m : Moving} {S : Ref → Prop} {env env' : Env} (hhooks : env'.hooks = env.hooks)
    (hslots : env'.slotCount = env.slotCount) (h : ∀ r, S r → ∃ t, env.target r = .filled t ∧ t.Into S ∧
      ∃ n, env'.target (r.moved m) = .filled (t.moved m n)) : env.Moves m S env' := by
  refine ⟨hhooks, hslots, fun r hr hlost => ?_, fun r hr hpending => ?_, fun r s hr hs => ?_⟩
  · obtain ⟨t, ht, -⟩ := h r hr
    simp [ht] at hlost
  · obtain ⟨t, ht, -⟩ := h r hr
    simp [ht] at hpending
  · obtain ⟨t, ht, hinto, hmoved⟩ := h r hr
    rw [ht] at hs
    cases hs
    exact ⟨hinto, hmoved⟩

namespace Engine

variable {id : Nat} {b : Arena} {t : Session}

/-- Reserving slots for names changes one arena only. -/
theorem run_allocateAll {name : String} {names : List String} (h : Arenas.find? t.arenas id = some b)
    (hnames : (name :: names).Nodup) :
    (allocateAll id (name :: names)).run t = (.ok ((name :: names).map (b.place (name :: names))),
      { t with arenas := Arenas.replace t.arenas (b.reserve (name :: names)) }) := by
  have hrefs : ∀ names : List String, names.Nodup →
      names.map (b.place names) = (names.zipIdx b.slots.length).map fun e => (⟨b.id, e.2, e.1⟩ : Ref) := fun names h => by
    rw [zipIdx_of_nodup h, List.map_map]
    rfl
  rw [hrefs _ hnames]
  clear hrefs
  induction names generalizing t b name with
  | nil =>
    unfold allocateAll
    rw [run_bind, run_get]
    have harena : t.arena? id = some b := h
    simp only [harena, run_bind, run_set, allocateAll, run_pure, List.zipIdx_cons, List.zipIdx_nil, List.map_cons,
      List.map_nil, Arena.reserve_cons, Arena.reserve_nil]
    rfl
  | cons next names ih =>
    have hid : b.id = id := Arenas.id_of_find h
    have hstep : Arenas.find? (t.setArena (b.allocate name).2).arenas id = some (b.allocate name).2 :=
      (Arenas.find?_replace (b := (b.allocate name).2) h hid id).trans (if_pos rfl)
    have hrun := ih hstep (List.nodup_cons.mp hnames).2
    unfold allocateAll
    rw [run_bind, run_get]
    have harena : t.arena? id = some b := h
    simp only [harena, run_bind, run_set, hrun, run_pure]
    refine Prod.ext ?_ ?_
    · simp [List.zipIdx_cons, Arena.allocate]
    · have hsame : (b.allocate name).2.id = ((b.allocate name).2.reserve (next :: names)).id := rfl
      rw [Arena.reserve_cons b]
      exact congrArg (fun as : List Arena => ({ t with arenas := as } : Session)) (Arenas.replace_replace hsame)

end Engine
end Schemata
