import Schemata.Definition.Reading
import Schemata.Proofs.Schema.References

/-! Arenas in order: every name has a slot of its own, and what stands in the slots refers to nothing but names of
the arena. Slots reserved at the end of an arena leave what stands before them as it is. -/
namespace Schemata

/-- With distinct keys, what is found under a key is what stands beside it. -/
theorem lookup_eq_some {α : Type} {entries : List (String × α)} (h : (entries.map (·.1)).Nodup) {name : String} {x : α} :
    entries.lookup name = some x ↔ (name, x) ∈ entries := by
  induction entries with
  | nil => simp
  | cons e entries ih =>
    obtain ⟨key, y⟩ := e
    obtain ⟨he, h⟩ := List.nodup_cons.mp h
    by_cases hname : name = key
    · subst hname
      have habsent : (name, x) ∉ entries := fun hx => he (List.mem_map.mpr ⟨_, hx, rfl⟩)
      simp [habsent, eq_comm]
    · have hne : (name == key) = false := by simpa using hname
      simp [List.lookup_cons, hne, hname, ih h]

theorem lookup_filter_ne {α : Type} {entries : List (String × α)} {name other : String} (h : other ≠ name) :
    (entries.filter fun e => e.1 != name).lookup other = entries.lookup other := by
  induction entries with
  | nil => rfl
  | cons e entries ih =>
    obtain ⟨key, x⟩ := e
    by_cases he : key = name
    · have hne : (other == key) = false := by simpa [he] using h
      rw [List.filter_cons, if_neg (by simpa using he), List.lookup_cons, hne]
      exact ih
    · rw [List.filter_cons, if_pos (by simpa using he), List.lookup_cons, List.lookup_cons, ih]

theorem lookup_filter_self {α : Type} {entries : List (String × α)} {name : String} :
    (entries.filter fun e => e.1 != name).lookup name = none := by
  rw [List.lookup_eq_none_iff]
  intro e he
  have hne : e.1 ≠ name := by simpa using (List.mem_filter.mp he).2
  simpa using Ne.symm hne

namespace Arena

variable {a b c : Arena} {r q : Ref} {s t : Schema} {name : String} {names : List String} {h : Nat}

/-- The reference is the one that its name has in the arena. -/
def Registers (a : Arena) (r : Ref) : Prop := a.ref? r.name = some r

theorem registers_iff : a.Registers r ↔ r.arena = a.id ∧ a.handles.lookup r.name = some r.handle := by
  obtain ⟨id, handle, name⟩ := r
  unfold Registers ref?
  cases a.handles.lookup name <;> simp [eq_comm, and_comm]

theorem ref?_eq_some : a.ref? name = some r ↔ r.name = name ∧ a.Registers r := by
  unfold Registers ref?
  constructor
  · intro h
    obtain ⟨handle, hlookup, rfl⟩ := Option.map_eq_some_iff.mp h
    exact ⟨rfl, h⟩
  · rintro ⟨rfl, h⟩
    exact h

theorem names_of_handles (h : b.handles = a.handles) : b.names = a.names := by
  unfold Arena.names
  rw [h]

theorem ref?_eq_none : a.ref? name = none ↔ name ∉ a.names := by
  unfold ref? Arena.names
  rw [Option.map_eq_none_iff, List.lookup_eq_none_iff, List.mem_map]
  constructor
  · rintro h ⟨e, he, rfl⟩
    simpa using h e he
  · intro h e he
    simpa using fun heq => h ⟨e, he, heq.symm⟩

/-- A name has one reference. -/
theorem registers_unique (hr : a.Registers r) (hq : a.Registers q) (h : q.name = r.name) : q = r := by
  unfold Registers at hr hq
  rw [h] at hq
  exact Option.some.inj (hq.symm.trans hr)

theorem exists_registers (h : name ∈ a.names) : ∃ r, a.Registers r ∧ r.name = name := by
  cases href : a.ref? name with
  | none => exact absurd h (ref?_eq_none.mp href)
  | some r => exact ⟨r, (ref?_eq_some.mp href).2, (ref?_eq_some.mp href).1⟩

theorem target_eq_filled : a.target r = .filled t ↔ a.slots[r.handle]? = some (some t) := by
  unfold target
  cases a.slots[r.handle]? with
  | none => simp
  | some slot => cases slot <;> simp

/-- Names and slots go together, no name is a keyword, and schemas refer to registered names only. -/
structure Sound (a : Arena) : Prop where
  names : a.names.Nodup
  handles : (a.handles.map (·.2)).Nodup
  inside : ∀ e ∈ a.handles, e.2 < a.slots.length
  fit : ∀ e ∈ a.handles, Schema.ofKeyword? e.1 = none
  named : ∀ (h : Nat) (t : Schema), a.slots[h]? = some (some t) → ∃ name, (name, h) ∈ a.handles
  refers : ∀ (h : Nat) (t : Schema), a.slots[h]? = some (some t) → t.Into a.Registers

/-- The slot of every name is filled. -/
def Full (a : Arena) : Prop := ∀ r, a.Registers r → ∃ t, a.target r = .filled t

theorem sound_empty (id : Nat) : (empty id).Sound := by
  refine ⟨?_, ?_, ?_, ?_, ?_, ?_⟩ <;> simp [empty, Arena.names]

theorem full_empty (id : Nat) : (empty id).Full := by
  intro r hr
  rw [registers_iff] at hr
  simp [empty] at hr

theorem Registers.name_mem (hr : a.Registers r) : r.name ∈ a.names := by
  by_contra h
  unfold Registers at hr
  simp [ref?_eq_none.mpr h] at hr

theorem Sound.mem (ha : a.Sound) (hr : a.Registers r) : (r.name, r.handle) ∈ a.handles :=
  (lookup_eq_some ha.names).mp (registers_iff.mp hr).2

theorem Sound.lt (ha : a.Sound) (hr : a.Registers r) : r.handle < a.slots.length := ha.inside _ (ha.mem hr)

/-- A slot has one name. -/
theorem Sound.name_unique (ha : a.Sound) {name other : String} (hn : (name, h) ∈ a.handles)
    (ho : (other, h) ∈ a.handles) : name = other :=
  congrArg Prod.fst (List.inj_on_of_nodup_map ha.handles hn ho rfl)

/-- The second arena has what the first has, and other names and slots behind it. -/
structure Grows (a b : Arena) : Prop where
  id : b.id = a.id
  handles : a.handles <+: b.handles
  slots : a.slots <+: b.slots
  behind : ∀ e ∈ b.handles, e ∈ a.handles ∨ a.slots.length ≤ e.2

namespace Grows

theorem refl (a : Arena) : a.Grows a := ⟨rfl, List.prefix_refl _, List.prefix_refl _, fun _ he => Or.inl he⟩

theorem trans (h : a.Grows b) (k : b.Grows c) : a.Grows c := by
  refine ⟨k.id.trans h.id, h.handles.trans k.handles, h.slots.trans k.slots, fun e he => ?_⟩
  rcases k.behind e he with he | he
  · exact h.behind e he
  · exact Or.inr (h.slots.length_le.trans he)

theorem registers (h : a.Grows b) (hr : a.Registers r) : b.Registers r := by
  obtain ⟨new, hnew⟩ := h.handles
  rw [registers_iff] at hr ⊢
  rw [h.id, ← hnew, List.lookup_append, hr.2]
  exact ⟨hr.1, rfl⟩

theorem slot (h : a.Grows b) {i : Nat} (hi : i < a.slots.length) : b.slots[i]? = a.slots[i]? := by
  obtain ⟨extra, hextra⟩ := h.slots
  rw [← hextra, List.getElem?_append_left hi]

theorem target (h : a.Grows b) (ha : a.Sound) (hr : a.Registers r) : b.target r = a.target r := by
  unfold Arena.target
  rw [h.slot (ha.lt hr)]

theorem allocate (a : Arena) (name : String) : a.Grows (a.allocate name).2 := by
  refine ⟨rfl, List.prefix_append _ _, List.prefix_append _ _, fun e he => ?_⟩
  rcases List.mem_append.mp he with he | he
  · exact Or.inl he
  · rw [List.mem_singleton.mp he]
    exact Or.inr le_rfl

/-- Slots behind those of an arena can be filled. -/
theorem fill (h : a.Grows b) (hr : a.slots.length ≤ r.handle) : a.Grows (b.fill r t) := by
  obtain ⟨extra, hextra⟩ := h.slots
  refine ⟨h.id, h.handles, ⟨extra.set (r.handle - a.slots.length) (some t), ?_⟩, h.behind⟩
  show a.slots ++ _ = b.slots.set r.handle (some t)
  rw [← hextra, List.set_append_right _ _ hr]

end Grows

/-- A new name that is no keyword can have a slot. -/
theorem Sound.allocate (ha : a.Sound) (hnew : name ∉ a.names) (hfit : Schema.ofKeyword? name = none) :
    (a.allocate name).2.Sound := by
  have hslot : ∀ (h : Nat) (t : Schema), (a.slots ++ [none])[h]? = some (some t) → a.slots[h]? = some (some t) := by
    intro h t hh
    rcases Nat.lt_or_ge h a.slots.length with hlt | hge
    · rwa [List.getElem?_append_left hlt] at hh
    · rw [List.getElem?_append_right hge, List.getElem?_singleton] at hh
      split at hh <;> simp at hh
  have hbelow : a.slots.length ∉ a.handles.map (·.2) := by
    intro h
    obtain ⟨e, he, heq⟩ := List.mem_map.mp h
    exact absurd (ha.inside e he) (by omega)
  refine ⟨?_, ?_, ?_, ?_, fun h t hh => ?_, fun h t hh => ?_⟩
  · show ((a.handles ++ [(name, a.slots.length)]).map (·.1)).Nodup
    rw [List.map_append]
    exact List.nodup_append_comm.mp (by simpa using ⟨by simpa [Arena.names] using hnew, ha.names⟩)
  · show ((a.handles ++ [(name, a.slots.length)]).map (·.2)).Nodup
    rw [List.map_append]
    exact List.nodup_append_comm.mp (by simpa using ⟨by simpa using hbelow, ha.handles⟩)
  · refine List.forall_mem_append.mpr ⟨fun e he => ?_, by simp [Arena.allocate]⟩
    exact Nat.lt_of_lt_of_le (ha.inside e he) (by simp [Arena.allocate])
  · exact List.forall_mem_append.mpr ⟨ha.fit, by simpa using hfit⟩
  · obtain ⟨other, ho⟩ := ha.named h t (hslot h t hh)
    exact ⟨other, List.mem_append_left _ ho⟩
  · exact (ha.refers h t (hslot h t hh)).mono fun r => (Grows.allocate a name).registers

theorem registers_fill : (a.fill r t).Registers q ↔ a.Registers q := by rw [registers_iff, registers_iff]; rfl

/-- The slot of a name can be filled with what refers to names of the arena. -/
theorem Sound.fill (ha : a.Sound) (hr : a.Registers r) (ht : t.Into a.Registers) : (a.fill r t).Sound := by
  have hslot : ∀ (h : Nat) (u : Schema), (a.slots.set r.handle (some t))[h]? = some (some u) →
      h = r.handle ∧ u = t ∨ a.slots[h]? = some (some u) := by
    intro h u hh
    rw [List.getElem?_set] at hh
    split_ifs at hh with heq hlt
    · exact Or.inl ⟨heq.symm, by simpa [eq_comm] using hh⟩
    · exact Or.inr hh
  refine ⟨ha.names, ha.handles, ?_, ha.fit, fun h u hh => ?_, fun h u hh => ?_⟩
  · intro e he
    simpa [Arena.fill] using ha.inside e he
  · rcases hslot h u hh with ⟨rfl, -⟩ | hh
    · exact ⟨r.name, ha.mem hr⟩
    · exact ha.named h u hh
  · refine Schema.Into.mono (S := a.Registers) ?_ fun q => registers_fill.mpr
    rcases hslot h u hh with ⟨-, rfl⟩ | hh
    · exact ht
    · exact ha.refers h u hh

section Discard

theorem discard_id : (a.discard name).id = a.id := by
  unfold discard
  split <;> rfl

theorem discard_handles : (a.discard name).handles = a.handles.filter fun e => e.1 != name := by
  unfold discard
  cases hlookup : a.handles.lookup name with
  | some h => rfl
  | none =>
    rw [List.lookup_eq_none_iff] at hlookup
    refine (List.filter_eq_self.mpr fun e he => ?_).symm
    have hne : name ≠ e.1 := by simpa using hlookup e he
    simpa using Ne.symm hne

theorem discard_slot (i : Nat) : (a.discard name).slots[i]? =
    if a.handles.lookup name = some i then a.slots[i]?.map fun _ => none else a.slots[i]? := by
  unfold discard
  cases a.handles.lookup name with
  | none => simp
  | some h =>
    dsimp only
    rw [List.getElem?_set]
    by_cases hi : h = i
    · subst hi
      rw [if_pos rfl, if_pos rfl]
      split_ifs with hlt
      · simp [hlt]
      · simp [List.getElem?_eq_none (Nat.le_of_not_lt hlt)]
    · simp [hi]

theorem discardAll_id : (names.foldl discard a).id = a.id := by
  induction names generalizing a with
  | nil => rfl
  | cons name names ih => exact ih.trans discard_id

theorem discardAll_handles : (names.foldl discard a).handles = a.handles.filter fun e => !names.contains e.1 := by
  induction names generalizing a with
  | nil => simp
  | cons name names ih =>
    rw [List.foldl_cons, ih, discard_handles, List.filter_filter]
    congr
    funext e
    simp [bne, Bool.and_comm, beq_eq_decide]

/-- A slot that no given name stands for stays as it is. -/
theorem discardAll_slot {i : Nat} (h : ∀ name ∈ names, a.handles.lookup name ≠ some i) :
    (names.foldl discard a).slots[i]? = a.slots[i]? := by
  induction names generalizing a with
  | nil => rfl
  | cons name names ih =>
    rw [List.forall_mem_cons] at h
    rw [List.foldl_cons, ih, discard_slot, if_neg h.1]
    intro other hother
    rw [discard_handles]
    by_cases hname : other = name
    · rw [hname, lookup_filter_self]
      exact nofun
    · rw [lookup_filter_ne hname]
      exact h.2 other hother

/-- What stands in the slots afterwards stood there before, and no given name stood for it. -/
theorem filled_of_discardAll {i : Nat} (h : (names.foldl discard a).slots[i]? = some (some t)) :
    a.slots[i]? = some (some t) ∧ ∀ name ∈ names, a.handles.lookup name ≠ some i := by
  induction names generalizing a with
  | nil => exact ⟨h, by simp⟩
  | cons name names ih =>
    obtain ⟨hslot, hrest⟩ := ih h
    rw [discard_slot] at hslot
    split_ifs at hslot with hname
    · simp at hslot
    · refine ⟨hslot, List.forall_mem_cons.mpr ⟨hname, fun other hother => ?_⟩⟩
      have := hrest other hother
      rw [discard_handles] at this
      by_cases heq : other = name
      · rwa [heq]
      · rwa [lookup_filter_ne heq] at this

theorem discardAll_length : (names.foldl discard a).slots.length = a.slots.length := by
  induction names generalizing a with
  | nil => rfl
  | cons name names ih =>
    rw [List.foldl_cons, ih]
    unfold discard
    split <;> simp

end Discard

/-- The second arena has the names of the first, and its schemas in the same slots; the other slots are empty. -/
structure Restores (a b : Arena) : Prop where
  grows : a.Grows b
  handles : b.handles = a.handles
  slots : ∀ (i : Nat) (t : Schema), b.slots[i]? = some (some t) → a.slots[i]? = some (some t)

namespace Restores

theorem refl (a : Arena) : a.Restores a := ⟨.refl a, rfl, fun _ _ h => h⟩

theorem trans (h : a.Restores b) (k : b.Restores c) : a.Restores c :=
  ⟨h.grows.trans k.grows, k.handles.trans h.handles, fun i t hi => h.slots i t (k.slots i t hi)⟩

theorem registers (h : a.Restores b) : b.Registers r ↔ a.Registers r := by
  rw [registers_iff, registers_iff, h.grows.id, h.handles]

theorem sound (h : a.Restores b) (ha : a.Sound) : b.Sound := by
  refine ⟨?_, ?_, fun e he => ?_, ?_, fun i t hi => ?_, fun i t hi => ?_⟩
  · exact names_of_handles h.handles ▸ ha.names
  · exact h.handles ▸ ha.handles
  · rw [h.handles] at he
    exact Nat.lt_of_lt_of_le (ha.inside e he) h.grows.slots.length_le
  · exact h.handles ▸ ha.fit
  · obtain ⟨name, hname⟩ := ha.named i t (h.slots i t hi)
    exact ⟨name, h.handles ▸ hname⟩
  · exact (ha.refers i t (h.slots i t hi)).mono fun r => h.registers.mpr

theorem full (h : a.Restores b) (ha : a.Sound) (hfull : a.Full) : b.Full := by
  intro r hr
  rw [h.registers] at hr
  rw [h.grows.target ha hr]
  exact hfull r hr

end Restores

/-- Giving up the new names of a grown arena restores the arena. -/
theorem Grows.discardAll (h : a.Grows b) (ha : a.Sound) (hb : b.Sound) (hold : ∀ name ∈ names, name ∉ a.names)
    (hnew : ∀ name ∈ b.names, name ∈ a.names ∨ name ∈ names) : a.Restores (names.foldl discard b) := by
  obtain ⟨new, hhandles⟩ := h.handles
  have hlist : ∀ e ∈ new, e.1 ∈ names ∧ e.1 ∉ a.names := by
    intro e he
    have habsent : e.1 ∉ a.names := by
      intro hin
      have hnodup := hb.names
      unfold Arena.names at hnodup
      rw [← hhandles, List.map_append] at hnodup
      exact List.disjoint_of_nodup_append hnodup hin (List.mem_map_of_mem he)
    refine ⟨(hnew e.1 ?_).resolve_left habsent, habsent⟩
    exact List.mem_map_of_mem (hhandles ▸ List.mem_append_right _ he)
  have kept : (names.foldl discard b).handles = a.handles := by
    rw [discardAll_handles, ← hhandles, List.filter_append, List.filter_eq_self.mpr, List.filter_eq_nil_iff.mpr,
      List.append_nil]
    · intro e he
      simp [(hlist e he).1]
    · intro e he
      simpa using fun hin => hold e.1 hin (List.mem_map_of_mem he)
  have hslots : ∀ i < a.slots.length, (names.foldl discard b).slots[i]? = a.slots[i]? := by
    intro i hi
    rw [← h.slot hi]
    refine discardAll_slot fun name hname hlookup => ?_
    rcases h.behind _ ((lookup_eq_some hb.names).mp hlookup) with hin | hge
    · exact hold name hname (List.mem_map_of_mem hin)
    · exact absurd hi (Nat.not_lt.mpr hge)
  have hfilled : ∀ (i : Nat) (t : Schema), (names.foldl discard b).slots[i]? = some (some t) →
      i < a.slots.length := by
    intro i t hi
    obtain ⟨hslot, hother⟩ := filled_of_discardAll hi
    obtain ⟨name, hname⟩ := hb.named i t hslot
    rcases List.mem_append.mp (hhandles ▸ hname) with hin | hin
    · exact ha.inside _ hin
    · exact absurd ((lookup_eq_some hb.names).mpr hname) (hother name (hlist _ hin).1)
  refine ⟨⟨discardAll_id.trans h.id, kept ▸ List.prefix_refl _, ?_, fun e he => Or.inl (kept ▸ he)⟩, kept,
    fun i t hi => hslots i (hfilled i t hi) ▸ hi⟩
  rw [List.prefix_iff_getElem?]
  exact fun i hi => (hslots i hi).trans (List.getElem?_eq_getElem hi)

end Arena
end Schemata
