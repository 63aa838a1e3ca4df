import Schemata.Proofs.Value.Nesting
import Schemata.Validation.Check
import Mathlib.Data.List.Forall2
import Mathlib.Data.List.Nodup

/-! Mappings seen by key, and values as a check puts them out again: containers rebuilt from the outputs of
their parts. -/
namespace Schemata
namespace Entry

def keys (es : List Entry) : List Key := es.map (·.key)

/-- The entry that a pair of a mapping stands for. -/
def Of (e : Entry) (pair : Value × Value) : Prop :=
  Key.ofValue? pair.1 = some e.key ∧ e.raw = pair.1 ∧ e.item = pair.2

theorem find?_eq_none {es : List Entry} {k : Key} : find? es k = none ↔ ∀ e ∈ es, e.key ≠ k := by
  simp [find?]

theorem mem_of_find? {es : List Entry} {k : Key} {e : Entry} (h : find? es k = some e) : e ∈ es ∧ e.key = k :=
  ⟨List.mem_of_find?_eq_some h, by simpa using List.find?_some h⟩

theorem find?_eq_some {es : List Entry} (hes : (keys es).Nodup) {k : Key} {e : Entry} :
    find? es k = some e ↔ e ∈ es ∧ e.key = k := by
  constructor
  · exact mem_of_find?
  · rintro ⟨he, rfl⟩
    cases h : find? es e.key with
    | none => exact absurd rfl (find?_eq_none.mp h e he)
    | some f =>
      obtain ⟨hf, hk⟩ := mem_of_find? h
      rw [List.inj_on_of_nodup_map hes hf he hk]

theorem find?_isSome {es : List Entry} {k : Key} : (find? es k).isSome = true ↔ k ∈ keys es := by
  rw [Option.isSome_iff_ne_none, ne_eq, find?_eq_none]
  simp [keys]

/-- Collecting goes through when all keys are keys and none repeats. -/
theorem collect_eq {raw : List (Value × Value)} {acc es : List Entry} (hacc : (keys acc).Nodup) :
    collect acc raw = (es, []) ↔
      ∃ new, es = acc ++ new ∧ List.Forall₂ Of new raw ∧ (keys (acc ++ new)).Nodup := by
  induction raw generalizing acc with
  | nil =>
    simp only [collect, Prod.mk.injEq, and_true, List.forall₂_nil_right_iff]
    constructor
    · rintro rfl
      exact ⟨[], by simp, rfl, by simpa using hacc⟩
    · rintro ⟨_, h, rfl, -⟩
      simpa using h.symm
  | cons p raw ih =>
    obtain ⟨k, item⟩ := p
    simp only [collect, Prod.mk.injEq, List.append_eq_nil_iff, List.forall₂_cons_right_iff]
    cases hk : Key.ofValue? k with
    | none =>
      simp only [add, hk, reduceCtorEq, false_and, and_false, false_iff, not_exists, not_and]
      rintro _ _ ⟨_, _, ⟨h, -⟩, -⟩
      simp [hk] at h
    | some key =>
      cases hf : find? acc key with
      | some first =>
        simp only [add, hk, hf, reduceCtorEq, false_and, and_false, false_iff, not_exists, not_and]
        rintro new - ⟨e, rest, ⟨he, -, -⟩, -, rfl⟩ hnd
        have hkey : e.key = key := by simpa [hk] using he.symm
        have hmem : key ∈ keys acc := find?_isSome.mp (by simp [hf])
        simp only [keys, List.map_append, List.map_cons] at hnd
        exact List.disjoint_of_nodup_append hnd hmem (by simp [hkey])
      | none =>
        have hnew : (keys (acc ++ [⟨key, k, item⟩])).Nodup := by
          simp only [keys, List.map_append, List.map_cons, List.map_nil]
          refine List.Nodup.append hacc (by simp) ?_
          simp only [List.disjoint_singleton, List.mem_map, not_exists, not_and]
          exact fun e he => find?_eq_none.mp hf e he
        simp only [add, hk, hf, true_and]
        have key_iff := ih hnew
        rw [Prod.ext_iff] at key_iff
        rw [key_iff]
        constructor
        · rintro ⟨new, rfl, hall, hnd⟩
          refine ⟨⟨key, k, item⟩ :: new, by simp, ⟨_, _, ⟨hk, rfl, rfl⟩, hall, rfl⟩, by simpa using hnd⟩
        · rintro ⟨_, rfl, ⟨⟨key', k', item'⟩, new, ⟨h₁, h₂, h₃⟩, hall, rfl⟩, hnd⟩
          obtain rfl : k' = k := h₂
          obtain rfl : item' = item := h₃
          obtain rfl : key = key' := by simpa [hk] using h₁
          exact ⟨new, by simp, hall, by simpa using hnd⟩

end Entry

namespace Value

/-- The entries of a mapping whose keys are keys and do not repeat. -/
def fields? (v : Value) : Option (List Entry) :=
  v.entries?.bind fun raw =>
    match Entry.collect [] raw with
    | (es, []) => some es
    | _ => none

theorem fields?_eq_some {v : Value} {es : List Entry} : v.fields? = some es ↔
    ∃ raw, v.entries? = some raw ∧ List.Forall₂ Entry.Of es raw ∧ (Entry.keys es).Nodup := by
  simp only [fields?, Option.bind_eq_some_iff]
  refine exists_congr fun raw => and_congr_right fun _ => ?_
  have h : ∀ es, Entry.collect [] raw = (es, []) ↔ List.Forall₂ Entry.Of es raw ∧ (Entry.keys es).Nodup := by
    intro es
    rw [Entry.collect_eq (by simp [Entry.keys])]
    simp
  rw [← h]
  split <;> simp_all

theorem nodup_of_fields {v : Value} {es : List Entry} (h : v.fields? = some es) : (Entry.keys es).Nodup := by
  obtain ⟨_, _, _, h⟩ := fields?_eq_some.mp h
  exact h

/-- Items of a mapping's entries stand directly inside it. -/
theorem item_mem_children {v : Value} {es : List Entry} (h : v.fields? = some es) {e : Entry} (he : e ∈ es) :
    e.item ∈ v.unfold.children := by
  obtain ⟨raw, hraw, hall, -⟩ := fields?_eq_some.mp h
  rw [children_of_entries hraw]
  clear h hraw
  induction hall with
  | nil => simp at he
  | cons hp _ ih =>
    rcases List.mem_cons.mp he with rfl | he
    · simp [hp.2.2]
    · exact List.mem_cons_of_mem _ (ih he)

/-- A key with the item that is put out under it. -/
abbrev Pair := Key × Value

/-- A mapping of items under their keys. -/
def ofPairs (pairs : List Pair) : Value := .mapping (pairs.map fun t => (t.1.toValue, t.2))

def Pair.entry (t : Pair) : Entry := ⟨t.1, t.1.toValue, t.2⟩

end Value

theorem Key.ofValue?_toValue {k : Key} (h : k ≠ .index) : Key.ofValue? k.toValue = some k := by
  cases k with
  | index => exact absurd rfl h
  | _ => rfl

namespace Value

/-- The entries of a mapping of outputs, which has any only without the index marker. -/
theorem fields?_ofPairs {pairs : List Pair} (hnd : (pairs.map (·.1)).Nodup) {es : List Entry} :
    (ofPairs pairs).fields? = some es ↔ (∀ t ∈ pairs, t.1 ≠ .index) ∧ es = pairs.map Pair.entry := by
  have hall : ∀ (ps : List Pair) (fs : List Entry),
      List.Forall₂ Entry.Of fs (ps.map fun t => (t.1.toValue, t.2)) ↔
        (∀ t ∈ ps, t.1 ≠ .index) ∧ fs = ps.map Pair.entry := by
    intro ps
    induction ps with
    | nil => simp
    | cons t ps ih =>
      intro fs
      simp only [List.map_cons, List.forall₂_cons_right_iff, List.forall_mem_cons]
      constructor
      · rintro ⟨⟨key, raw, item⟩, rest, ⟨h₁, h₂, h₃⟩, hrest, rfl⟩
        obtain ⟨hi, rfl⟩ := (ih rest).mp hrest
        have ht : t.1 ≠ .index := by
          intro ht
          simp [ht, Key.toValue, Key.ofValue?] at h₁
        rw [Key.ofValue?_toValue ht] at h₁
        refine ⟨⟨ht, hi⟩, ?_⟩
        simp only [Pair.entry, List.cons.injEq, Entry.mk.injEq, and_true]
        exact ⟨(Option.some.inj h₁).symm, h₂, h₃⟩
      · rintro ⟨⟨ht, hi⟩, rfl⟩
        exact ⟨t.entry, _, ⟨Key.ofValue?_toValue ht, rfl, rfl⟩, (ih _).mpr ⟨hi, rfl⟩, rfl⟩
  rw [fields?_eq_some]
  simp only [ofPairs, entries?, unfold, Option.some.injEq, exists_eq_left']
  rw [hall]
  constructor
  · exact fun h => h.1
  · rintro ⟨hi, rfl⟩
    refine ⟨⟨hi, rfl⟩, ?_⟩
    simpa [Entry.keys, Function.comp_def, Pair.entry] using hnd

/-- No mapping inside the value has the index marker among its keys. -/
def MarkerFree (v : Value) : Prop :=
  v.Throughout fun x => ∀ es, x.fields? = some es → .index ∉ Entry.keys es

end Value
end Schemata
