import Schemata.Proofs.Schema.Domains
import Schemata.Proofs.Schema.Places

/-! A value and what is put out for it belong to the same schemas, as long as nothing is dropped on the way.
Only the index marker as a key of a mapping gets lost: a mapping that has it is no mapping any more. -/
namespace Schemata

namespace Value.Rebuilt

variable {whole : Prop} {v w : Value}

theorem items_left (h : v.Rebuilt whole w) {q : Sequence} {xs : List Value} (hi : v.items? = some (q, xs)) :
    ∃ ys, w.items? = some (q, ys) ∧ List.Forall₂ (Rebuilt whole) xs ys := by
  cases h with
  | same => exact ⟨xs, hi, List.forall₂_same.mpr fun x _ => .same x⟩
  | sequence hi' hlen hz =>
    obtain ⟨rfl, rfl⟩ := Prod.mk.inj (Option.some.inj (hi.symm.trans hi'))
    exact ⟨_, items?_make _ _, List.forall₂_iff_zip.mpr ⟨hlen, fun h => hz _ h⟩⟩
  | mapping hf _ _ _ _ =>
    obtain ⟨raw, hraw⟩ := entries_of_fields hf
    have h₁ := domain_of_items hi
    have h₂ := domain_of_entries hraw
    rw [h₁] at h₂
    simp at h₂

theorem items_right (h : v.Rebuilt whole w) {q : Sequence} {ys : List Value}
    (hi : w.items? = some (q, ys)) :
    ∃ xs, v.items? = some (q, xs) ∧ List.Forall₂ (Rebuilt whole) xs ys := by
  cases h with
  | same => exact ⟨ys, hi, List.forall₂_same.mpr fun x _ => .same x⟩
  | sequence hi' hlen hz =>
    rw [items?_make] at hi
    obtain ⟨rfl, rfl⟩ := Prod.mk.inj (Option.some.inj hi)
    exact ⟨_, hi', List.forall₂_iff_zip.mpr ⟨hlen, fun h => hz _ h⟩⟩
  | mapping => simp at hi

/-- Under every key both mappings have an entry or neither has, and one item is the other rebuilt. -/
def SameFields (whole : Prop) (es es' : List Entry) : Prop :=
  ∀ k, Option.Rel (fun e e' => e.item.Rebuilt whole e'.item) (Entry.find? es k) (Entry.find? es' k)

theorem SameFields.left {es es' : List Entry} (h : SameFields whole es es') {k : Key} {e : Entry}
    (he : Entry.find? es k = some e) :
    ∃ e', Entry.find? es' k = some e' ∧ e.item.Rebuilt whole e'.item := by
  have hk := h k
  rw [he] at hk
  generalize Entry.find? es' k = found at hk ⊢
  cases hk with
  | some hx => exact ⟨_, rfl, hx⟩

theorem SameFields.right {es es' : List Entry} (h : SameFields whole es es') {k : Key} {e' : Entry}
    (he : Entry.find? es' k = some e') :
    ∃ e, Entry.find? es k = some e ∧ e.item.Rebuilt whole e'.item := by
  have hk := h k
  rw [he] at hk
  generalize Entry.find? es k = found at hk ⊢
  cases hk with
  | some hx => exact ⟨_, rfl, hx⟩

theorem SameFields.keys {es es' : List Entry} (h : SameFields whole es es') (k : Key) :
    k ∈ Entry.keys es ↔ k ∈ Entry.keys es' := by
  rw [← Entry.find?_isSome, ← Entry.find?_isSome, Option.isSome_iff_exists, Option.isSome_iff_exists]
  constructor
  · rintro ⟨e, he⟩
    obtain ⟨e', he', -⟩ := h.left he
    exact ⟨e', he'⟩
  · rintro ⟨e', he'⟩
    obtain ⟨e, he, -⟩ := h.right he'
    exact ⟨e, he⟩

theorem sameFields_refl (es : List Entry) : SameFields whole es es := by
  intro k
  cases Entry.find? es k with
  | none => exact .none
  | some e => exact .some (.same _)

theorem sameFields_of_pairs {es : List Entry} (hes : (Entry.keys es).Nodup) {pairs : List Pair}
    {source : Key → Value} (hnd : (pairs.map (·.1)).Nodup)
    (hsub : ∀ t ∈ pairs, ∃ e ∈ es, e.key = t.1 ∧ e.item = source t.1)
    (hcover : ∀ e ∈ es, e.key ∈ pairs.map (·.1)) (hr : ∀ t ∈ pairs, (source t.1).Rebuilt whole t.2) :
    SameFields whole es (pairs.map Pair.entry) := by
  have hnd' : (Entry.keys (pairs.map Pair.entry)).Nodup := by
    simpa [Entry.keys, Function.comp_def, Pair.entry] using hnd
  intro k
  cases he : Entry.find? es k with
  | none =>
    have : Entry.find? (pairs.map Pair.entry) k = none := by
      rw [Entry.find?_eq_none] at he ⊢
      rintro _ h rfl
      obtain ⟨t, ht, rfl⟩ := List.mem_map.mp h
      obtain ⟨e, hmem, hk, -⟩ := hsub t ht
      exact he e hmem hk
    rw [this]
    exact .none
  | some e =>
    obtain ⟨hmem, rfl⟩ := (Entry.find?_eq_some hes).mp he
    obtain ⟨t, ht, hk⟩ := List.mem_map.mp (hcover e hmem)
    obtain ⟨e', hmem', hk', hx⟩ := hsub t ht
    obtain rfl : e' = e := List.inj_on_of_nodup_map hes hmem' hmem (hk'.trans hk)
    have : Entry.find? (pairs.map Pair.entry) e'.key = some t.entry :=
      (Entry.find?_eq_some hnd').mpr ⟨List.mem_map_of_mem ht, hk⟩
    rw [this]
    refine .some ?_
    rw [hx]
    exact hr t ht

theorem fields_right (h : v.Rebuilt whole w) (hw : whole) {es' : List Entry} (hf : w.fields? = some es') :
    ∃ es, v.fields? = some es ∧ SameFields whole es es' := by
  cases h with
  | same => exact ⟨es', hf, sameFields_refl es'⟩
  | sequence => simp at hf
  | @mapping _ es pairs source hes hnd hsub hcover hr =>
    obtain ⟨-, rfl⟩ := (fields?_ofPairs hnd).mp hf
    exact ⟨es, hes, sameFields_of_pairs (nodup_of_fields hes) hnd hsub (hcover hw) hr⟩

theorem fields_left (h : v.Rebuilt whole w) (hw : whole) (hm : v.MarkerFree) {es : List Entry}
    (hf : v.fields? = some es) : ∃ es', w.fields? = some es' ∧ SameFields whole es es' := by
  cases h with
  | same => exact ⟨es, hf, sameFields_refl es⟩
  | sequence hi _ _ =>
    obtain ⟨raw, hraw⟩ := entries_of_fields hf
    have h₁ := domain_of_items hi
    have h₂ := domain_of_entries hraw
    rw [h₁] at h₂
    simp at h₂
  | @mapping _ _ pairs source hes hnd hsub hcover hr =>
    obtain rfl := Option.some.inj (hf.symm.trans hes)
    refine ⟨_, (fields?_ofPairs hnd).mpr ⟨fun t ht hi => ?_, rfl⟩,
      sameFields_of_pairs (nodup_of_fields hes) hnd hsub (hcover hw) hr⟩
    obtain ⟨e, he, hk, -⟩ := hsub t ht
    exact hm.here es hf (List.mem_map.mpr ⟨e, he, hk.trans hi⟩)

theorem holds_iff (h : v.Rebuilt whole w) (k : Keyword) : k.holds w = true ↔ k.holds v = true := by
  by_cases ha : v.domain = .array ∨ v.domain = .object
  · have hw := h.domain
    cases k with
    | integer =>
      have no : ∀ x : Value, x.domain = .array ∨ x.domain = .object → ¬ Keyword.integer.holds x = true := by
        intro x hx hi
        have := Keyword.domains_of_holds hi
        rcases hx with hx | hx <;> rw [hx] at this <;> simp [Keyword.domains, DomainSet.of] at this
      exact iff_of_false (no w (hw.symm ▸ ha)) (no v ha)
    | _ => simp only [Keyword.holds, hw]
  · rw [not_or] at ha
    rw [h.eq_of_ne ha.1 ha.2]

theorem eq_of_scalar (h : v.Rebuilt whole w) {l : Value} (hl : l.isScalar = true) (hd : v.domain = l.domain) :
    w = v := by
  refine h.eq_of_ne ?_ ?_ <;> rw [hd] <;> cases l <;> simp_all [isScalar, Value.domain]

end Value.Rebuilt

namespace Schema

variable {env : Env} {d : Dialect} {whole : Prop}

theorem places_rebuilt {es : List (Element Schema)} {xs ys : List Value}
    (h : List.Forall₂ (Value.Rebuilt whole) xs ys) :
    List.Forall₂ (fun p q => p.1 = q.1 ∧ p.2.Rebuilt whole q.2) (Element.places es xs)
      (Element.places es ys) :=
  Element.places_like (R := (· = ·)) (List.forall₂_same.mpr fun _ _ => ⟨rfl, rfl⟩) h

/-- What belongs to a schema once rebuilt belonged to it before. -/
theorem Member.of_rebuilt (hg : env.Grounded d) (hw : whole) {s : Schema} {v w : Value}
    (hs : s.Every (Fits d)) (hr : v.Rebuilt whole w) (h : Member env true s w) : Member env true s v := by
  induction h generalizing v with
  | keyword h => exact .keyword ((hr.holds_iff _).mp h)
  | literal h =>
    refine .literal ?_
    rw [← hr.eq_of_scalar hs.root (hr.domain ▸ h.1)]
    exact h
  | constrained _ hc ih =>
    exact .constrained (ih hs.base hr) fun c hmem => (hr.accepts (hs.root c hmem)).mp (hc c hmem)
  | union hmem _ ih => exact .union hmem (ih (hs.branch hmem) hr)
  | intersection _ ih => exact .intersection fun s hmem => ih s hmem (hs.member hmem) hr
  | ref hres _ ih =>
    obtain ⟨t, ht, -, hfit⟩ := hg.resolve hs.root
    obtain rfl := Except.ok.inj (hres.symm.trans ht)
    exact .ref hres (ih hfit hr)
  | @object o w es' hf' _ hreq hrej ih =>
    obtain ⟨es, hf, hsame⟩ := hr.fields_right hw hf'
    simp only [Entry.given?_exact] at ih hreq
    simp only [Entry.find?_isSome] at hreq
    refine (member_object hf).mpr ⟨fun p hp => ⟨fun e he => ?_, fun hpres => ?_⟩, fun hpol e he => ?_⟩
    · rw [Entry.given?_exact] at he
      obtain ⟨e', he', hx⟩ := hsame.left he
      exact ih p hp e' he' (hs.property hp) hx
    · rw [Entry.given?_exact, Entry.find?_isSome, hsame.keys]
      exact hreq p hp hpres
    · obtain ⟨e', hmem, hk⟩ := List.mem_map.mp ((hsame.keys e.key).mp (List.mem_map_of_mem he))
      rw [← hk]
      exact hrej hpol e' hmem
  | @tuple es w q ys hi' hadm _ ih =>
    obtain ⟨xs, hi, hall⟩ := hr.items_right hi'
    refine (member_tuple hi).mpr ⟨hall.length_eq ▸ hadm, fun t ht => ?_⟩
    obtain ⟨t', ht', heq, hx⟩ := forall₂_exists_left (places_rebuilt hall) ht
    obtain ⟨⟨e, he, hval⟩, -⟩ := Element.mem_places ht'
    rw [heq]
    exact ih t' ht' (hval ▸ hs.element he) hx

/-- What belongs to a schema still does so once rebuilt, in the absence of index markers. -/
theorem Member.rebuilt (hg : env.Grounded d) (hw : whole) {s : Schema} {v w : Value}
    (hs : s.Every (Fits d)) (hr : v.Rebuilt whole w) (hm : v.MarkerFree) (h : Member env true s v) :
    Member env true s w := by
  induction h generalizing w with
  | keyword h => exact .keyword ((hr.holds_iff _).mpr h)
  | literal h =>
    rw [hr.eq_of_scalar hs.root h.1]
    exact .literal h
  | constrained _ hc ih =>
    exact .constrained (ih hs.base hr hm) fun c hmem => (hr.accepts (hs.root c hmem)).mpr (hc c hmem)
  | union hmem _ ih => exact .union hmem (ih (hs.branch hmem) hr hm)
  | intersection _ ih => exact .intersection fun s hmem => ih s hmem (hs.member hmem) hr hm
  | ref hres _ ih =>
    obtain ⟨t, ht, -, hfit⟩ := hg.resolve hs.root
    obtain rfl := Except.ok.inj (hres.symm.trans ht)
    exact .ref hres (ih hfit hr hm)
  | @object o v es hf _ hreq hrej ih =>
    obtain ⟨es', hf', hsame⟩ := hr.fields_left hw hm hf
    simp only [Entry.given?_exact] at ih hreq
    simp only [Entry.find?_isSome] at hreq
    refine (member_object hf').mpr ⟨fun p hp => ⟨fun e' he' => ?_, fun hpres => ?_⟩, fun hpol e' he' => ?_⟩
    · rw [Entry.given?_exact] at he'
      obtain ⟨e, he, hx⟩ := hsame.right he'
      have hmem := ((Entry.find?_eq_some (Value.nodup_of_fields hf)).mp he).1
      exact ih p hp e he (hs.property hp) hx (hm.child (Value.item_mem_children hf hmem))
    · rw [Entry.given?_exact, Entry.find?_isSome, ← hsame.keys]
      exact hreq p hp hpres
    · obtain ⟨e, hmem, hk⟩ := List.mem_map.mp ((hsame.keys e'.key).mpr (List.mem_map_of_mem he'))
      rw [← hk]
      exact hrej hpol e hmem
  | @tuple es v q xs hi hadm _ ih =>
    obtain ⟨ys, hi', hall⟩ := hr.items_left hi
    refine (member_tuple hi').mpr ⟨hall.length_eq ▸ hadm, fun t' ht' => ?_⟩
    obtain ⟨t, ht, heq, hx⟩ := forall₂_exists_right (places_rebuilt hall) ht'
    obtain ⟨⟨e, he, hval⟩, hmem⟩ := Element.mem_places ht
    rw [← heq]
    exact ih t ht (hval ▸ hs.element he) hx (hm.child (Value.children_of_items hi ▸ hmem))

end Schema
end Schemata
