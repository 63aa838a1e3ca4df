import Schemata.Proofs.Schema.Consulting
import Schemata.Proofs.Scope.Recall

/-! Domains of index keys while definitions are added. Domains that were worked out from filled slots stay the same; a
key that is a name may have been given to an index signature before the name's definition was there. -/
namespace Schemata
namespace Env

variable {env env' : Env} {S : Ref → Prop} {refs seen : List Ref} {fuel fuel' : Nat} {s : Schema}

/-- Environments in which the references that count lead to the same tell the same domains. A reference is followed
once, so more steps than there are references make no difference. -/
theorem domainsWithin_congr (hrefs : ∀ r, S r → r ∈ refs) (hsame : ∀ r, S r → env'.target r = env.target r)
    (hleads : ∀ r t, S r → env.target r = .filled t → ∀ q, t.Consults q → S q) (hseen : seen.Nodup)
    (hknown : ∀ r ∈ seen, S r) (hfuel : refs.length < fuel + seen.length) (hfuel' : refs.length < fuel' + seen.length)
    (hs : ∀ r, s.Consults r → S r) :
    env.domainsWithin fuel seen s = env'.domainsWithin fuel' seen s := by
  have hlength : seen.length ≤ refs.length := (hseen.subperm fun r hr => hrefs r (hknown r hr)).length_le
  induction fuel generalizing fuel' seen s with
  | zero => omega
  | succ fuel ih =>
    cases fuel' with
    | zero => omega
    | succ fuel' =>
      refine Schema.domainsWith_congr fun r hr => ?_
      by_cases hin : seen.contains r = true
      · rw [if_pos hin, if_pos hin]
      rw [if_neg hin, if_neg hin]
      have hS := hs r hr
      have hresolve : env'.resolve? r = env.resolve? r := by
        unfold resolve?
        rw [hsame r hS]
      rw [hresolve]
      cases htarget : env.target r with
      | filled t =>
        have hnodup : (r :: seen).Nodup := List.nodup_cons.mpr ⟨by simpa using hin, hseen⟩
        have hknown' : ∀ q ∈ r :: seen, S q := List.forall_mem_cons.mpr ⟨hS, hknown⟩
        simp only [resolve?, htarget, bind, Except.bind]
        refine ih hnodup hknown' ?_ ?_ (hleads r t hS htarget) (hnodup.subperm fun q hq => hrefs q (hknown' q hq)).length_le
        · rw [List.length_cons]
          omega
        · rw [List.length_cons]
          omega
      | _ => simp [resolve?, htarget, bind, Except.bind]

theorem domains?_congr (S : Ref → Prop) (refs : List Ref) (hrefs : ∀ r, S r → r ∈ refs)
    (hsame : ∀ r, S r → env'.target r = env.target r)
    (hleads : ∀ r t, S r → env.target r = .filled t → ∀ q, t.Consults q → S q) (hslots : refs.length ≤ env.slotCount)
    (hslots' : refs.length ≤ env'.slotCount) (hs : ∀ r, s.Consults r → S r) : env.domains? s = env'.domains? s :=
  domainsWithin_congr hrefs hsame hleads List.nodup_nil (by simp) (by simpa using Nat.lt_succ_of_le hslots)
    (by simpa using Nat.lt_succ_of_le hslots') hs

end Env

namespace Arena

variable {a b : Arena} {r : Ref}

/-- The second arena has the names of the first and what stood in its slots. -/
structure Extends (a b : Arena) : Prop where
  registers : ∀ r, a.Registers r → b.Registers r
  length : a.slots.length ≤ b.slots.length
  filled : ∀ (i : Nat) (t : Schema), a.slots[i]? = some (some t) → b.slots[i]? = some (some t)

theorem Extends.refl (a : Arena) : a.Extends a := ⟨fun _ h => h, le_rfl, fun _ _ h => h⟩

theorem Grows.extends (h : a.Grows b) : a.Extends b := by
  refine ⟨fun _ => h.registers, h.slots.length_le, fun i t hi => ?_⟩
  rw [h.slot (List.getElem?_eq_some_iff.mp hi).1, hi]

theorem extends_fill (hr : a.slots[r.handle]? = some none) (t : Schema) : a.Extends (a.fill r t) := by
  refine ⟨fun _ => registers_fill.mpr, by simp [fill], fun i u hi => ?_⟩
  have hne : r.handle ≠ i := by
    rintro rfl
    simp [hr] at hi
  exact (List.getElem?_set_ne hne).trans hi

/-- The references of an arena's names. -/
def refs (a : Arena) : List Ref := a.handles.map fun e => ⟨a.id, e.2, e.1⟩

theorem Sound.mem_refs (ha : a.Sound) (hr : a.Registers r) : r ∈ a.refs := by
  obtain ⟨id, handle, name⟩ := r
  obtain rfl : id = a.id := (registers_iff.mp hr).1
  exact List.mem_map.mpr ⟨(name, handle), ha.mem hr, rfl⟩

/-- There are no more names than slots. -/
theorem Sound.length_refs (ha : a.Sound) : a.refs.length ≤ a.slots.length := by
  have hinside : (a.handles.map (·.2)) ⊆ List.range a.slots.length := fun i hi => by
    obtain ⟨e, he, rfl⟩ := List.mem_map.mp hi
    exact List.mem_range.mpr (ha.inside e he)
  simpa [refs] using (ha.handles.subperm hinside).length_le

end Arena

namespace Arenas

variable {as bs : List Arena} {a b : Arena} {id : Nat} {r q : Ref} {s t k : Schema}

/-- Every arena has its names and schemas later, too. -/
def Extends (as bs : List Arena) : Prop := ∀ id a, find? as id = some a → ∃ b, find? bs id = some b ∧ a.Extends b

theorem Extends.refl (as : List Arena) : Extends as as := fun _ a ha => ⟨a, ha, .refl a⟩

theorem Extends.filled (h : Extends as bs) (ht : target as r = .filled t) : target bs r = .filled t := by
  cases ha : find? as r.arena with
  | none => simp [target, ha] at ht
  | some a =>
    obtain ⟨b, hb, hab⟩ := h _ a ha
    exact (Arenas.filled hb).mpr (hab.filled _ t ((Arenas.filled ha).mp ht))

theorem length_le_slotCount {env : Env} (henv : env.arenas = as) (ha : find? as id = some a) :
    a.slots.length ≤ env.slotCount := by
  have hmem : a ∈ as := List.mem_of_find?_eq_some ha
  unfold Env.slotCount
  rw [henv]
  clear ha henv
  induction as with
  | nil => simp at hmem
  | cons b as ih =>
    rw [List.foldr_cons]
    rcases List.mem_cons.mp hmem with rfl | hmem
    · exact Nat.le_add_right _ _
    · exact (ih hmem).trans (Nat.le_add_left _ _)

/-- What the domains of a schema are worked out from, with everything that it leads to. -/
inductive Consults (as : List Arena) : Schema → Ref → Prop
  | here {s : Schema} {r : Ref} : s.Consults r → Consults as s r
  | behind {s t : Schema} {r q : Ref} : s.Consults r → target as r = .filled t → Consults as t q → Consults as s q

theorem Consults.extend (h : Consults as s r) (he : Extends as bs) : Consults bs s r := by
  induction h with
  | here hr => exact .here hr
  | behind hr ht _ ih => exact .behind hr (he.filled ht) ih

/-- Names of an arena lead to such names. -/
theorem Consults.named (h : Consults as s r) (hsound : Sound as) (hs : ∀ q, s.Consults q → Named as id q) :
    Named as id r := by
  induction h with
  | here hr => exact hs _ hr
  | behind hr ht _ ih => exact ih fun q hq => hq.of_into ((hsound.closed id).leads _ _ (hs _ hr) ht)

theorem Named.pending (hr : Named as id r) (h : ∀ t, target as r ≠ .filled t) : target as r = .pending := by
  obtain ⟨-, a, ha, -⟩ := hr
  rw [target_of_find ha] at h ⊢
  unfold Arena.target at h ⊢
  split at h
  · exact absurd rfl (h _)
  · rfl

/-- Everything that the domains of the key are worked out from is there, and they are unknown or those of strings and
symbols. -/
structure Fine (as : List Arena) (k : Schema) : Prop where
  filled : ∀ r, Consults as k r → ∃ t, target as r = .filled t
  domains : ∀ env : Env, env.arenas = as →
    ∃ d, env.domains? k = .ok d ∧ ∀ D, d = some D → D.subset ObjectShape.keyDomains = true

/-- The domains of what consults filled slots only are the same later. -/
theorem domains?_extend (hsound : Sound as) (he : Extends as bs)
    (hfilled : ∀ r, Consults as k r → ∃ t, target as r = .filled t)
    (hnamed : ∀ r, k.Consults r → Named as id r) {env env' : Env} (henv : env.arenas = as) (henv' : env'.arenas = bs) :
    env.domains? k = env'.domains? k := by
  have hsame : ∀ r, Consults as k r → env'.target r = env.target r := fun r hr => by
    obtain ⟨t, ht⟩ := hfilled r hr
    rw [env_target henv, env_target henv', ht, he.filled ht]
  have behind : ∀ s r t, Consults as s r → target as r = .filled t → ∀ q, t.Consults q → Consults as s q := by
    intro s r t hr ht q hq
    induction hr with
    | here hr => exact .behind hr ht (.here hq)
    | behind hr ht' _ ih => exact .behind hr ht' (ih ht)
  cases ha : find? as id with
  | none =>
    -- without an arena there is nothing to consult
    have hnone : ∀ r, ¬ k.Consults r := fun r hr => by
      obtain ⟨rfl, b, hb, -⟩ := hnamed r hr
      simp [ha] at hb
    exact Env.domains?_congr (fun _ => False) [] (by simp) (by simp) (by simp) (by simp) (by simp) hnone
  | some a =>
    obtain ⟨b, hb, hab⟩ := he id a ha
    have hlength := (hsound id a ha).length_refs
    refine Env.domains?_congr (Consults as k) a.refs (fun r hr => ?_) hsame (fun r t hr ht => ?_)
      (hlength.trans (length_le_slotCount henv ha)) ((hlength.trans hab.length).trans (length_le_slotCount henv' hb))
      fun r hr => .here hr
    · exact (hsound id a ha).mem_refs ((named_iff ha).mp (hr.named hsound hnamed))
    · exact behind k r t hr (env_target henv r ▸ ht)

theorem Fine.extend (h : Fine as k) (hsound : Sound as) (he : Extends as bs) (hnamed : ∀ r, k.Consults r → Named as id r) :
    Fine bs k := by
  have back : ∀ s r, Consults bs s r → (∀ q, Consults as s q → ∃ t, target as q = .filled t) → Consults as s r := by
    intro s r hr hfilled
    induction hr with
    | here hr => exact .here hr
    | behind hr ht _ ih =>
      obtain ⟨u, hu⟩ := hfilled _ (.here hr)
      obtain rfl := Target.filled.inj ((he.filled hu).symm.trans ht)
      exact .behind hr hu (ih fun q hq => hfilled q (.behind hr hu hq))
  refine ⟨fun r hr => ?_, fun env' henv' => ?_⟩
  · obtain ⟨t, ht⟩ := h.filled r (back k r hr h.filled)
    exact ⟨t, he.filled ht⟩
  · obtain ⟨d, hd, hsub⟩ := h.domains ⟨env'.hooks, as, env'.trial⟩ rfl
    exact ⟨d, (domains?_extend hsound he h.filled hnamed rfl henv').symm.trans hd, hsub⟩

/-- An index signature with the name as its key stands in a slot that was not filled after all that the name leads to. -/
def Early (as : List Arena) (r : Ref) : Prop := ∃ a, ∃ i : Nat, ∃ t : Schema,
  find? as r.arena = some a ∧ a.slots[i]? = some (some t) ∧
    t.Indexes (.ref r) ∧ ∃ q, Consults as (.ref r) q ∧ i ≤ q.handle

theorem Early.extend (h : Early as r) (he : Extends as bs) : Early bs r := by
  obtain ⟨a, i, t, ha, ht, hkey, q, hq, hi⟩ := h
  obtain ⟨b, hb, hab⟩ := he _ a ha
  exact ⟨b, i, t, hb, hab.filled i t ht, hkey, q, hq.extend he, hi⟩

/-- The name leads to a slot that is still empty. -/
def Open (as : List Arena) (r : Ref) : Prop := ∃ q, Consults as (.ref r) q ∧ target as q = .pending

/-- Keys that index signatures have while definitions are added. -/
def Allowed (as : List Arena) (k : Schema) : Prop :=
  (k.IsKeyForm ∧ Fine as k) ∨ ∃ r, k = .ref r ∧ (Early as r ∨ Open as r)

/-- Equal keys are allowed alike. -/
theorem allowed_fair (as : List Arena) : Limits.Fair (Allowed as) := by
  have oneWay : ∀ (l : Likeness) s t, Schema.Alike l s t → Allowed as s → Allowed as t := by
    rintro l s t hst (⟨hform, hfine⟩ | ⟨r, rfl, h⟩)
    · rcases hform.alike hst with rfl | ⟨hform', hnone, hdomains⟩
      · exact Or.inl ⟨hform, hfine⟩
      · refine Or.inl ⟨hform', fun r hr => ?_, fun env henv => ?_⟩
        · cases hr with
          | here hr => exact absurd hr (hnone _)
          | behind hr => exact absurd hr (hnone _)
        · obtain ⟨d, hd, hsub⟩ := hfine.domains env henv
          exact ⟨d, (hdomains _).symm.trans hd, hsub⟩
    · have hform := hst.form
      cases t <;> simp only [Schema.Form] at hform
      exact Or.inr ⟨r, by rw [hform.1], h⟩
  exact fun s t hst => ⟨oneWay _ s t hst, oneWay _ t s hst.flip⟩

/-- The index signatures of all that stands in the slots have allowed keys. -/
def Keyed (as : List Arena) : Prop :=
  ∀ id a (i : Nat) (t : Schema), find? as id = some a → a.slots[i]? = some (some t) → ∀ k, t.Indexes k → Allowed as k

end Arenas
end Schemata
