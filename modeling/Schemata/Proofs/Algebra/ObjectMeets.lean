import Schemata.Proofs.Algebra.Meets

/-! The intersection of two objects, key by key. What an object says of a key is its property, or that the key
has to be absent, or nothing. -/
namespace Schemata

namespace ObjectShape

/-- What an object says of the entries under one key. -/
def Allows (o : ObjectShape Schema) (env : Env) (es : List Entry) (key : Key) : Prop :=
  match o.property? key with
  | some p => Schema.Met env true es p
  | none => o.undeclared = .reject → Entry.find? es key = none

variable {env : Env} {o : ObjectShape Schema} {es : List Entry} {key : Key}

theorem allows_of_property {p : Property Schema} (h : o.property? key = some p) :
    o.Allows env es key ↔ Schema.Met env true es p := by simp [Allows, h]

theorem allows_of_none (h : o.property? key = none) :
    o.Allows env es key ↔ (o.undeclared = .reject → Entry.find? es key = none) := by simp [Allows, h]

/-- An object says of its values what it says of every key. -/
theorem forall_allows (hk : o.keys.Nodup) : (∀ key, o.Allows env es key) ↔
    (∀ p ∈ o.properties, Schema.Met env true es p) ∧
      (o.undeclared = .reject → ∀ e ∈ es, o.declares e.key = true) := by
  constructor
  · refine fun h => ⟨fun p hp => ?_, fun hreject e he => ?_⟩
    · exact (allows_of_property ((Schema.property?_eq_some hk).mpr ⟨hp, rfl⟩)).mp (h p.key)
    · rw [declares_eq]
      cases hprop : o.property? e.key with
      | some p => rfl
      | none =>
        have habsent := (allows_of_none hprop).mp (h e.key) hreject
        exact absurd rfl (Entry.find?_eq_none.mp habsent e he)
  · rintro ⟨hmet, hreject⟩ key
    cases hprop : o.property? key with
    | some p => exact (allows_of_property hprop).mpr (hmet p (property?_mem hprop).1)
    | none =>
      refine (allows_of_none hprop).mpr fun hr => Entry.find?_eq_none.mpr fun e he hkey => ?_
      have := hreject hr e he
      simp [declares_eq, hkey, hprop] at this

end ObjectShape

namespace Schema

section Slots

variable {env : Env} {d : Dialect} {exactly : Prop} {a b : ObjectShape Schema} {p q r : Property Schema}

theorem met_iff {es : List Entry} : Met env true es p ↔
    (∀ e, Entry.find? es p.key = some e → Member env true p.value e.item) ∧
      (p.presence.isRequired = true → (Entry.find? es p.key).isSome = true) := by
  simp only [Met, Entry.given?_exact]

/-- The property `r` says under the key of `p` what both objects say there. -/
structure Slot (env : Env) (d : Dialect) (exactly : Prop) (a b : ObjectShape Schema) (p r : Property Schema) :
    Prop where
  key : r.key = p.key
  default : r.presence.default? = none
  fits : r.value.Every (Fits d)
  orderly : exactly → r.value.Orderly d
  sound : ∀ es : List Entry, (∀ e ∈ es, e.item.Formed) → Met env true es r →
    a.Allows env es p.key ∧ b.Allows env es p.key
  complete : exactly → ∀ es : List Entry, (∀ e ∈ es, e.item.Formed) → (∀ e ∈ es, e.item.NaNFree) →
    a.Allows env es p.key → b.Allows env es p.key → Met env true es r

theorem Slot.symm (h : Slot env d exactly b a p r) : Slot env d exactly a b p r where
  key := h.key
  default := h.default
  fits := h.fits
  orderly := h.orderly
  sound es hes hr := (h.sound es hes hr).symm
  complete he es hes hn ha hb := h.complete he es hes hn hb ha

/-- An error says that no entries satisfy both objects under a key. -/
def ApartAt (env : Env) (exactly : Prop) (a b : ObjectShape Schema) (e : Fault) : Prop :=
  exactly → e.isUnsatisfiable = true ∧ ∃ key, ∀ es : List Entry, (∀ e ∈ es, e.item.Formed) →
    (∀ e ∈ es, e.item.NaNFree) → a.Allows env es key → ¬ b.Allows env es key

theorem ApartAt.symm {e : Fault} (h : ApartAt env exactly b a e) : ApartAt env exactly a b e := fun he =>
  ⟨(h he).1, (h he).2.imp fun _ h es hes hn ha hb => h es hes hn hb ha⟩

/-- A property that only the first object declares. -/
theorem meetUndeclared_spec {admits : Schema → Value → Except Fault Bool} {meet : Schema → Schema → Compose Schema}
    (hb : b.index = none) (hp : a.property? p.key = some p) (hq : b.property? p.key = none)
    (hd : p.presence.default? = none) (hfit : p.value.Every (Fits d)) (hr : exactly → p.value.Orderly d) :
    (ObjectShape.meetUndeclared admits meet a b p).Yields (Slot env d exactly a b p) (ApartAt env exactly a b) := by
  refine ObjectShape.meetUndeclared_yields hb (fun hreject hreq => ?_)
    (fun hno => ⟨rfl, hd, hfit, hr, fun es _ hmet => ?_, fun _ es _ _ ha _ => ?_⟩) fun hreject hreq _ => ?_
  · have absent : ∀ {es : List Entry}, Met env true es { p with value := .never } ↔ Entry.find? es p.key = none := by
      intro es
      rw [met_iff]
      dsimp only
      rw [hreq]
      cases hfind : Entry.find? es p.key <;> simp
    refine ⟨rfl, hd, .intro trivial nofun, fun _ => .intro ⟨trivial, trivial⟩ nofun, fun es _ hmet => ?_,
      fun _ es _ _ _ hallows => ?_⟩
    · have hnone := absent.mp hmet
      refine ⟨(ObjectShape.allows_of_property hp).mpr ?_, (ObjectShape.allows_of_none hq).mpr fun _ => hnone⟩
      exact met_iff.mpr ⟨by simp [hnone], by simp [hreq]⟩
    · exact absent.mpr ((ObjectShape.allows_of_none hq).mp hallows hreject)
  · exact ⟨(ObjectShape.allows_of_property hp).mpr hmet, (ObjectShape.allows_of_none hq).mpr fun h => absurd h hno⟩
  · exact (ObjectShape.allows_of_property hp).mp ha
  · refine ⟨rfl, p.key, fun es _ _ ha hb => ?_⟩
    have hsome := (met_iff.mp ((ObjectShape.allows_of_property hp).mp ha)).2 hreq
    simp [(ObjectShape.allows_of_none hq).mp hb hreject] at hsome

/-- Two ways to treat the absence of a property meet in the stricter one. -/
theorem meet?_presence {p q : Presence} (hp : p.default? = none) (hq : q.default? = none) :
    ∃ r, p.meet? q = some r ∧ r.default? = none ∧ r.isRequired = (p.isRequired || q.isRequired) ∧
      r.isOptional = !r.isRequired := by
  rcases Presence.required_or_optional hp with rfl | rfl <;>
    rcases Presence.required_or_optional hq with rfl | rfl <;> exact ⟨_, rfl, rfl, rfl, rfl⟩

/-- A property that both objects declare. -/
theorem meetDeclared_spec {meet : Schema → Schema → Compose Schema} (hp : a.property? p.key = some p)
    (hq : b.property? p.key = some q) (hdp : p.presence.default? = none) (hdq : q.presence.default? = none)
    (hpfit : p.value.Every (Fits d)) (hqfit : q.value.Every (Fits d)) (hr : exactly → p.value.Orderly d)
    (hmeet : Meeting env d exactly p.value q.value (meet p.value q.value)) :
    (ObjectShape.meetDeclared meet p q).Yields (Slot env d exactly a b p) (ApartAt env exactly a b) := by
  have hkey : q.key = p.key := (ObjectShape.property?_mem hq).2
  have allows_a : ∀ es, a.Allows env es p.key ↔ Met env true es p := fun _ => ObjectShape.allows_of_property hp
  have allows_b : ∀ es, b.Allows env es p.key ↔ Met env true es q := fun _ => ObjectShape.allows_of_property hq
  unfold ObjectShape.meetDeclared
  by_cases hsame : p.same q = true
  · rw [if_pos hsame]
    simp only [Property.same, Bool.and_eq_true, beq_iff_eq] at hsame
    have hpresence := Presence.eq_of_same hsame.2 hdp
    refine .pure ⟨rfl, hdp, hpfit, hr, fun es _ hmet => ⟨(allows_a es).mpr hmet, (allows_b es).mpr ?_⟩,
      fun _ es _ _ ha _ => (allows_a es).mp ha⟩
    rw [met_iff] at hmet ⊢
    rw [hkey, ← hpresence]
    exact ⟨fun e he => (member_of_same hpfit hqfit hsame.1.2 _).mp (hmet.1 e he), hmet.2⟩
  · rw [if_neg hsame]
    obtain ⟨presence, hpresence, hdefault, hrequired, hoptional⟩ := meet?_presence hdp hdq
    rw [hpresence]
    dsimp only
    refine Compose.Yields.bind ((place_spec presence.isOptional hmeet).mono (fun _ h => h) ?_) fun s hs => .pure ?_
    · rintro e ⟨hapart, hplace⟩ hexact
      refine ⟨(hapart hexact).1, p.key, fun es hes hn ha hb => ?_⟩
      have ha := met_iff.mp ((allows_a es).mp ha)
      have hb := met_iff.mp ((allows_b es).mp hb)
      rw [hkey] at hb
      have hreq : p.presence.isRequired = true ∨ q.presence.isRequired = true := by
        have hplace := hplace hexact
        rw [hoptional, hrequired, Bool.not_eq_false', Bool.or_eq_true] at hplace
        exact hplace
      obtain ⟨e, he⟩ := Option.isSome_iff_exists.mp (hreq.elim ha.2 hb.2)
      have hmem := List.mem_of_find?_eq_some he
      exact (hapart hexact).2 e.item (hes e hmem) (hn e hmem) (ha.1 e he) (hb.1 e he)
    · refine ⟨rfl, hdefault, hs.fits, hs.orderly, fun es hes hmet => ?_, fun hexact es hes hn ha hb => ?_⟩
      · rw [met_iff] at hmet
        dsimp only at hmet
        rw [hrequired] at hmet
        have both : ∀ e, Entry.find? es p.key = some e →
            p.value.Member env true e.item ∧ q.value.Member env true e.item := fun e he =>
          hs.sound e.item (hes e (List.mem_of_find?_eq_some he)) (hmet.1 e he)
        refine ⟨(allows_a es).mpr (met_iff.mpr ⟨fun e he => (both e he).1, fun h => hmet.2 (by simp [h])⟩),
          (allows_b es).mpr (met_iff.mpr ?_)⟩
        rw [hkey]
        exact ⟨fun e he => (both e he).2, fun h => hmet.2 (by simp [h])⟩
      · have ha := met_iff.mp ((allows_a es).mp ha)
        have hb := met_iff.mp ((allows_b es).mp hb)
        rw [hkey] at hb
        refine met_iff.mpr ⟨fun e he => ?_, fun h => ?_⟩
        · have hmem := List.mem_of_find?_eq_some he
          exact hs.complete hexact e.item (hes e hmem) (hn e hmem) (ha.1 e he) (hb.1 e he)
        · dsimp only at h
          rw [hrequired, Bool.or_eq_true] at h
          exact h.elim ha.2 hb.2

/-- The properties of an intersection stand for those of the first object and the further ones of the second. -/
theorem meetShapes_spec {admits : Schema → Value → Except Fault Bool} {meet : Schema → Schema → Compose Schema}
    (ha : (object a).Every (Fits d)) (hb : (object b).Every (Fits d))
    (har : exactly → (object a).Orderly d) (hbr : exactly → (object b).Orderly d)
    (hmeet : ∀ p ∈ a.properties, ∀ q ∈ b.properties, Meeting env d exactly p.value q.value (meet p.value q.value)) :
    (ObjectShape.meetShapes admits meet a b).Yields
      (fun o => o.index = none ∧ o.undeclared = a.undeclared.stricter b.undeclared ∧
        List.Forall₂ (Slot env d exactly a b)
          (a.properties ++ b.properties.filter fun q => !a.declares q.key) o.properties)
      (ApartAt env exactly a b) := by
  obtain ⟨hai, hak, had, -⟩ := ha.root
  obtain ⟨hbi, hbk, hbd, -⟩ := hb.root
  refine ObjectShape.meetShapes_yields (I := fun i => i = none) ?_ (fun p hp hq => ?_) (fun p hp q hqmem hq => ?_)
    fun q hq hqa => ?_
  · rw [hai, hbi]
    exact .pure rfl
  · exact meetUndeclared_spec hbi ((property?_eq_some hak).mpr ⟨hp, rfl⟩) hq (had p hp) (ha.property hp)
      fun he => (har he).property hp
  · exact meetDeclared_spec ((property?_eq_some hak).mpr ⟨hp, rfl⟩) hq (had p hp) (hbd q hqmem) (ha.property hp)
      (hb.property hqmem) (fun he => (har he).property hp) (hmeet p hp q hqmem)
  · exact (meetUndeclared_spec hai ((property?_eq_some hbk).mpr ⟨hq, rfl⟩) hqa (hbd q hq) (hb.property hq)
      fun he => (hbr he).property hq).mono (fun _ h => h.symm) fun _ h => h.symm

theorem stricter_reject {u w : Policy} : u.stricter w = .reject ↔ u = .reject ∨ w = .reject := by
  cases u <;> cases w <;> simp [Policy.stricter, Policy.strictness]

theorem stricter_ne_delete {u w : Policy} (hu : u ≠ .delete) (hw : w ≠ .delete) : u.stricter w ≠ .delete := by
  unfold Policy.stricter
  split
  · exact hw
  · exact hu

section Keys

variable {o : ObjectShape Schema} {R : Property Schema → Property Schema → Prop} (hR : ∀ p r, R p r → r.key = p.key)
  (hslots : List.Forall₂ R (a.properties ++ b.properties.filter fun q => !a.declares q.key) o.properties)
include hR hslots

theorem keys_of_slots (hak : a.keys.Nodup) (hbk : b.keys.Nodup) : o.keys.Nodup := by
  have hkeys : (a.properties ++ b.properties.filter fun q => !a.declares q.key).map (·.key) = o.keys := by
    rw [ObjectShape.keys, ← List.forall₂_eq_eq_eq, List.forall₂_map_left_iff, List.forall₂_map_right_iff]
    exact hslots.imp fun p r h => (hR p r h).symm
  rw [← hkeys, List.map_append, List.nodup_append]
  refine ⟨hak, hbk.sublist (List.filter_sublist.map _), ?_⟩
  rintro _ h₁ _ h₂ rfl
  obtain ⟨p, hp, hpk⟩ := List.mem_map.mp h₁
  obtain ⟨q, hq, hqk⟩ := List.mem_map.mp h₂
  have hno := (List.mem_filter.mp hq).2
  have : a.declares q.key = true := List.any_eq_true.mpr ⟨p, hp, by simp [hpk, hqk]⟩
  simp [this] at hno

/-- The intersection declares the keys that one of the objects declares. -/
theorem undeclared_of_slots {key : Key} (h : o.property? key = none) :
    a.property? key = none ∧ b.property? key = none := by
  have hno : ∀ p ∈ a.properties ++ b.properties.filter fun q => !a.declares q.key, p.key ≠ key := by
    intro p hp hk
    obtain ⟨r, hr, hslot⟩ := forall₂_exists_left hslots hp
    exact List.find?_eq_none.mp h r hr (by simp [hR p r hslot, hk])
  have ha : a.property? key = none := List.find?_eq_none.mpr fun p hp => by
    simpa using hno p (List.mem_append_left _ hp)
  refine ⟨ha, List.find?_eq_none.mpr fun q hq hk => ?_⟩
  have hk : q.key = key := by simpa using hk
  refine hno q (List.mem_append_right _ (List.mem_filter.mpr ⟨hq, ?_⟩)) hk
  rw [ObjectShape.declares_eq, hk, ha]
  rfl

theorem slot_of_property {key : Key} {r : Property Schema} (h : o.property? key = some r) :
    ∃ p, p.key = key ∧ R p r := by
  obtain ⟨hr, hk⟩ := ObjectShape.property?_mem h
  obtain ⟨p, -, hslot⟩ := forall₂_exists_right hslots hr
  exact ⟨p, (hR p r hslot).symm.trans hk, hslot⟩

end Keys

section Shapes

variable {o : ObjectShape Schema}
  (hslots : List.Forall₂ (Slot env d exactly a b) (a.properties ++ b.properties.filter fun q => !a.declares q.key)
    o.properties)
include hslots

theorem meets_of_slots (ha : (object a).Every (Fits d)) (hb : (object b).Every (Fits d)) (hi : o.index = none)
    (hu : o.undeclared = a.undeclared.stricter b.undeclared) :
    Meets env d exactly (.object a) (.object b) (.object o) := by
  have hak := ha.root.2.1
  have hbk := hb.root.2.1
  have hkey : ∀ p r, Slot env d exactly a b p r → r.key = p.key := fun _ _ h => h.key
  have hok := keys_of_slots hkey hslots hak hbk
  have member : ∀ {o : ObjectShape Schema}, o.keys.Nodup → ∀ {v : Value},
      Member env true (.object o) v ↔ ∃ es, v.fields? = some es ∧ ∀ key, o.Allows env es key := fun ho v => by
    simp only [member_object_iff, ObjectShape.forall_allows ho]
  have slot : ∀ r ∈ o.properties, ∃ p, Slot env d exactly a b p r := fun r hr =>
    (forall₂_exists_right hslots hr).imp fun _ h => h.2
  have part : ∀ t ∈ (object o).parts, ∃ r ∈ o.properties, r.value = t := by
    intro t ht
    simpa [parts, hi, IndexSignature.parts] using ht
  have root : (object o).Fits d := by
    refine ⟨hi, hok, fun r hr => ?_, fun hlazy => ?_⟩
    · obtain ⟨_, hslot⟩ := slot r hr
      exact hslot.default
    · rw [hu]
      exact stricter_ne_delete (ha.root.2.2.2 hlazy) (hb.root.2.2.2 hlazy)
  refine ⟨.intro root fun t ht => ?_, fun v hv hmem => ?_, fun hexact => .intro ⟨root, trivial⟩ fun t ht => ?_,
    fun hexact v hv hn hva hvb => ?_⟩
  · obtain ⟨r, hr, rfl⟩ := part t ht
    obtain ⟨_, hslot⟩ := slot r hr
    exact hslot.fits
  · obtain ⟨es, hf, hall⟩ := (member hok).mp hmem
    have formed : ∀ e ∈ es, e.item.Formed := fun e he => hv.child (Value.item_mem_children hf he)
    have both : ∀ key, a.Allows env es key ∧ b.Allows env es key := by
      intro key
      have hallows := hall key
      cases hprop : o.property? key with
      | some r =>
        obtain ⟨p, rfl, hslot⟩ := slot_of_property hkey hslots hprop
        exact hslot.sound es formed ((ObjectShape.allows_of_property hprop).mp hallows)
      | none =>
        obtain ⟨hna, hnb⟩ := undeclared_of_slots hkey hslots hprop
        rw [ObjectShape.allows_of_none hprop, hu, stricter_reject] at hallows
        exact ⟨(ObjectShape.allows_of_none hna).mpr fun h => hallows (Or.inl h),
          (ObjectShape.allows_of_none hnb).mpr fun h => hallows (Or.inr h)⟩
    exact ⟨(member hak).mpr ⟨es, hf, fun key => (both key).1⟩, (member hbk).mpr ⟨es, hf, fun key => (both key).2⟩⟩
  · obtain ⟨r, hr, rfl⟩ := part t ht
    obtain ⟨_, hslot⟩ := slot r hr
    exact hslot.orderly hexact
  · obtain ⟨es, hf, halla⟩ := (member hak).mp hva
    obtain ⟨es', hf', hallb⟩ := (member hbk).mp hvb
    obtain rfl := Option.some.inj (hf.symm.trans hf')
    have formed : ∀ e ∈ es, e.item.Formed := fun e he => hv.child (Value.item_mem_children hf he)
    have nanfree : ∀ e ∈ es, e.item.NaNFree := fun e he => hn.child (Value.item_mem_children hf he)
    refine (member hok).mpr ⟨es, hf, fun key => ?_⟩
    cases hprop : o.property? key with
    | some r =>
      obtain ⟨p, rfl, hslot⟩ := slot_of_property hkey hslots hprop
      exact (ObjectShape.allows_of_property hprop).mpr
        (hslot.complete hexact es formed nanfree (halla p.key) (hallb p.key))
    | none =>
      obtain ⟨hna, hnb⟩ := undeclared_of_slots hkey hslots hprop
      rw [ObjectShape.allows_of_none hprop, hu, stricter_reject]
      rintro (h | h)
      · exact (ObjectShape.allows_of_none hna).mp (halla key) h
      · exact (ObjectShape.allows_of_none hnb).mp (hallb key) h

end Shapes

theorem repeatedKey?_of_nodup {seen keys : List Key} (hk : keys.Nodup) (hs : ∀ k ∈ keys, k ∉ seen) :
    ObjectShape.repeatedKey? seen keys = none := by
  induction keys generalizing seen with
  | nil => rfl
  | cons k keys ih =>
    obtain ⟨hno, hk⟩ := List.nodup_cons.mp hk
    have hk' : seen.contains k = false := by simpa using hs k (by simp)
    unfold ObjectShape.repeatedKey?
    rw [hk']
    refine ih hk fun l hl hin => ?_
    rcases List.mem_cons.mp hin with rfl | hin
    · exact hno hl
    · exact hs l (by simp [hl]) hin

/-- The intersection of two objects. -/
theorem meetObjects {admits : Schema → Value → Except Fault Bool} {meet : Schema → Schema → Compose Schema}
    (ha : (object a).Every (Fits d)) (hb : (object b).Every (Fits d))
    (har : exactly → (object a).Orderly d) (hbr : exactly → (object b).Orderly d)
    (hmeet : ∀ p ∈ a.properties, ∀ q ∈ b.properties, Meeting env d exactly p.value q.value (meet p.value q.value)) :
    Meeting env d exactly (.object a) (.object b)
      (do env.makeObject (← ObjectShape.meetShapes admits meet a b)) := by
  refine ((meetShapes_spec ha hb har hbr hmeet).mono (fun _ h => h) ?_).bind ?_
  · intro e he hexact
    obtain ⟨hunsat, key, hapart⟩ := he hexact
    refine ⟨hunsat, fun v hv hn hva hvb => ?_⟩
    obtain ⟨es, hf, hva⟩ := member_object_iff.mp hva
    obtain ⟨es', hf', hvb⟩ := member_object_iff.mp hvb
    obtain rfl := Option.some.inj (hf.symm.trans hf')
    exact hapart es (fun e he => hv.child (Value.item_mem_children hf he))
      (fun e he => hn.child (Value.item_mem_children hf he))
      ((ObjectShape.forall_allows ha.root.2.1).mpr hva key) ((ObjectShape.forall_allows hb.root.2.1).mpr hvb key)
  · rintro o ⟨hi, hu, hslots⟩
    have hrepeated : ObjectShape.repeatedKey? [] o.keys = none :=
      repeatedKey?_of_nodup (keys_of_slots (fun _ _ h => h.key) hslots ha.root.2.1 hb.root.2.1) nofun
    refine .lift ?_
    rw [Env.makeObject, hrepeated, hi]
    exact meets_of_slots hslots ha hb hi hu

end Slots

end Schema
end Schemata
