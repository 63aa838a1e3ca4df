import Schemata.Proofs.Algebra.Common

/-! What two objects share, key by key: what both say of the key, and what the values share that both declare. -/
namespace Schemata

namespace ObjectShape

/-- Nothing that two objects say of the key shows that their intersection is empty. -/
structure OverlapsAt (env : Env) (a b : ObjectShape Schema) (key : Key) : Prop where
  left : ∀ x, a.property? key = some x → b.property? key = none → b.undeclared = .reject →
    x.presence.isRequired = false
  right : ∀ y, b.property? key = some y → a.property? key = none → a.undeclared = .reject →
    y.presence.isRequired = false
  both : ∀ x y, a.property? key = some x → b.property? key = some y →
    (x.presence.isRequired || y.presence.isRequired) = true → Schema.Overlap env x.value y.value

/-- The entries under the key belong to the intersection of two objects. -/
structure SharesAt (env : Env) (a b : ObjectShape Schema) (es : List Entry) (key : Key) : Prop where
  left : a.Allows env es key
  right : b.Allows env es key
  both : ∀ x y, a.property? key = some x → b.property? key = some y → ∀ e, Entry.find? es key = some e →
    Schema.Shares env x.value y.value e.item

variable {env : Env} {d : Dialect} {a b : ObjectShape Schema} {es : List Entry} {key : Key}

/-- The values under a key stay in the fragment. -/
theorem every_property? {p : Schema → Prop} {x : Property Schema} (ha : (Schema.object a).Every p)
    (hx : a.property? key = some x) : x.value.Every p := ha.property (property?_mem hx).1

theorem OverlapsAt.symm (h : a.OverlapsAt env b key) (ha : (Schema.object a).Every (Schema.Fits d))
    (hb : (Schema.object b).Every (Schema.Fits d)) : b.OverlapsAt env a key where
  left := h.right
  right := h.left
  both y x hy hx hreq := (h.both x y hx hy (by rwa [Bool.or_comm])).symm (every_property? ha hx) (every_property? hb hy)

theorem SharesAt.symm (h : a.SharesAt env b es key) (ha : (Schema.object a).Every (Schema.Fits d))
    (hb : (Schema.object b).Every (Schema.Fits d)) : b.SharesAt env a es key where
  left := h.right
  right := h.left
  both y x hy hx e he := (h.both x y hx hy e he).symm (every_property? ha hx) (every_property? hb hy)

end ObjectShape

namespace Schema

variable {env : Env} {d : Dialect} {a b o : ObjectShape Schema} {p q : Property Schema} {v : Value}

/-- Different objects overlap under every key. -/
theorem overlap_object (hak : a.keys.Nodup) (hbk : b.keys.Nodup) (hne : ¬ (object a).same (object b) = true) :
    Overlap env (.object a) (.object b) ↔ ∀ key, a.OverlapsAt env b key := by
  constructor
  · intro h key
    have hrules : (∀ x ∈ a.properties, ∀ y ∈ b.properties, x.key = y.key →
        (x.presence.isRequired || y.presence.isRequired) = true → Overlap env x.value y.value) ∧
        a.Grants b ∧ b.Grants a := by
      cases h with
      | equal hsame => exact absurd hsame hne
      | bounded _ _ hst => simp [isStructure] at hst
      | object h hab hba => exact ⟨h, hab, hba⟩
    obtain ⟨hboth, hab, hba⟩ := hrules
    refine ⟨fun x hx hnone hreject => ?_, fun y hy hnone hreject => ?_, fun x y hx hy => ?_⟩
    · obtain ⟨hmem, rfl⟩ := ObjectShape.property?_mem hx
      exact hba hreject x hmem hnone
    · obtain ⟨hmem, rfl⟩ := ObjectShape.property?_mem hy
      exact hab hreject y hmem hnone
    · obtain ⟨hxmem, hxk⟩ := ObjectShape.property?_mem hx
      obtain ⟨hymem, hyk⟩ := ObjectShape.property?_mem hy
      exact hboth x hxmem y hymem (hxk.trans hyk.symm)
  · intro h
    refine .object (fun x hx y hy hk => ?_) (fun hreject y hy hnone => ?_) fun hreject x hx hnone => ?_
    · exact (h y.key).both x y ((property?_eq_some hak).mpr ⟨hx, hk⟩) ((property?_eq_some hbk).mpr ⟨hy, rfl⟩)
    · exact (h y.key).right y ((property?_eq_some hbk).mpr ⟨hy, rfl⟩) hnone hreject
    · exact (h x.key).left x ((property?_eq_some hak).mpr ⟨hx, rfl⟩) hnone hreject

/-- Different objects share the mappings whose entries they share under every key. -/
theorem shares_object (hak : a.keys.Nodup) (hbk : b.keys.Nodup) (hne : ¬ (object a).same (object b) = true) :
    Shares env (.object a) (.object b) v ↔ Overlap env (.object a) (.object b) ∧
      ∃ es, v.fields? = some es ∧ ∀ key, a.SharesAt env b es key := by
  have member : ∀ {o : ObjectShape Schema}, o.keys.Nodup → (Member env true (.object o) v ↔
      ∃ es, v.fields? = some es ∧ ∀ key, o.Allows env es key) := fun ho => by
    simp only [member_object_iff, ObjectShape.forall_allows ho]
  constructor
  · intro h
    have hrules : Member env true (.object a) v ∧ Member env true (.object b) v ∧ ∃ es, v.fields? = some es ∧
        ∀ x ∈ a.properties, ∀ y ∈ b.properties, x.key = y.key → ∀ e, Entry.find? es x.key = some e →
          Shares env x.value y.value e.item := by
      cases h with
      | equal hsame => exact absurd hsame hne
      | plain _ _ _ hst => simp [isStructure] at hst
      | object _ hva hvb hf hboth => exact ⟨hva, hvb, _, hf, hboth⟩
    obtain ⟨hva, hvb, es, hf, hboth⟩ := hrules
    obtain ⟨es₁, hf₁, hall₁⟩ := (member hak).mp hva
    obtain ⟨es₂, hf₂, hall₂⟩ := (member hbk).mp hvb
    obtain rfl := Option.some.inj (hf.symm.trans hf₁)
    obtain rfl := Option.some.inj (hf.symm.trans hf₂)
    refine ⟨h.overlap, es, hf, fun key => ⟨hall₁ key, hall₂ key, fun x y hx hy e he => ?_⟩⟩
    obtain ⟨hxmem, rfl⟩ := ObjectShape.property?_mem hx
    obtain ⟨hymem, hyk⟩ := ObjectShape.property?_mem hy
    exact hboth x hxmem y hymem hyk.symm e he
  · rintro ⟨hoverlap, es, hf, hall⟩
    refine .object hoverlap ((member hak).mpr ⟨es, hf, fun key => (hall key).left⟩)
      ((member hbk).mpr ⟨es, hf, fun key => (hall key).right⟩) hf fun x hx y hy hk e he => ?_
    exact (hall x.key).both x y ((property?_eq_some hak).mpr ⟨hx, rfl⟩) ((property?_eq_some hbk).mpr ⟨hy, hk.symm⟩) e he

/-- The property `r` stands for what two objects share under the key of `p`. -/
structure Seat (env : Env) (d : Dialect) (a b : ObjectShape Schema) (p r : Property Schema) : Prop where
  key : r.key = p.key
  default : r.presence.default? = none
  orderly : r.value.Orderly d
  overlaps : a.OverlapsAt env b p.key
  met : ∀ es : List Entry, (∀ e ∈ es, e.item.Formed) → (Met env true es r ↔ a.SharesAt env b es p.key)

/-- The error says of two objects that they do not overlap under the key. -/
def BarredAt (env : Env) (a b : ObjectShape Schema) (key : Key) (e : Fault) : Prop :=
  e.isUnsatisfiable = true ∧ ¬ a.OverlapsAt env b key

/-- A property that only the first object declares. -/
theorem meetUndeclared_common {admits : Schema → Value → Except Fault Bool} {meet : Schema → Schema → Compose Schema}
    (hb : b.index = none) (hp : a.property? p.key = some p) (hq : b.property? p.key = none)
    (hd : p.presence.default? = none) (hr : p.value.Orderly d) :
    (ObjectShape.meetUndeclared admits meet a b p).Yields (Seat env d a b p) (BarredAt env a b p.key) := by
  have shares : ∀ {es : List Entry}, a.SharesAt env b es p.key ↔
      Met env true es p ∧ (b.undeclared = .reject → Entry.find? es p.key = none) := by
    intro es
    refine ⟨fun h => ⟨(ObjectShape.allows_of_property hp).mp h.left, (ObjectShape.allows_of_none hq).mp h.right⟩,
      fun h => ⟨(ObjectShape.allows_of_property hp).mpr h.1, (ObjectShape.allows_of_none hq).mpr h.2, ?_⟩⟩
    simp [hq]
  have overlaps : (b.undeclared = .reject → p.presence.isRequired = false) → a.OverlapsAt env b p.key := by
    intro h
    refine ⟨fun x hx _ hreject => ?_, by simp [hq], by simp [hq]⟩
    obtain rfl := Option.some.inj (hp.symm.trans hx)
    exact h hreject
  refine ObjectShape.meetUndeclared_yields hb
    (fun hreject hreq => ⟨rfl, hd, orderly_never, overlaps fun _ => hreq, fun es _ => ?_⟩)
    (fun hno => ⟨rfl, hd, hr, overlaps fun h => absurd h hno, fun es _ => ?_⟩)
    fun hreject hreq => ⟨rfl, fun h => by simpa [hreq] using h.left p hp hq hreject⟩
  · rw [shares, met_iff, met_iff]
    dsimp only
    rw [hreq]
    cases hfind : Entry.find? es p.key <;> simp [hreject]
  · rw [shares]
    exact ⟨fun h => ⟨h, fun hr => absurd hr hno⟩, fun h => h.1⟩

/-- A property that both objects declare. -/
theorem meetDeclared_common {meet : Schema → Schema → Compose Schema} (hp : a.property? p.key = some p)
    (hq : b.property? p.key = some q) (hdp : p.presence.default? = none) (hdq : q.presence.default? = none)
    (hpr : p.value.Orderly d) (hqr : q.value.Orderly d)
    (hmeet : Composes env d p.value q.value (meet p.value q.value)) :
    (ObjectShape.meetDeclared meet p q).Yields (Seat env d a b p) (BarredAt env a b p.key) := by
  have hpfit := hpr.fits
  have hqfit := hqr.fits
  have hkey : q.key = p.key := (ObjectShape.property?_mem hq).2
  have overlaps : a.OverlapsAt env b p.key ↔
      ((p.presence.isRequired || q.presence.isRequired) = true → Overlap env p.value q.value) := by
    refine ⟨fun h => h.both p q hp hq, fun h => ⟨by simp [hq], by simp [hp], fun x y hx hy => ?_⟩⟩
    obtain rfl := Option.some.inj (hp.symm.trans hx)
    obtain rfl := Option.some.inj (hq.symm.trans hy)
    exact h
  have shares : ∀ {es : List Entry}, a.SharesAt env b es p.key ↔
      (∀ e, Entry.find? es p.key = some e → Shares env p.value q.value e.item) ∧
        ((p.presence.isRequired || q.presence.isRequired) = true → (Entry.find? es p.key).isSome = true) := by
    intro es
    rw [Bool.or_eq_true]
    constructor
    · rintro ⟨hleft, hright, hboth⟩
      have hleft := met_iff.mp ((ObjectShape.allows_of_property hp).mp hleft)
      have hright := met_iff.mp ((ObjectShape.allows_of_property hq).mp hright)
      exact ⟨hboth p q hp hq, fun h => h.elim hleft.2 (hkey ▸ hright.2)⟩
    · rintro ⟨hboth, hreq⟩
      refine ⟨(ObjectShape.allows_of_property hp).mpr (met_iff.mpr ⟨fun e he => ?_, fun h => hreq (Or.inl h)⟩),
        (ObjectShape.allows_of_property hq).mpr (met_iff.mpr ?_), fun x y hx hy => ?_⟩
      · exact ((hboth e he).sound hpfit hqfit).1
      · rw [hkey]
        exact ⟨fun e he => ((hboth e he).sound hpfit hqfit).2, fun h => hreq (Or.inr h)⟩
      · obtain rfl := Option.some.inj (hp.symm.trans hx)
        obtain rfl := Option.some.inj (hq.symm.trans hy)
        exact hboth
  unfold ObjectShape.meetDeclared
  by_cases hsame : p.same q = true
  · rw [if_pos hsame]
    simp only [Property.same, Bool.and_eq_true, beq_iff_eq] at hsame
    have hpresence := Presence.eq_of_same hsame.2 hdp
    refine .pure ⟨rfl, hdp, hpr, overlaps.mpr fun _ => .equal hsame.1.2, fun es _ => ?_⟩
    rw [shares, met_iff, ← hpresence, Bool.or_self]
    refine and_congr_left fun _ => forall₂_congr fun e _ => ⟨fun h => .equal hsame.1.2 h, fun h => ?_⟩
    exact (h.sound hpfit hqfit).1
  · rw [if_neg hsame]
    obtain ⟨presence, hpresence, hdefault, hrequired, hoptional⟩ := meet?_presence hdp hdq
    have hplace : presence.isOptional = false ↔ (p.presence.isRequired || q.presence.isRequired) = true := by
      rw [hoptional, hrequired, Bool.not_eq_false']
    rw [hpresence]
    dsimp only
    refine Compose.Yields.bind ((place_common presence.isOptional hmeet).mono (fun _ h => h) ?_) fun s hs => .pure ?_
    · rintro e ⟨⟨hunsat, hno⟩, hopt⟩
      exact ⟨hunsat, fun h => hno (overlaps.mp h (hplace.mp hopt))⟩
    · refine ⟨rfl, hdefault, hs.orderly, overlaps.mpr fun h => hs.overlap (hplace.mpr h), fun es hes => ?_⟩
      rw [shares, met_iff]
      dsimp only
      rw [hrequired]
      exact and_congr_left fun _ => forall₂_congr fun e he => hs.member e.item (hes e (List.mem_of_find?_eq_some he))

/-- The properties of an intersection stand for what the objects share under their keys. -/
theorem meetShapes_common {admits : Schema → Value → Except Fault Bool} {meet : Schema → Schema → Compose Schema}
    (ha : (object a).Orderly d) (hb : (object b).Orderly d)
    (hmeet : ∀ p ∈ a.properties, ∀ q ∈ b.properties, Composes env d p.value q.value (meet p.value q.value)) :
    (ObjectShape.meetShapes admits meet a b).Yields
      (fun o => o.index = none ∧ o.undeclared = a.undeclared.stricter b.undeclared ∧
        List.Forall₂ (Seat env d a b) (a.properties ++ b.properties.filter fun q => !a.declares q.key) o.properties)
      fun e => ∃ key, BarredAt env a b key e := by
  have hfa := ha.fits
  have hfb := hb.fits
  obtain ⟨hai, hak, had, -⟩ := hfa.root
  obtain ⟨hbi, hbk, hbd, -⟩ := hfb.root
  refine ObjectShape.meetShapes_yields (I := fun i => i = none) ?_ (fun p hp hq => ?_) (fun p hp q hqmem hq => ?_)
    fun q hq hqa => ?_
  · rw [hai, hbi]
    exact .pure rfl
  · exact (meetUndeclared_common hbi ((property?_eq_some hak).mpr ⟨hp, rfl⟩) hq (had p hp) (ha.property hp)).mono
      (fun _ h => h) fun _ h => ⟨_, h⟩
  · exact (meetDeclared_common ((property?_eq_some hak).mpr ⟨hp, rfl⟩) hq (had p hp) (hbd q hqmem) (ha.property hp)
      (hb.property hqmem) (hmeet p hp q hqmem)).mono (fun _ h => h) fun _ h => ⟨_, h⟩
  · refine (meetUndeclared_common hai ((property?_eq_some hbk).mpr ⟨hq, rfl⟩) hqa (hbd q hq)
      (hb.property hq)).mono (fun r h => ?_) fun _ h => ⟨q.key, h.1, fun hoverlap => h.2 (hoverlap.symm hfa hfb)⟩
    exact ⟨h.key, h.default, h.orderly, h.overlaps.symm hfb hfa, fun es hes => (h.met es hes).trans
      ⟨fun h => h.symm hfb hfa, fun h => h.symm hfa hfb⟩⟩

/-- The object of what two different objects share under every key is what they share. -/
theorem common_of_seats (ha : (object a).Every (Fits d)) (hb : (object b).Every (Fits d))
    (hne : ¬ (object a).same (object b) = true) (hi : o.index = none)
    (hu : o.undeclared = a.undeclared.stricter b.undeclared)
    (hseats : List.Forall₂ (Seat env d a b) (a.properties ++ b.properties.filter fun q => !a.declares q.key)
      o.properties) : Common env d (.object a) (.object b) (.object o) := by
  have hak := ha.root.2.1
  have hbk := hb.root.2.1
  have hkey : ∀ p r, Seat env d a b p r → r.key = p.key := fun _ _ h => h.key
  have hok := keys_of_slots hkey hseats hak hbk
  have seat : ∀ r ∈ o.properties, ∃ p, Seat env d a b p r := fun r hr =>
    (forall₂_exists_right hseats hr).imp fun _ h => h.2
  have overlaps : ∀ key, a.OverlapsAt env b key := by
    intro key
    cases hprop : o.property? key with
    | some r =>
      obtain ⟨p, rfl, hseat⟩ := slot_of_property hkey hseats hprop
      exact hseat.overlaps
    | none =>
      obtain ⟨hna, hnb⟩ := undeclared_of_slots hkey hseats hprop
      exact ⟨by simp [hna], by simp [hnb], by simp [hna]⟩
  have hoverlap : Overlap env (.object a) (.object b) := (overlap_object hak hbk hne).mpr overlaps
  refine ⟨hoverlap, .intro ⟨⟨hi, hok, fun r hr => ?_, fun hlazy => ?_⟩, trivial⟩ fun t ht => ?_, fun v hv => ?_⟩
  · obtain ⟨_, hseat⟩ := seat r hr
    exact hseat.default
  · rw [hu]
    exact stricter_ne_delete (ha.root.2.2.2 hlazy) (hb.root.2.2.2 hlazy)
  · have hpart : ∃ r ∈ o.properties, r.value = t := by simpa [parts, hi, IndexSignature.parts] using ht
    obtain ⟨r, hr, rfl⟩ := hpart
    obtain ⟨_, hseat⟩ := seat r hr
    exact hseat.orderly
  · have formed : ∀ {es}, v.fields? = some es → ∀ e ∈ es, e.item.Formed := fun hf e he =>
      hv.child (Value.item_mem_children hf he)
    rw [shares_object hak hbk hne, member_object_iff]
    simp only [← ObjectShape.forall_allows hok]
    constructor
    · rintro ⟨es, hf, hall⟩
      refine ⟨hoverlap, es, hf, fun key => ?_⟩
      have hallows := hall key
      cases hprop : o.property? key with
      | some r =>
        obtain ⟨p, rfl, hseat⟩ := slot_of_property hkey hseats hprop
        exact (hseat.met es (formed hf)).mp ((ObjectShape.allows_of_property hprop).mp hallows)
      | none =>
        obtain ⟨hna, hnb⟩ := undeclared_of_slots hkey hseats hprop
        rw [ObjectShape.allows_of_none hprop, hu, stricter_reject] at hallows
        exact ⟨(ObjectShape.allows_of_none hna).mpr fun h => hallows (Or.inl h),
          (ObjectShape.allows_of_none hnb).mpr fun h => hallows (Or.inr h), by simp [hna]⟩
    · rintro ⟨-, es, hf, hall⟩
      refine ⟨es, hf, fun key => ?_⟩
      have hshares := hall key
      cases hprop : o.property? key with
      | some r =>
        obtain ⟨p, rfl, hseat⟩ := slot_of_property hkey hseats hprop
        exact (ObjectShape.allows_of_property hprop).mpr ((hseat.met es (formed hf)).mpr hshares)
      | none =>
        obtain ⟨hna, hnb⟩ := undeclared_of_slots hkey hseats hprop
        rw [ObjectShape.allows_of_none hprop, hu, stricter_reject]
        exact fun h => h.elim ((ObjectShape.allows_of_none hna).mp hshares.left)
          ((ObjectShape.allows_of_none hnb).mp hshares.right)

/-- Different objects meet in what they share. -/
theorem meetObjects_common {admits : Schema → Value → Except Fault Bool} {meet : Schema → Schema → Compose Schema}
    (ha : (object a).Orderly d) (hb : (object b).Orderly d) (hne : ¬ (object a).same (object b) = true)
    (hmeet : ∀ p ∈ a.properties, ∀ q ∈ b.properties, Composes env d p.value q.value (meet p.value q.value)) :
    Composes env d (.object a) (.object b) (do env.makeObject (← ObjectShape.meetShapes admits meet a b)) := by
  have hfa := ha.fits
  have hfb := hb.fits
  have hak := hfa.root.2.1
  have hbk := hfb.root.2.1
  refine ((meetShapes_common ha hb hmeet).mono (fun _ h => h) ?_).bind ?_
  · rintro e ⟨key, hunsat, hno⟩
    exact ⟨hunsat, fun hoverlap => hno ((overlap_object hak hbk hne).mp hoverlap key)⟩
  · rintro o ⟨hi, hu, hseats⟩
    have hrepeated : ObjectShape.repeatedKey? [] o.keys = none :=
      repeatedKey?_of_nodup (keys_of_slots (fun _ _ h => h.key) hseats hak hbk) nofun
    refine .lift ?_
    rw [Env.makeObject, hrepeated, hi]
    exact common_of_seats hfa hfb hne hi hu hseats

end Schema
end Schemata
