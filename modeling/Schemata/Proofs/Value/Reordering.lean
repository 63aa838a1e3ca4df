import Schemata.Proofs.Validation.Keys
import Schemata.Proofs.Value.Hashable
import Schemata.Proofs.Value.Labels
import Mathlib.Data.List.Pairwise
import Mathlib.Data.List.Perm.Basic

/-! The order of entries. Values that differ only in the order in which mappings list their entries have the same
equals, the same items in the same places and the same entries. -/
namespace Schemata

section Lists

variable {α β : Type} {R : α → β → Prop} {p : α → Bool} {q : β → Bool} {xs ys : List α} {zs : List β}

/-- Searches for what at most one element is find the same in all orders. -/
theorem find?_eq_of_perm (h : xs.Perm ys) (hone : xs.Pairwise fun a b => ¬ (p a = true ∧ p b = true)) :
    xs.find? p = ys.find? p := by
  induction h with
  | nil => rfl
  | cons x _ ih => rw [List.find?_cons, List.find?_cons, ih hone.of_cons]
  | swap x y l =>
    have hxy := List.rel_of_pairwise_cons hone (List.mem_cons_self ..)
    simp only [List.find?_cons]
    cases hx : p x <;> cases hy : p y <;> simp_all
  | trans hxy _ ih ih' =>
    exact (ih hone).trans (ih' ((hxy.pairwise_iff fun h => fun ⟨hb, ha⟩ => h ⟨ha, hb⟩).mp hone))

/-- A search that fits one element only finds it. -/
theorem find?_eq_of_mem {a : α} (ha : a ∈ xs) (hp : p a = true)
    (hone : xs.Pairwise fun a b => ¬ (p a = true ∧ p b = true)) : xs.find? p = some a := by
  obtain ⟨b, hb⟩ := Option.isSome_iff_exists.mp (List.find?_isSome.mpr ⟨a, ha, hp⟩)
  by_contra hne
  have hab : a ≠ b := fun h => hne (h ▸ hb)
  have : Std.Symm fun a b => ¬ (p a = true ∧ p b = true) := ⟨fun _ _ h ⟨hb, ha⟩ => h ⟨ha, hb⟩⟩
  exact hone.forall ha (List.mem_of_find?_eq_some hb) hab ⟨hp, List.find?_some hb⟩

theorem rel_find? (h : List.Forall₂ R xs zs) (hpq : ∀ a b, R a b → p a = q b) :
    Option.Rel R (xs.find? p) (zs.find? q) := by
  induction h with
  | nil => exact .none
  | @cons a b _ _ hab _ ih =>
    rw [List.find?_cons, List.find?_cons, hpq a b hab]
    cases q b with
    | true => exact .some hab
    | false => exact ih

theorem exists_perm_forall₂ {ws : List β} (h : List.Forall₂ R xs zs) (hperm : ws.Perm zs) :
    ∃ ys, xs.Perm ys ∧ List.Forall₂ R ys ws := by
  obtain ⟨ys, hall, hys⟩ := List.perm_comp_forall₂ hperm h.flip
  exact ⟨ys, hys.symm, hall.flip⟩

end Lists

namespace Value

/-- Everything that stands inside the value satisfies `p`, the keys of mappings and the parts of records too. -/
inductive Every (p : Value → Prop) : Value → Prop
  | intro {v : Value} : p v → (∀ w ∈ v.parts, Every p w) → Every p v

/-- The keys of a mapping can be keys, and no two of them are equal. -/
def Keyed : Value → Prop
  | .mapping es => (∀ e ∈ es, e.1.isHashable = true) ∧ es.Pairwise fun d e => ¬ d.1.same e.1 = true
  | _ => True

/-- What stands at one place in a value: a mapping has keys of its own, no container contains itself, and nothing
differs from itself. -/
structure Orderly (v : Value) : Prop where
  keyed : v.Keyed
  label? : v.label? = none
  closed : ∀ l c, v ≠ .back l c
  isNaN : v.isNaN = false

/-- The same in a value that may hold a NaN. -/
structure Grounded (v : Value) : Prop where
  keyed : v.Keyed
  label? : v.label? = none
  closed : ∀ l c, v ≠ .back l c

/-- No two keys of a mapping stand for one property key. -/
def KeysApart : Value → Prop
  | .mapping es => (es.filterMap fun e => Key.ofValue? e.1).Nodup
  | _ => True

mutual
/-- The values differ at most in the order in which mappings list their entries, at any depth, and in the labels of
tuples. -/
def Reorders : Value → Value → Prop
  | .list xs, w => ∃ ys, w = .list ys ∧ ReordersAll xs ys
  | .tuple _ xs, w => ∃ label ys, w = .tuple label ys ∧ ReordersAll xs ys
  | .mapping es, w => ∃ fs gs, w = .mapping fs ∧ fs.Perm gs ∧ ReordersEntries es gs
  | .record kind token xs, w => ∃ ys, w = .record kind token ys ∧ ReordersAll xs ys
  | v, w => v.Resembles w
termination_by structural v => v
def ReordersAll : List Value → List Value → Prop
  | [], ys => ys = []
  | x :: xs, ys => ∃ y zs, ys = y :: zs ∧ x.Reorders y ∧ ReordersAll xs zs
termination_by structural xs => xs
/-- Nothing inside a key may change, so keys differ in labels only. -/
def ReordersEntries : List (Value × Value) → List (Value × Value) → Prop
  | [], fs => fs = []
  | (k, v) :: es, fs => ∃ l w gs, fs = (l, w) :: gs ∧ k.Resembles l ∧ v.Reorders w ∧ ReordersEntries es gs
termination_by structural es => es
end

variable {p q : Value → Prop} {v w : Value} {strict : Prop}

theorem Every.root (h : v.Every p) : p v := by
  cases h with
  | intro h _ => exact h

theorem Every.part (h : v.Every p) (hw : w ∈ v.parts) : w.Every p := by
  cases h with
  | intro _ h => exact h w hw

theorem Every.mono (hpq : ∀ v, p v → q v) (h : v.Every p) : v.Every q := by
  induction h with
  | intro hv _ ih => exact .intro (hpq _ hv) ih

theorem Orderly.grounded (h : v.Orderly) : v.Grounded := ⟨h.keyed, h.label?, h.closed⟩

theorem reordersAll_iff {xs ys : List Value} : ReordersAll xs ys ↔ List.Forall₂ Reorders xs ys := by
  induction xs generalizing ys with
  | nil => simp [ReordersAll]
  | cons x xs ih => simp [ReordersAll, ih, List.forall₂_cons_left_iff]; grind

theorem reordersEntries_iff {es fs : List (Value × Value)} :
    ReordersEntries es fs ↔ List.Forall₂ (fun d e => d.1.Resembles e.1 ∧ d.2.Reorders e.2) es fs := by
  induction es generalizing fs with
  | nil => simp [ReordersEntries]
  | cons e es ih => simp [ReordersEntries, ih, List.forall₂_cons_left_iff]; grind

/-- The entries of the first mapping can be put in the order of the second's. -/
theorem Reorders.mapping {es : List (Value × Value)} (h : (Value.mapping es).Reorders w) : ∃ ds fs, w = .mapping fs ∧
    es.Perm ds ∧ List.Forall₂ (fun d e => d.1.Resembles e.1 ∧ d.2.Reorders e.2) ds fs := by
  obtain ⟨fs, gs, rfl, hperm, hall⟩ := h
  obtain ⟨ds, hds, hfs⟩ := exists_perm_forall₂ (reordersEntries_iff.mp hall) hperm
  exact ⟨ds, fs, rfl, hds, hfs⟩

theorem Resembles.same_eq (h : v.Resembles w) (a : Value) : a.same v = a.same w := by
  rw [← same_unlabelled, h, same_unlabelled]

theorem sameAll_eq {as xs ys : List Value} (h : List.Forall₂ (fun x y => ∀ a ∈ as, a.same x = a.same y) xs ys) :
    sameAll as xs = sameAll as ys := by
  induction as generalizing xs ys with
  | nil => cases h <;> rfl
  | cons a as ih =>
    cases h with
    | nil => rfl
    | cons hxy h =>
      simp only [sameAll, hxy a (List.mem_cons_self ..), ih (h.imp fun _ _ h b hb => h b (List.mem_cons_of_mem _ hb))]

/-- At most one key of a mapping equals a value. -/
theorem Keyed.one {es : List (Value × Value)} (h : (mapping es).Keyed) (k : Value) :
    es.Pairwise fun d e => ¬ (k.same d.1 = true ∧ k.same e.1 = true) :=
  h.2.imp_of_mem fun hd he hne ⟨hkd, hke⟩ => hne (same_euclidean (h.1 _ hd) (h.1 _ he) hkd hke)

theorem within_eq {as es ds fs : List (Value × Value)} (hkeyed : (mapping es).Keyed) (hperm : es.Perm ds)
    (h : List.Forall₂ (fun d e => d.1.Resembles e.1 ∧ ∀ a ∈ as, a.2.same d.2 = a.2.same e.2) ds fs) :
    within as es = within as fs := by
  induction as with
  | nil => rfl
  | cons a as ih =>
    obtain ⟨k, x⟩ := a
    have hfind := rel_find? (p := fun y => k.same y.1) (q := fun y => k.same y.1) h fun d e hde => hde.1.same_eq k
    rw [← find?_eq_of_perm hperm (hkeyed.one k)] at hfind
    simp only [within, ih (h.imp fun _ _ h => ⟨h.1, fun b hb => h.2 b (List.mem_cons_of_mem _ hb)⟩)]
    generalize es.find? _ = d at hfind ⊢
    generalize fs.find? _ = e at hfind ⊢
    cases hfind with
    | none => rfl
    | some hde => simp only [hde.2 _ (List.mem_cons_self ..)]

/-- Equality does not look at the order of entries. -/
theorem Reorders.same_eq (h : v.Reorders w) (hv : v.Every Orderly) (a : Value) : a.same v = a.same w := by
  induction a using induction_on_parts generalizing v w with
  | _ a ih =>
    have all : ∀ {xs ys : List Value}, (∀ x ∈ xs, x.Every Orderly) → ReordersAll xs ys →
        sameAll a.parts xs = sameAll a.parts ys := fun hxs h =>
      sameAll_eq (((List.forall₂_and_left _ _).mpr ⟨hxs, reordersAll_iff.mp h⟩).imp fun _ _ h b hb => ih b hb h.2 h.1)
    cases v with
    | list xs =>
      obtain ⟨ys, rfl, hall⟩ := id h
      cases a with
      | list as => exact all (fun x hx => hv.part hx) hall
      | knot l body => simp only [same, label?, ih body (List.mem_singleton.mpr rfl) h hv]
      | record kind token parts => cases token <;> rfl
      | _ => rfl
    | tuple l xs =>
      obtain ⟨l', ys, rfl, hall⟩ := id h
      cases a with
      | tuple _ as => exact all (fun x hx => hv.part hx) hall
      | knot l body => simp only [same, label?, ih body (List.mem_singleton.mpr rfl) h hv]
      | record kind token parts => cases token <;> rfl
      | _ => rfl
    | record kind token xs =>
      obtain ⟨ys, rfl, hall⟩ := id h
      cases a with
      | record other u as =>
        cases token with
        | none =>
          cases u with
          | none => simp only [same, show sameAll as xs = sameAll as ys from all (fun x hx => hv.part hx) hall]
          | some t => rfl
        | some t => cases u <;> rfl
      | knot l body => simp only [same, label?, ih body (List.mem_singleton.mpr rfl) h hv]
      | _ => rfl
    | mapping es =>
      obtain ⟨ds, fs, rfl, hperm, hall⟩ := h.mapping
      cases a with
      | mapping as =>
        have hentries : ∀ d ∈ ds, d.2.Every Orderly := fun d hd =>
          hv.part (List.mem_flatMap.mpr ⟨d, hperm.mem_iff.mpr hd, by simp⟩)
        have hall := ((List.forall₂_and_left _ _).mpr ⟨hentries, hall⟩).imp fun d e h =>
          (⟨h.2.1, fun b hb => (ih b.2 (List.mem_flatMap.mpr ⟨b, hb, by simp⟩) h.2.2 h.1)⟩ :
            d.1.Resembles e.1 ∧ ∀ b ∈ as, b.2.same d.2 = b.2.same e.2)
        simp only [same, unfold, within_eq hv.root.keyed hperm hall, hperm.length_eq, hall.length_eq]
      | knot l body => simp only [same, label?, ih body (List.mem_singleton.mpr rfl) h hv]
      | record kind token parts => cases token <;> rfl
      | _ => rfl
    | _ => exact Resembles.same_eq h a

/-- Every value equals itself. -/
theorem same_self_of_grounded (h : v.Every Grounded) : v.same v = true := by
  induction v using induction_on_parts with
  | _ v ih =>
    have ih : ∀ w ∈ v.parts, w.same w = true := fun w hw => ih w hw (h.part hw)
    cases v with
    | bool b => exact Number.same_self _
    | number n => exact Number.same_self n
    | list xs => exact sameAll_self ih
    | tuple l xs => exact sameAll_self ih
    | record kind token xs =>
      cases token with
      | none => simp [same, show sameAll xs xs = true from sameAll_self ih]
      | some t => simp [same]
    | mapping es =>
      have hself := forall_entries ih
      have sublist : ∀ ds, ds ⊆ es → within ds es = true := by
        intro ds hds
        induction ds with
        | nil => rfl
        | cons d ds ih =>
          obtain ⟨hd, hds⟩ := List.cons_subset.mp hds
          simp only [within, find?_eq_of_mem hd (hself d hd).1 (h.root.keyed.one d.1), (hself d hd).2, ih hds,
            Bool.and_self]
      simp [same, unfold, sublist es (List.Subset.refl es)]
    | back l c => exact absurd rfl (h.root.closed l c)
    | _ => simp [same, label?]

theorem orderly_of_scalar (h : v.isScalar = true) (hnumber : v.isNaN = false) : v.Every Orderly := by
  cases v <;> first
    | exact absurd h Bool.false_ne_true
    | exact .intro ⟨trivial, rfl, by simp, hnumber⟩ (List.forall_mem_nil _)

theorem orderly_of_key (k : Key) : k.toValue.Every Orderly := by cases k <;> exact orderly_of_scalar rfl rfl

theorem orderly_list {xs : List Value} (h : ∀ x ∈ xs, x.Every Orderly) : (list xs).Every Orderly :=
  .intro ⟨trivial, rfl, by simp, rfl⟩ h

theorem orderly_mapping {es : List (Value × Value)} (hkeyed : (mapping es).Keyed)
    (h : ∀ e ∈ es, e.1.Every Orderly ∧ e.2.Every Orderly) : (mapping es).Every Orderly := by
  refine .intro ⟨hkeyed, rfl, by simp, rfl⟩ fun x hx => ?_
  obtain ⟨e, he, hx⟩ := List.mem_flatMap.mp hx
  rcases List.mem_pair.mp hx with rfl | rfl
  · exact (h e he).1
  · exact (h e he).2

section Keys

variable {es : List (Value × Value)} {ks : List Key}

theorem isKey_of_keys (h : es.map (·.1) = ks.map Key.toValue) : ∀ e ∈ es, e.1.IsKey := fun e he => by
  obtain ⟨k, -, hk⟩ := List.mem_map.mp (h ▸ List.mem_map_of_mem he : e.1 ∈ ks.map Key.toValue)
  exact ⟨k, hk.symm⟩

/-- A mapping under property keys, each of which comes once. -/
theorem keyed_of_keys (h : es.map (·.1) = ks.map Key.toValue) (hks : ks.Nodup) :
    (mapping es).Keyed ∧ (mapping es).KeysApart := by
  refine ⟨⟨fun e he => ?_, ?_⟩, ?_⟩
  · obtain ⟨k, hk⟩ := isKey_of_keys h e he
    rw [hk]
    cases k <;> rfl
  · have hpairwise : (ks.map Key.toValue).Pairwise fun a b => ¬ a.same b = true :=
      List.pairwise_map.mpr (hks.imp fun hne hsame =>
        hne (Key.toValue_injective ((IsKey.same_iff_left ⟨_, rfl⟩).mp hsame)))
    rw [← h] at hpairwise
    exact List.pairwise_map.mp hpairwise
  · have hfilter : es.filterMap (fun e => Key.ofValue? e.1) = (ks.map Key.toValue).filterMap Key.ofValue? := by
      rw [← h, List.filterMap_map]
      rfl
    rw [KeysApart, hfilter, List.filterMap_map]
    refine hks.filterMap fun k l m hk hl => ?_
    cases k <;> cases l <;> simp_all [Key.toValue, Key.ofValue?]

theorem orderly_of_keys (ks : List Key) (h : es.map (·.1) = ks.map Key.toValue) (hks : ks.Nodup)
    (hitems : ∀ e ∈ es, e.2.Every Orderly) : (mapping es).Every Orderly := by
  refine orderly_mapping (keyed_of_keys h hks).1 fun e he => ⟨?_, hitems e he⟩
  obtain ⟨k, hk⟩ := isKey_of_keys h e he
  exact hk ▸ orderly_of_key k

end Keys

/-- What looks at no part of a container does not look at the order of entries. -/
theorem Reorders.congr {α : Type} {f : Value → α} (h : v.Reorders w)
    (hleaf : ∀ {v w : Value}, v.Resembles w → f v = f w)
    (hlist : ∀ xs ys, f (.list xs) = f (.list ys)) (htuple : ∀ l m xs ys, f (.tuple l xs) = f (.tuple m ys))
    (hmapping : ∀ es fs, f (.mapping es) = f (.mapping fs))
    (hrecord : ∀ kind token xs ys, f (.record kind token xs) = f (.record kind token ys)) : f v = f w := by
  cases v with
  | list xs =>
    obtain ⟨ys, rfl, -⟩ := h
    exact hlist xs ys
  | tuple l xs =>
    obtain ⟨m, ys, rfl, -⟩ := h
    exact htuple l m xs ys
  | mapping es =>
    obtain ⟨fs, -, rfl, -⟩ := h
    exact hmapping es fs
  | record kind token xs =>
    obtain ⟨ys, rfl, -⟩ := h
    exact hrecord kind token xs ys
  | _ => exact hleaf h

namespace Reorders

theorem domain (h : v.Reorders w) : v.domain = w.domain :=
  h.congr Resembles.domain (fun _ _ => rfl) (fun _ _ _ _ => rfl) (fun _ _ => rfl) fun _ _ _ _ => rfl

theorem typeName (h : v.Reorders w) : v.typeName = w.typeName :=
  h.congr Resembles.typeName (fun _ _ => rfl) (fun _ _ _ _ => rfl) (fun _ _ => rfl) fun _ _ _ _ => rfl

theorem isForeign (h : v.Reorders w) : v.isForeign = w.isForeign :=
  h.congr Resembles.isForeign (fun _ _ => rfl) (fun _ _ _ _ => rfl) (fun _ _ => rfl) fun _ _ _ _ => rfl

theorem isUndefined (h : v.Reorders w) : Check.isUndefined v = Check.isUndefined w :=
  h.congr Resembles.isUndefined (fun _ _ => rfl) (fun _ _ _ _ => rfl) (fun _ _ => rfl) fun _ _ _ _ => rfl

theorem number (h : v.Reorders w) (n : Number) : v = .number n ↔ w = .number n :=
  iff_of_eq (h.congr (f := fun v => v = .number n) (fun h => propext (h.number n)) (by simp) (by simp) (by simp)
    (by simp))

theorem string (h : v.Reorders w) (s : String) : v = .string s ↔ w = .string s :=
  iff_of_eq (h.congr (f := fun v => v = .string s) (fun h => propext (h.string s)) (by simp) (by simp) (by simp)
    (by simp))

theorem length? (h : v.Reorders w) : v.length? = w.length? := by
  cases v with
  | list xs =>
    obtain ⟨ys, rfl, hall⟩ := h
    simp [Value.length?, items?, unfold, (reordersAll_iff.mp hall).length_eq]
  | tuple l xs =>
    obtain ⟨m, ys, rfl, hall⟩ := h
    simp [Value.length?, items?, unfold, (reordersAll_iff.mp hall).length_eq]
  | mapping es =>
    obtain ⟨fs, -, rfl, -⟩ := h
    rfl
  | record kind token xs =>
    obtain ⟨ys, rfl, -⟩ := h
    rfl
  | _ => exact Resembles.length? h

theorem literalEqual (h : v.Reorders w) (hv : v.Every Orderly) (a : Value) : a.literalEqual v = a.literalEqual w := by
  have hsame := h.same_eq hv a
  cases v with
  | list xs =>
    obtain ⟨ys, rfl, -⟩ := h
    cases a <;> simp only [Value.literalEqual, Value.typeName, equal, hsame]
  | tuple l xs =>
    obtain ⟨m, ys, rfl, -⟩ := h
    cases a <;> simp only [Value.literalEqual, Value.typeName, equal, hsame]
  | mapping es =>
    obtain ⟨fs, -, rfl, -⟩ := h
    cases a <;> simp only [Value.literalEqual, Value.typeName, equal, hsame]
  | record kind token xs =>
    obtain ⟨ys, rfl, -⟩ := h
    cases a <;> simp only [Value.literalEqual, Value.typeName, equal, hsame]
  | _ => exact Resembles.literalEqual h a

end Reorders

/-- The second value is the first with its entries in other orders. If `strict`, no two keys of one mapping stand for
one property key. -/
structure Rearranged (strict : Prop) (v w : Value) : Prop where
  reorders : v.Reorders w
  orderly : v.Every Orderly
  apart : strict → v.Throughout KeysApart

namespace Rearranged

theorem label? (h : v.Rearranged strict w) : v.label? = none := h.orderly.root.label?

theorem equal (h : v.Rearranged strict w) : v.equal w = true := by
  rw [Value.equal, h.orderly.root.isNaN, ← h.reorders.same_eq h.orderly v,
    same_self_of_grounded (h.orderly.mono fun _ => Orderly.grounded)]
  rfl

theorem child {c : Value} (h : v.Rearranged strict w) (hc : c ∈ v.children) (hstrict : strict) :
    c.Throughout KeysApart := (h.apart hstrict).child ((unfold_of_label h.label?).symm ▸ hc)

/-- Items in one place are rearranged alike. -/
theorem items_of {xs ys : List Value} (h : v.Rearranged strict w) (hchildren : v.children = xs) (hparts : xs ⊆ v.parts)
    (hall : ReordersAll xs ys) : List.Forall₂ (Rearranged strict) xs ys := by
  have hxs : ∀ x ∈ xs, x.Every Orderly ∧ (strict → x.Throughout KeysApart) := fun x hx =>
    ⟨h.orderly.part (hparts hx), h.child (hchildren ▸ hx)⟩
  exact ((List.forall₂_and_left _ _).mpr ⟨hxs, reordersAll_iff.mp hall⟩).imp fun _ _ h => ⟨h.2, h.1.1, h.1.2⟩

theorem items (h : v.Rearranged strict w) :
    Option.Rel (fun p q => p.1 = q.1 ∧ List.Forall₂ (Rearranged strict) p.2 q.2) v.items? w.items? := by
  have hlabel := h.label?
  have hvw := h.reorders
  cases v with
  | list xs =>
    obtain ⟨ys, rfl, hall⟩ := hvw
    exact .some ⟨rfl, h.items_of rfl (fun _ hx => hx) hall⟩
  | tuple l xs =>
    obtain ⟨m, ys, rfl, hall⟩ := hvw
    exact .some ⟨rfl, h.items_of rfl (fun _ hx => hx) hall⟩
  | mapping es =>
    obtain ⟨fs, -, rfl, -⟩ := hvw
    exact .none
  | record kind token xs =>
    obtain ⟨ys, rfl, -⟩ := hvw
    exact .none
  | knot l body => exact absurd hlabel nofun
  | _ =>
    have hitems := Resembles.items hvw
    generalize w.items? = p at hitems ⊢
    cases hitems
    exact .none

theorem entries (h : v.Rearranged strict w) :
    Option.Rel (fun es fs => (strict → (Value.mapping es).KeysApart) ∧ ∃ ds, es.Perm ds ∧
      List.Forall₂ (fun d e => d.1.Resembles e.1 ∧ d.2.Rearranged strict e.2) ds fs) v.entries? w.entries? := by
  have hlabel := h.label?
  have hvw := h.reorders
  cases v with
  | mapping es =>
    obtain ⟨ds, fs, rfl, hperm, hall⟩ := hvw.mapping
    refine .some ⟨fun hs => (h.apart hs).here, ds, hperm, ?_⟩
    have hds : ∀ d ∈ ds, d.2.Every Orderly ∧ (strict → d.2.Throughout KeysApart) := fun d hd =>
      ⟨h.orderly.part (List.mem_flatMap.mpr ⟨d, hperm.mem_iff.mpr hd, by simp⟩),
        h.child (List.mem_map_of_mem (hperm.mem_iff.mpr hd))⟩
    exact ((List.forall₂_and_left _ _).mpr ⟨hds, hall⟩).imp fun _ _ h => ⟨h.2.1, h.2.2, h.1.1, h.1.2⟩
  | list xs =>
    obtain ⟨ys, rfl, -⟩ := hvw
    exact .none
  | tuple l xs =>
    obtain ⟨m, ys, rfl, -⟩ := hvw
    exact .none
  | record kind token xs =>
    obtain ⟨ys, rfl, -⟩ := hvw
    exact .none
  | knot l body => exact absurd hlabel nofun
  | _ =>
    have hentries := Resembles.entries hvw
    generalize w.entries? = p at hentries ⊢
    cases hentries
    exact .none

theorem of_key (k : Key) : k.toValue.Rearranged strict k.toValue := by
  cases k <;> exact ⟨rfl, orderly_of_key _, fun _ => throughout_of_children rfl trivial (List.forall_mem_nil _)⟩

/-- A sequence of rearranged items. -/
theorem make (q : Sequence) {xs ys : List Value} (h : List.Forall₂ (Rearranged strict) xs ys) :
    (q.make xs).Rearranged strict (q.make ys) := by
  have hall : ReordersAll xs ys := reordersAll_iff.mpr (h.imp fun _ _ h => h.reorders)
  have hxs : ∀ x ∈ xs, x.Every Orderly ∧ (strict → x.Throughout KeysApart) := by
    intro x hx
    obtain ⟨y, -, hxy⟩ := forall₂_exists_left h hx
    exact ⟨hxy.orderly, hxy.apart⟩
  cases q with
  | list =>
    exact ⟨⟨ys, rfl, hall⟩, orderly_list fun x hx => (hxs x hx).1, fun hs =>
      throughout_of_children rfl trivial fun x hx => (hxs x hx).2 hs⟩
  | tuple =>
    exact ⟨⟨none, ys, rfl, hall⟩, .intro ⟨trivial, rfl, nofun, rfl⟩ fun x hx => (hxs x hx).1, fun hs =>
      throughout_of_children rfl trivial fun x hx => (hxs x hx).2 hs⟩

/-- A mapping of rearranged items under property keys, in any order. -/
theorem ofKeys {es ds fs : List (Value × Value)} {ks : List Key} (hkeys : es.map (·.1) = ks.map Key.toValue)
    (hks : ks.Nodup) (hperm : es.Perm ds) (h : List.Forall₂ (fun d e =>
      d.1 = e.1 ∧ d.2.Rearranged strict e.2) ds fs) : (Value.mapping es).Rearranged strict (.mapping fs) := by
  have hitem : ∀ e ∈ es, e.2.Every Orderly ∧ (strict → e.2.Throughout KeysApart) := fun e he => by
    obtain ⟨f, -, -, hef⟩ := forall₂_exists_left h (hperm.mem_iff.mp he)
    exact ⟨hef.orderly, hef.apart⟩
  refine ⟨?_, orderly_of_keys ks hkeys hks fun e he => (hitem e he).1, fun hs => ?_⟩
  · obtain ⟨gs, hall, hgs⟩ := List.perm_comp_forall₂ hperm h
    refine ⟨fs, gs, rfl, hgs.symm, reordersEntries_iff.mpr (hall.imp fun d e hde => ?_)⟩
    exact ⟨congrArg unlabelled hde.1, hde.2.reorders⟩
  · refine throughout_of_children rfl (keyed_of_keys hkeys hks).2 fun x hx => ?_
    obtain ⟨e, he, rfl⟩ := List.mem_map.mp hx
    exact (hitem e he).2 hs

end Rearranged

end Value
end Schemata
