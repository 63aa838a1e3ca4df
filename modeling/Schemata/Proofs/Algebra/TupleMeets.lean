import Schemata.Proofs.Algebra.Meets

/-! The intersection of two tuples. Tuples of the same kinds and arrays meet place by place, and all others stay
a conjunction. -/
namespace Schemata

namespace Element

/-- Tuples of disjoint lengths have no length in common. -/
theorem not_admits_of_disjoint {es fs : List (Element Schema)} (h : disjointLengths es fs = true) {n : Nat}
    (he : Admits es n) : ¬ Admits fs n := by
  intro hf
  unfold disjointLengths at h
  rw [Bool.or_eq_true] at h
  rcases h with h | h
  · split at h
    · rename_i m hm
      have := he.2 m hm
      have := hf.1
      simp only [decide_eq_true_eq] at h
      omega
    · simp at h
  · split at h
    · rename_i m hm
      have := hf.2 m hm
      have := he.1
      simp only [decide_eq_true_eq] at h
      omega
    · simp at h

/-- The roles of a legal tuple stand in the order of their ranks. -/
theorem ranks_of_shape {roles : List Role} (h : Role.shapeError? roles = none) :
    roles.Pairwise fun a b => a.rank ≤ b.rank := by
  have hdescent : Role.descent? 0 roles = none := by
    unfold Role.shapeError? at h
    split at h <;> simp_all
  have chain : ∀ (roles : List Role) i, Role.descent? i roles = none → roles.IsChain fun a b => a.rank ≤ b.rank := by
    intro roles
    induction roles with
    | nil => exact fun _ _ => .nil
    | cons a roles ih =>
      intro i h
      cases roles with
      | nil => exact .singleton a
      | cons b roles =>
        unfold Role.descent? at h
        split at h
        · simp at h
        · rename_i hle
          exact .cons_cons (not_lt.mp hle) (ih (i + 1) h)
  have : IsTrans Role fun a b => a.rank ≤ b.rank := ⟨fun _ _ _ => Nat.le_trans⟩
  exact List.isChain_iff_pairwise.mp (chain roles 0 hdescent)

theorem array?_of_regular {es : List (Element Schema)} (h : (Schema.tuple es).Regular) :
    array? es = none := by
  unfold array?
  split
  · rename_i e
    rcases h e (by simp) with hr | hr <;> simp [hr, Role.isVariadic, Role.rank]
  · rfl

variable {S : Type}

/-- In a legal tuple a leading element stands before the least length. -/
theorem lt_leastLength {es : List (Element S)} (h : Role.shapeError? (es.map (·.role)) = none) {i : Nat}
    (hi : i < es.length) (hlead : es[i].role.isLeading = true) : i < leastLength es := by
  have hsorted := List.pairwise_map.mp (ranks_of_shape h)
  have hfront : (es.take (i + 1)).countP (fun e => e.role.isLeading || e.role.isTrailing) = i + 1 := by
    have hlen : (es.take (i + 1)).length = i + 1 := by simp; omega
    rw [List.countP_eq_length.mpr, hlen]
    intro e he
    obtain ⟨j, hj, rfl⟩ := List.mem_take_iff_getElem.mp he
    have hle : es[j].role.rank ≤ es[i].role.rank := by
      rcases Nat.lt_or_ge j i with hji | hji
      · exact List.pairwise_iff_getElem.mp hsorted j i (by omega) hi hji
      · have : j = i := by omega
        simp [this]
    have hzero : es[i].role.rank = 0 := by simpa [Role.isLeading] using hlead
    simp [Role.isLeading, Nat.le_zero.mp (hzero ▸ hle)]
  calc i < i + 1 := Nat.lt_succ_self i
    _ = (es.take (i + 1)).countP (fun e => e.role.isLeading || e.role.isTrailing) := hfront.symm
    _ ≤ leastLength es := (List.take_sublist _ _).countP_le

/-- In a tuple of leading and optional elements a leading element has an item. -/
theorem exists_item {es : List (Element S)} (h : Role.shapeError? (es.map (·.role)) = none)
    (hroles : ∀ e ∈ es, e.role = .leading ∨ e.role = .optional) {items : List Value} (hadmits : Admits es items.length)
    {e : Element S} (he : e ∈ es) (hopt : e.role.isOptional = false) : ∃ x, (e.value, x) ∈ places es items := by
  have hvariadic : variadic? es = none := by
    rw [variadic?, List.find?_eq_none]
    intro e he
    rcases hroles e he with hr | hr <;> simp [hr, Role.isVariadic, Role.rank]
  rw [places_fixed (settled_of_shape h) hvariadic]
  obtain ⟨i, hi, rfl⟩ := List.mem_iff_getElem.mp he
  have hlead : es[i].role.isLeading = true := by
    rcases hroles es[i] he with hr | hr
    · simp [hr, Role.isLeading, Role.rank]
    · simp [hr, Role.isOptional, Role.rank] at hopt
  have hlt : i < items.length := (lt_leastLength h hi hlead).trans_le hadmits.1
  exact ⟨items[i], List.mem_iff_getElem.mpr ⟨i, by simpa using ⟨hi, hlt⟩, by simp⟩⟩

end Element

namespace Schema

section Tuples

variable {env : Env} {d : Dialect} {exactly : Prop} {es fs gs : List (Element Schema)}
  {meet : Schema → Schema → Compose Schema}

/-- An element of the kind of `e` with common values of two schemas. -/
def Meld (env : Env) (d : Dialect) (exactly : Prop) (e : Element Schema) (s t : Schema) (g : Element Schema) : Prop :=
  g.role = e.role ∧ Meets env d exactly s t g.value

theorem meetAs_spec {e : Element Schema} {s t : Schema} (h : Meeting env d exactly s t (meet s t)) :
    (Element.meetAs meet e s t).Yields (Meld env d exactly e s t)
      fun err => Apart env exactly s t err ∧ (exactly → e.role.isOptional = false) :=
  (place_spec e.role.isOptional h).bind fun _ hs => .pure ⟨rfl, hs⟩

/-- The roles of a tuple decide whether it is legal. -/
theorem fits_of_roles (hroles : gs.map (·.role) = es.map (·.role)) (h : (tuple es).Fits d) : (tuple gs).Fits d := by
  refine ⟨hroles ▸ h.1, fun g hg => ?_⟩
  have hmem : g.role ∈ gs.map (·.role) := List.mem_map_of_mem hg
  rw [hroles] at hmem
  obtain ⟨e, he, hrole⟩ := List.mem_map.mp hmem
  rw [← hrole]
  exact h.2 e he

theorem roles_eq {S T : Type} {es : List (Element S)} {fs : List (Element T)}
    (h : List.Forall₂ (fun e f => f.role = e.role) es fs) : fs.map (·.role) = es.map (·.role) := by
  rw [← List.forall₂_eq_eq_eq, List.forall₂_map_left_iff, List.forall₂_map_right_iff]
  exact h.flip

theorem every_of_melds {s t : Element Schema → Schema} (hes : (tuple es).Fits d)
    (h : List.Forall₂ (fun e g => Meld env d exactly e (s e) (t e) g) es gs) : (tuple gs).Every (Fits d) := by
  refine .intro (fits_of_roles (roles_eq (h.imp fun _ _ h => h.1)) hes) fun c hc => ?_
  obtain ⟨g, hg, rfl⟩ := List.mem_map.mp hc
  obtain ⟨e, -, hmeld⟩ := forall₂_exists_right h hg
  exact hmeld.2.fits

/-- An array narrows the elements of another tuple. -/
theorem meets_array (hes : (tuple es).Every (Fits d)) {f : Element Schema} (hf : f.role.isVariadic = true)
    (hno : ¬ exactly)
    (h : List.Forall₂ (fun e g => Meld env d exactly e e.value f.value g) es gs) :
    Meets env d exactly (.tuple es) (.tuple [f]) (.tuple gs) where
  fits := every_of_melds hes.root h
  orderly he := absurd he hno
  complete he := absurd he hno
  sound v hv hmem := by
    obtain ⟨q, items, hi⟩ := items_of_member hmem
    have formed : ∀ x ∈ items, x.Formed := fun x hx => hv.child (Value.children_of_items hi ▸ hx)
    have hlike : List.Forall₂ (Element.Like fun s t => ∀ x : Value, x.Formed → Member env true t x →
        Member env true s x ∧ Member env true f.value x) es gs :=
      h.imp fun e g hmeld => ⟨by rw [hmeld.1], hmeld.2.sound⟩
    obtain ⟨hadmits, hall⟩ := (member_tuple hi).mp hmem
    have hadmits : Element.Admits es items.length := (Element.admits_like hlike).mpr hadmits
    have both : ∀ t ∈ Element.places es items, t.1.Member env true t.2 ∧ f.value.Member env true t.2 := by
      intro t ht
      have hplaces := Element.places_like hlike (List.forall₂_same.mpr fun (x : Value) (_ : x ∈ items) => rfl)
      obtain ⟨t', ht', hsound, heq⟩ := forall₂_exists_left hplaces ht
      have hx : t.2 ∈ items := (Element.mem_places ht).2
      rw [heq] at hx ⊢
      exact hsound _ (formed _ hx) (hall t' ht')
    refine ⟨(member_tuple hi).mpr ⟨hadmits, fun t ht => (both t ht).1⟩, (Element.member_array hf hi).mpr fun x hx => ?_⟩
    obtain ⟨s, hs⟩ := Element.exists_place (Element.settled_of_shape hes.root.1) hadmits hx
    exact (both _ hs).2

/-- Two arrays meet in an array. -/
theorem meets_arrays {e f : Element Schema} (he : e.role.isVariadic = true) (hf : f.role.isVariadic = true)
    (hno : ¬ exactly) {c : Schema} (h : Meets env d exactly e.value f.value c) :
    Meets env d exactly (.tuple [e]) (.tuple [f]) (.array c) where
  fits := .intro ⟨rfl, by simp [Role.default?]⟩ (by simpa [parts, array] using h.fits)
  orderly hexact := absurd hexact hno
  complete hexact := absurd hexact hno
  sound v hv hmem := by
    obtain ⟨q, items, hi⟩ := items_of_member hmem
    have both : ∀ x ∈ items, e.value.Member env true x ∧ f.value.Member env true x := fun x hx =>
      h.sound x (hv.child (Value.children_of_items hi ▸ hx)) ((Element.member_array rfl hi).mp hmem x hx)
    exact ⟨(Element.member_array he hi).mpr fun x hx => (both x hx).1,
      (Element.member_array hf hi).mpr fun x hx => (both x hx).2⟩

/-- The elements of two tuples side by side, with the roles of the first. -/
def paired (es fs : List (Element Schema)) : List (Element (Schema × Schema)) :=
  List.zipWith (fun e f => ⟨e.role, e.value, f.value⟩) es fs

theorem paired_left (h : es.map (·.role.rank) = fs.map (·.role.rank)) :
    List.Forall₂ (fun p e => e.role = p.role ∧ p.value.1 = e.value) (paired es fs) es := by
  induction es generalizing fs with
  | nil => exact .nil
  | cons e es ih =>
    cases fs with
    | nil => simp at h
    | cons f fs =>
      simp only [List.map_cons, List.cons.injEq] at h
      exact .cons ⟨rfl, rfl⟩ (ih h.2)

theorem paired_right (h : es.map (·.role.rank) = fs.map (·.role.rank)) :
    List.Forall₂ (Element.Like fun p s => p.2 = s) (paired es fs) fs := by
  induction es generalizing fs with
  | nil =>
    cases fs with
    | nil => exact .nil
    | cons f fs => simp at h
  | cons e es ih =>
    cases fs with
    | nil => simp at h
    | cons f fs =>
      simp only [List.map_cons, List.cons.injEq] at h
      exact .cons ⟨h.1, rfl⟩ (ih h.2)

/-- Elements without defaults meet side by side. -/
theorem meetPairwise_yields {R : Element (Schema × Schema) → Element Schema → Prop} {Q : Fault → Prop}
    (hes : ∀ e ∈ es, e.role.default? = none)
    (h : ∀ e ∈ es, ∀ f ∈ fs, ⟨e.role, e.value, f.value⟩ ∈ paired es fs →
      (Element.meetAs meet e e.value f.value).Yields (R ⟨e.role, e.value, f.value⟩) Q) :
    (Element.meetPairwise meet es fs).Yields (List.Forall₂ R (paired es fs)) Q := by
  induction es generalizing fs with
  | nil => exact .pure .nil
  | cons e es ih =>
    cases fs with
    | nil => exact .pure .nil
    | cons f fs =>
      unfold Element.meetPairwise
      rw [if_pos (by simp [Element.sameDefault, hes e (by simp)])]
      refine (h e (by simp) f (by simp) (by simp [paired])).bind fun g hg => ?_
      refine (ih (fun e he => hes e (by simp [he])) fun e he f hf hmem => ?_).bind fun gs hgs => .pure (.cons hg hgs)
      exact h e (by simp [he]) f (by simp [hf]) (List.mem_cons_of_mem _ hmem)

theorem meetPairwise_spec (hes : ∀ e ∈ es, e.role.default? = none)
    (hmeet : ∀ e ∈ es, ∀ f ∈ fs, Meeting env d exactly e.value f.value (meet e.value f.value)) :
    (Element.meetPairwise meet es fs).Yields
      (List.Forall₂ (fun p g => g.role = p.role ∧ Meets env d exactly p.value.1 p.value.2 g.value) (paired es fs))
      fun err => exactly → err.isUnsatisfiable = true ∧ ∃ p ∈ paired es fs, p.role.isOptional = false ∧
        ∀ x : Value, x.Formed → x.NaNFree → Member env true p.value.1 x → ¬ Member env true p.value.2 x := by
  refine meetPairwise_yields hes fun e he f hf hmem => (meetAs_spec (hmeet e he f hf)).mono (fun _ h => h) ?_
  rintro err ⟨hapart, hplace⟩ hexact
  exact ⟨(hapart hexact).1, _, hmem, hplace hexact, (hapart hexact).2⟩

/-- Place by place the elements of both tuples have the values of the result. -/
theorem meets_pairwise (hes : (tuple es).Every (Fits d)) (hranks : es.map (·.role.rank) = fs.map (·.role.rank))
    (h : List.Forall₂ (fun p g => g.role = p.role ∧ Meets env d exactly p.value.1 p.value.2 g.value)
      (paired es fs) gs) : Meets env d exactly (.tuple es) (.tuple fs) (.tuple gs) := by
  have hleft : List.Forall₂ (Element.Like fun p s => p.1 = s) (paired es fs) es :=
    (paired_left hranks).imp fun p e h => ⟨by rw [h.1], h.2⟩
  have hright := paired_right hranks
  have hlike : List.Forall₂ (Element.Like fun p c => Meets env d exactly p.1 p.2 c) (paired es fs) gs :=
    h.imp fun p g hg => ⟨by rw [hg.1], hg.2⟩
  have hroles : gs.map (·.role) = es.map (·.role) :=
    (roles_eq (h.imp fun _ _ h => h.1)).trans (roles_eq ((paired_left hranks).imp fun _ _ h => h.1)).symm
  have root : (tuple gs).Fits d := fits_of_roles hroles hes.root
  have refl : ∀ items : List Value, List.Forall₂ (fun x y => x = y) items items := fun items =>
    List.forall₂_same.mpr fun _ _ => rfl
  refine ⟨.intro root fun c hc => ?_, fun v hv hmem => ?_, fun hexact => .intro ⟨root, trivial⟩ fun c hc => ?_,
    fun hexact v hv hn hva hvb => ?_⟩
  · obtain ⟨g, hg, rfl⟩ := List.mem_map.mp hc
    obtain ⟨p, -, hmeld⟩ := forall₂_exists_right h hg
    exact hmeld.2.fits
  · obtain ⟨q, items, hi⟩ := items_of_member hmem
    have formed : ∀ x ∈ items, x.Formed := fun x hx => hv.child (Value.children_of_items hi ▸ hx)
    obtain ⟨hadmits, hall⟩ := (member_tuple hi).mp hmem
    have hadmits : Element.Admits (paired es fs) items.length := (Element.admits_like hlike).mpr hadmits
    have both : ∀ t ∈ Element.places (paired es fs) items, t.1.1.Member env true t.2 ∧ t.1.2.Member env true t.2 := by
      intro t ht
      obtain ⟨t', ht', hmeets, heq⟩ := forall₂_exists_left (Element.places_like hlike (refl items)) ht
      have hx : t.2 ∈ items := (Element.mem_places ht).2
      rw [heq] at hx ⊢
      exact hmeets.sound _ (formed _ hx) (hall t' ht')
    refine ⟨(member_tuple hi).mpr ⟨(Element.admits_like hleft).mp hadmits, fun t ht => ?_⟩,
      (member_tuple hi).mpr ⟨(Element.admits_like hright).mp hadmits, fun t ht => ?_⟩⟩
    · obtain ⟨t', ht', heq, hx⟩ := forall₂_exists_right (Element.places_like hleft (refl items)) ht
      rw [← heq, ← hx]
      exact (both t' ht').1
    · obtain ⟨t', ht', heq, hx⟩ := forall₂_exists_right (Element.places_like hright (refl items)) ht
      rw [← heq, ← hx]
      exact (both t' ht').2
  · obtain ⟨g, hg, rfl⟩ := List.mem_map.mp hc
    obtain ⟨p, -, hmeld⟩ := forall₂_exists_right h hg
    exact hmeld.2.orderly hexact
  · obtain ⟨q, items, hi⟩ := items_of_member hva
    obtain ⟨hadmits, halla⟩ := (member_tuple hi).mp hva
    obtain ⟨-, hallb⟩ := (member_tuple hi).mp hvb
    have hadmits : Element.Admits (paired es fs) items.length := (Element.admits_like hleft).mpr hadmits
    refine (member_tuple hi).mpr ⟨(Element.admits_like hlike).mp hadmits, fun t ht => ?_⟩
    obtain ⟨p, hp, hmeets, hx⟩ := forall₂_exists_right (Element.places_like hlike (refl items)) ht
    obtain ⟨s, hs, hs₁, hs₂⟩ := forall₂_exists_left (Element.places_like hleft (refl items)) hp
    obtain ⟨u, hu, hu₁, hu₂⟩ := forall₂_exists_left (Element.places_like hright (refl items)) hp
    have hmem : p.2 ∈ items := (Element.mem_places hp).2
    have hchild : p.2 ∈ v.unfold.children := Value.children_of_items hi ▸ hmem
    rw [← hx]
    refine hmeets.complete hexact _ (hv.child hchild) (hn.child hchild) ?_ ?_
    · rw [hs₁, hs₂]
      exact halla s hs
    · rw [hu₁, hu₂]
      exact hallb u hu

/-- Leading elements without common values leave both tuples without common values. -/
theorem not_both_of_pair (hes : (tuple es).Fits d) (hranks : es.map (·.role.rank) = fs.map (·.role.rank))
    (hregular : (tuple es).Regular) {p : Element (Schema × Schema)} (hp : p ∈ paired es fs)
    (hopt : p.role.isOptional = false)
    (hapart : ∀ x : Value, x.Formed → x.NaNFree → Member env true p.value.1 x → ¬ Member env true p.value.2 x)
    {v : Value} (hv : v.Formed) (hn : v.NaNFree) (hva : Member env true (.tuple es) v) :
    ¬ Member env true (.tuple fs) v := by
  intro hvb
  obtain ⟨q, items, hi⟩ := items_of_member hva
  obtain ⟨hadmits, halla⟩ := (member_tuple hi).mp hva
  obtain ⟨-, hallb⟩ := (member_tuple hi).mp hvb
  have hleft := paired_left hranks
  have hroles := roles_eq (hleft.imp fun _ _ h => h.1)
  have leftLike : List.Forall₂ (Element.Like fun p s => p.1 = s) (paired es fs) es :=
    hleft.imp fun p e h => ⟨by rw [h.1], h.2⟩
  have refl : List.Forall₂ (fun x y => x = y) items items := List.forall₂_same.mpr fun _ _ => rfl
  have hkinds : ∀ p ∈ paired es fs, p.role = .leading ∨ p.role = .optional := by
    intro p hp
    obtain ⟨e, he, hrole, -⟩ := forall₂_exists_left hleft hp
    rw [← hrole]
    exact hregular e he
  obtain ⟨x, hx⟩ := Element.exists_item (hroles ▸ hes.1) hkinds ((Element.admits_like leftLike).mpr hadmits) hp hopt
  obtain ⟨s, hs, hs₁, hs₂⟩ := forall₂_exists_left (Element.places_like leftLike refl) hx
  obtain ⟨u, hu, hu₁, hu₂⟩ := forall₂_exists_left (Element.places_like (paired_right hranks) refl) hx
  have hchild : x ∈ v.unfold.children := Value.children_of_items hi ▸ (Element.mem_places hx).2
  refine hapart x (hv.child hchild) (hn.child hchild) ?_ ?_
  · have := halla s hs
    rwa [← hs₁, ← hs₂] at this
  · have := hallb u hu
    rwa [← hu₁, ← hu₂] at this

/-- Elements met one by one, where errors say nothing. -/
theorem narrowed_spec {s t : Element Schema → Schema} {Q : Fault → Prop} (hQ : ∀ e, Q e)
    (hmeet : ∀ e ∈ es, Meeting env d exactly (s e) (t e) (meet (s e) (t e))) :
    (es.mapM fun e => Element.meetAs meet e (s e) (t e)).Yields
      (List.Forall₂ (fun e g => Meld env d exactly e (s e) (t e) g) es) Q :=
  Compose.Yields.mapM fun e he => (meetAs_spec (hmeet e he)).mono (fun _ h => h) fun err _ => hQ err

/-- The intersection of two tuples. -/
theorem meetTuples (hd : d.lazy) (hes : (tuple es).Every (Fits d)) (hfs : (tuple fs).Every (Fits d))
    (her : exactly → (tuple es).Orderly d) (hfr : exactly → (tuple fs).Orderly d)
    (hre : exactly → (tuple es).Regular) (hrf : exactly → (tuple fs).Regular)
    (hmeet : ∀ e ∈ es, ∀ f ∈ fs, Meeting env d exactly e.value f.value (meet e.value f.value)) :
    Meeting env d exactly (.tuple es) (.tuple fs) (Element.meetTuples meet es fs) := by
  have inexact : ∀ {gs : List (Element Schema)} {g : Element Schema}, (exactly → (tuple gs).Regular) →
      Element.array? gs = some g → ¬ exactly := by
    intro gs g hgr harray hexact
    rw [Element.array?_of_regular (hgr hexact)] at harray
    simp at harray
  have silent : ¬ exactly → ∀ err, Apart env exactly (.tuple es) (.tuple fs) err := fun hno _ he => absurd he hno
  unfold Element.meetTuples
  by_cases hdisjoint : Element.disjointLengths es fs = true
  · rw [if_pos hdisjoint]
    refine Meeting.unsatisfiable fun _ v _ _ hva hvb => ?_
    obtain ⟨q, items, hi⟩ := items_of_member hva
    exact Element.not_admits_of_disjoint hdisjoint ((member_tuple hi).mp hva).1 ((member_tuple hi).mp hvb).1
  · rw [if_neg hdisjoint]
    cases hea : Element.array? es with
    | some e =>
      obtain ⟨rfl, hev⟩ := Element.array?_eq_some hea
      have hno := inexact hre hea
      cases hfa : Element.array? fs with
      | some f =>
        obtain ⟨rfl, hfv⟩ := Element.array?_eq_some hfa
        exact ((hmeet e (by simp) f (by simp)).mono (fun _ h => h) fun err _ => silent hno err).bind fun c hc =>
          .pure (meets_arrays hev hfv hno hc)
      | none =>
        refine (narrowed_spec (silent hno) fun f hf => hmeet e (by simp) f hf).bind fun gs hgs => .pure ?_
        exact (meets_array hfs hev hno (hgs.imp fun _ _ h => ⟨h.1, h.2.symm⟩)).symm
    | none =>
      cases hfa : Element.array? fs with
      | some f =>
        obtain ⟨rfl, hfv⟩ := Element.array?_eq_some hfa
        have hno := inexact hrf hfa
        exact (narrowed_spec (silent hno) fun e he => hmeet e he f (by simp)).bind fun gs hgs =>
          .pure (meets_array hes hfv hno hgs)
      | none =>
        dsimp only
        split_ifs with hkinds
        · have hranks : es.map (·.role.rank) = fs.map (·.role.rank) := by simpa [Element.sameKinds] using hkinds
          refine ((meetPairwise_spec hes.root.2 hmeet).mono (fun _ h => h) ?_).bind fun gs hgs =>
            .pure (meets_pairwise hes hranks hgs)
          intro err herr hexact
          obtain ⟨hunsat, p, hp, hopt, hapart⟩ := herr hexact
          refine ⟨hunsat, fun v hv hn hva hvb => ?_⟩
          exact not_both_of_pair hes.root hranks (hre hexact) hp hopt hapart hv hn hva hvb
        · refine .pure (Meets.conjunction hd (by simp [hes, hfs]) (fun he => ?_) fun v => by simp)
          simp [her he, hfr he]

end Tuples

end Schema
end Schemata
