import Schemata.Proofs.Schema.Member

/-! Places of a tuple. They depend on the kinds of the elements only, and in a legal tuple every item of a
legal length has one. -/
namespace Schemata

section Lists

variable {α β γ δ : Type} {R : α → β → Prop} {S : γ → δ → Prop}

theorem forall₂_zip_zip {as : List α} {bs : List β} {xs : List γ} {ys : List δ} (h : List.Forall₂ R as bs)
    (h' : List.Forall₂ S xs ys) :
    List.Forall₂ (fun p q => R p.1 q.1 ∧ S p.2 q.2) (as.zip xs) (bs.zip ys) := by
  induction h generalizing xs ys with
  | nil => simp
  | cons hab _ ih =>
    cases h' with
    | nil => simp
    | cons hxy h' => exact .cons ⟨hab, hxy⟩ (ih h')

theorem forall₂_exists_left {as : List α} {bs : List β} (h : List.Forall₂ R as bs) {a : α} (ha : a ∈ as) :
    ∃ b ∈ bs, R a b := by
  induction h with
  | nil => simp at ha
  | cons hab _ ih =>
    rcases List.mem_cons.mp ha with rfl | ha
    · exact ⟨_, by simp, hab⟩
    · obtain ⟨b, hb, h⟩ := ih ha
      exact ⟨b, List.mem_cons_of_mem _ hb, h⟩

theorem forall₂_exists_right {as : List α} {bs : List β} (h : List.Forall₂ R as bs) {b : β} (hb : b ∈ bs) :
    ∃ a ∈ as, R a b := forall₂_exists_left h.flip hb

theorem forall₂_imp_of_mem {R' : α → β → Prop} {as : List α} {bs : List β} (h : List.Forall₂ R as bs)
    (hR : ∀ a ∈ as, ∀ b ∈ bs, R a b → R' a b) : List.Forall₂ R' as bs := by
  rw [List.forall₂_iff_zip] at h ⊢
  exact ⟨h.1, fun hz => hR _ (List.of_mem_zip hz).1 _ (List.of_mem_zip hz).2 (h.2 hz)⟩

theorem forall₂_any_iff {as : List α} {bs : List β} {P : α → Prop} {Q : β → Prop} (h : List.Forall₂ R as bs)
    (hR : ∀ a ∈ as, ∀ b ∈ bs, R a b → (P a ↔ Q b)) : (∃ a ∈ as, P a) ↔ ∃ b ∈ bs, Q b := by
  constructor
  · rintro ⟨a, ha, hp⟩
    obtain ⟨b, hb, hab⟩ := forall₂_exists_left h ha
    exact ⟨b, hb, (hR a ha b hb hab).mp hp⟩
  · rintro ⟨b, hb, hq⟩
    obtain ⟨a, ha, hab⟩ := forall₂_exists_right h hb
    exact ⟨a, ha, (hR a ha b hb hab).mpr hq⟩

theorem forall₂_all_iff {as : List α} {bs : List β} {P : α → Prop} {Q : β → Prop} (h : List.Forall₂ R as bs)
    (hR : ∀ a ∈ as, ∀ b ∈ bs, R a b → (P a ↔ Q b)) : (∀ a ∈ as, P a) ↔ ∀ b ∈ bs, Q b := by
  constructor
  · intro hp b hb
    obtain ⟨a, ha, hab⟩ := forall₂_exists_right h hb
    exact (hR a ha b hb hab).mp (hp a ha)
  · intro hq a ha
    obtain ⟨b, hb, hab⟩ := forall₂_exists_left h ha
    exact (hR a ha b hb hab).mpr (hq b hb)

theorem forall₂_self_map {f : α → β} {as : List α} (h : ∀ a ∈ as, R a (f a)) :
    List.Forall₂ R as (as.map f) := List.forall₂_map_right_iff.mpr (List.forall₂_same.mpr h)

end Lists

namespace Element

variable {S T : Type} {R : S → T → Prop}

/-- Elements of one kind whose values are related. -/
def Like (R : S → T → Prop) (e : Element S) (f : Element T) : Prop :=
  e.role.rank = f.role.rank ∧ R e.value f.value

theorem filter_like {es : List (Element S)} {fs : List (Element T)} (h : List.Forall₂ (Like R) es fs)
    (p : Nat → Bool) :
    List.Forall₂ R ((es.filter fun e => p e.role.rank).map (·.value))
      ((fs.filter fun f => p f.role.rank).map (·.value)) := by
  rw [List.forall₂_map_left_iff, List.forall₂_map_right_iff]
  refine List.Forall₂.imp (fun e f h => h.2) (List.rel_filter (R := Like R) ?_ h)
  intro e f hef
  simp [hef.1]

theorem fixed_like {es : List (Element S)} {fs : List (Element T)} (h : List.Forall₂ (Like R) es fs) :
    List.Forall₂ R ((fixed es).map (·.value)) ((fixed fs).map (·.value)) := filter_like h fun n => n < 3

theorem trailing_like {es : List (Element S)} {fs : List (Element T)} (h : List.Forall₂ (Like R) es fs) :
    List.Forall₂ R ((trailing es).map (·.value)) ((trailing fs).map (·.value)) := filter_like h fun n => n == 4

theorem variadic?_like {es : List (Element S)} {fs : List (Element T)} (h : List.Forall₂ (Like R) es fs) :
    Option.Rel (Like R) (variadic? es) (variadic? fs) := by
  induction h with
  | nil => exact .none
  | @cons e f es fs hef _ ih =>
    simp only [variadic?, List.find?_cons, Role.isVariadic] at ih ⊢
    rw [hef.1]
    cases f.role.rank == 3
    · exact ih
    · exact .some hef

/-- Tuples of the same kinds put corresponding items in corresponding places. -/
theorem places_like {es : List (Element S)} {fs : List (Element T)} (h : List.Forall₂ (Like R) es fs)
    {Q : Value → Value → Prop} {xs ys : List Value} (hxy : List.Forall₂ Q xs ys) :
    List.Forall₂ (fun p q => R p.1 q.1 ∧ Q p.2 q.2) (places es xs) (places fs ys) := by
  have hfixed := fixed_like h
  have htrailing := trailing_like h
  have hf : (fixed es).length = (fixed fs).length := by simpa using hfixed.length_eq
  have ht : (trailing es).length = (trailing fs).length := by simpa using htrailing.length_eq
  unfold places
  rw [← hxy.length_eq, ← ht, ← hf]
  have hfront := List.forall₂_take (xs.length - (trailing es).length) hxy
  refine List.rel_append (forall₂_zip_zip hfixed hfront) ?_
  have hv := variadic?_like h
  generalize variadic? es = a at hv ⊢
  generalize variadic? fs = b at hv ⊢
  cases hv with
  | none => exact .nil
  | some hef =>
    refine List.rel_append ?_ (forall₂_zip_zip htrailing ?_)
    · rw [List.forall₂_map_left_iff, List.forall₂_map_right_iff]
      exact (List.forall₂_drop _ hfront).imp fun x y hxy => ⟨hef.2, hxy⟩
    · rw [← hfront.length_eq]
      exact List.forall₂_drop _ hxy

theorem ranks_like {es : List (Element S)} {fs : List (Element T)} (h : List.Forall₂ (Like R) es fs) :
    es.map (·.role.rank) = fs.map (·.role.rank) := by
  induction h with
  | nil => rfl
  | cons hef _ ih => simp [hef.1, ih]

theorem leastLength_eq (es : List (Element S)) :
    leastLength es = (es.map (·.role.rank)).countP fun n => n == 0 || n == 4 := by
  rw [List.countP_map]
  rfl

theorem greatestLength?_eq (es : List (Element S)) :
    greatestLength? es =
      if (es.map (·.role.rank)).any fun n => n == 3 then none else some (es.map (·.role.rank)).length := by
  rw [List.any_map, List.length_map]
  rfl

theorem admits_like {es : List (Element S)} {fs : List (Element T)} (h : List.Forall₂ (Like R) es fs) {n : Nat} :
    Admits es n ↔ Admits fs n := by
  rw [Admits, Admits, leastLength_eq, leastLength_eq, greatestLength?_eq, greatestLength?_eq, ranks_like h]

theorem mem_places {es : List (Element S)} {items : List Value} {t : S × Value} (h : t ∈ places es items) :
    (∃ e ∈ es, e.value = t.1) ∧ t.2 ∈ items := by
  obtain ⟨s, x⟩ := t
  unfold places at h
  rcases List.mem_append.mp h with h | h
  · obtain ⟨hs, hx⟩ := List.of_mem_zip h
    obtain ⟨e, he, rfl⟩ := List.mem_map.mp hs
    exact ⟨⟨e, List.mem_of_mem_filter he, rfl⟩, List.mem_of_mem_take hx⟩
  · cases hv : variadic? es with
    | none => simp [hv] at h
    | some e =>
      simp only [hv] at h
      rcases List.mem_append.mp h with h | h
      · obtain ⟨y, hy, heq⟩ := List.mem_map.mp h
        obtain ⟨rfl, rfl⟩ := Prod.mk.inj heq
        exact ⟨⟨e, List.mem_of_find?_eq_some hv, rfl⟩, List.mem_of_mem_take (List.mem_of_mem_drop hy)⟩
      · obtain ⟨hs, hx⟩ := List.of_mem_zip h
        obtain ⟨e, he, rfl⟩ := List.mem_map.mp hs
        exact ⟨⟨e, List.mem_of_mem_filter he, rfl⟩, List.mem_of_mem_drop hx⟩

/-- Trailing elements stand behind a variadic one only. -/
def Settled (es : List (Element S)) : Prop := variadic? es = none → trailing es = []

theorem settled_of_shape {es : List (Element S)} (h : Role.shapeError? (es.map (·.role)) = none) :
    Settled es := by
  have hstray : Role.strayTrailing? 0 (es.map (·.role)) = none := by
    unfold Role.shapeError? at h
    split at h <;> simp_all
  have key : ∀ (es : List (Element S)) i, Role.strayTrailing? i (es.map (·.role)) = none → Settled es := by
    intro es
    induction es with
    | nil => intro _ _ _; rfl
    | cons e es ih =>
      intro i hi hv
      simp only [variadic?, List.find?_cons] at hv
      cases hvar : e.role.isVariadic with
      | true => simp [hvar] at hv
      | false =>
        simp only [List.map_cons, Role.strayTrailing?, hvar, Bool.false_eq_true, if_false] at hi
        split_ifs at hi with htr
        rw [hvar] at hv
        have := ih (i + 1) hi hv
        simp only [trailing, List.filter_cons, htr, Bool.false_eq_true, if_false]
        exact this
  exact key es 0 hstray

theorem length_of_not_variadic {es : List (Element S)} (hv : variadic? es = none) (ht : trailing es = []) :
    (fixed es).length = es.length := by
  rw [fixed, List.length_filter_eq_length_iff]
  intro e he
  have h₁ : e.role.rank ≠ 3 := by
    have := List.find?_eq_none.mp hv e he
    simpa [Role.isVariadic] using this
  have h₂ : e.role.rank ≠ 4 := by
    have := List.filter_eq_nil_iff.mp ht e he
    simpa [Role.isTrailing] using this
  have h₃ : e.role.rank ≤ 4 := by cases e.role <;> simp [Role.rank]
  simp only [decide_eq_true_eq]
  omega

theorem trailing_le_least (es : List (Element S)) : (trailing es).length ≤ leastLength es := by
  rw [trailing, leastLength, ← List.countP_eq_length_filter]
  refine List.countP_mono_left fun e _ h => ?_
  simp [h]

theorem zip_map_snd (as : List S) (xs : List Value) : (as.zip xs).map (·.2) = xs.take as.length := by
  induction as generalizing xs with
  | nil => simp
  | cons a as ih => cases xs <;> simp [ih]

/-- In a legal tuple the places of a legal number of items hold all the items in their order. -/
theorem places_items {es : List (Element S)} (hs : Settled es) {items : List Value}
    (h : Admits es items.length) : (places es items).map (·.2) = items := by
  unfold places
  cases hv : variadic? es with
  | none =>
    have ht := hs hv
    have hlen := length_of_not_variadic hv ht
    have hmax : items.length ≤ es.length := by
      refine h.2 _ ?_
      have : ¬ es.any (fun e => e.role.isVariadic) = true := by
        simpa [variadic?, List.find?_eq_none] using hv
      simp [greatestLength?, this]
    simp only [List.append_nil, ht, List.length_nil, Nat.sub_zero, List.take_length, zip_map_snd,
      List.length_map, hlen]
    exact List.take_of_length_le hmax
  | some e =>
    have hle : (trailing es).length ≤ items.length := (trailing_le_least es).trans h.1
    generalize hfront : items.take (items.length - (trailing es).length) = front
    have hflen : front.length = items.length - (trailing es).length := by simp [← hfront]
    have htail : (items.drop front.length).take (trailing es).length = items.drop front.length :=
      List.take_of_length_le (by simp [hflen]; omega)
    simp only [List.map_append, List.map_map, Function.comp_def, List.map_id', zip_map_snd, List.length_map,
      htail]
    rw [← List.append_assoc, List.take_append_drop, hflen, ← hfront, List.take_append_drop]

/-- Every item of a legal number of them has a place. -/
theorem exists_place {es : List (Element S)} (hs : Settled es) {items : List Value} (h : Admits es items.length)
    {x : Value} (hx : x ∈ items) : ∃ s, (s, x) ∈ places es items := by
  rw [← places_items hs h] at hx
  obtain ⟨t, ht, rfl⟩ := List.mem_map.mp hx
  exact ⟨t.1, ht⟩

theorem array?_eq_some {es : List (Element S)} {e : Element S} (h : array? es = some e) :
    es = [e] ∧ e.role.isVariadic = true := by
  unfold array? at h
  split at h
  · split_ifs at h with hvar
    obtain rfl := Option.some.inj h
    exact ⟨rfl, hvar⟩
  · simp at h

/-- All items of an array stand in the place of its element. -/
theorem places_array {e : Element S} (he : e.role.isVariadic = true) (items : List Value) :
    places [e] items = items.map fun x => (e.value, x) := by
  have hrank : e.role.rank = 3 := by simpa [Role.isVariadic] using he
  simp [places, fixed, trailing, variadic?, Role.isTrailing, hrank, he]

/-- The values of an array are the sequences of values of its element. -/
theorem member_array {env : Env} {exact : Bool} {e : Element Schema} (he : e.role.isVariadic = true) {v : Value}
    {q : Value.Sequence} {items : List Value} (hi : v.items? = some (q, items)) :
    (Schema.tuple [e]).Member env exact v ↔ ∀ x ∈ items, e.value.Member env exact x := by
  have hrank : e.role.rank = 3 := by simpa [Role.isVariadic] using he
  have hadmits : Admits [e] items.length := by
    simp [Admits, leastLength, greatestLength?, Role.isLeading, Role.isTrailing, hrank, he]
  rw [Schema.member_tuple hi, places_array he]
  simp [hadmits]

end Element
end Schemata
