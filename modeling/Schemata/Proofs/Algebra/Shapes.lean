import Schemata.Algebra.Subset
import Schemata.Proofs.Runs
import Schemata.Proofs.Schema.Domains
import Schemata.Proofs.Schema.Sameness

/-! Objects inside objects and tuples inside tuples, by a sound test on their parts. -/
namespace Schemata

theorem ok_true_of_ite {ε : Type} {x y : Except ε Bool}
    (h : (do if ← x then y else pure false) = .ok true) : x = .ok true ∧ y = .ok true := by
  obtain ⟨b, hx, h⟩ := bind_ok h
  cases b with
  | true => exact ⟨hx, h⟩
  | false => simp [pure, Except.pure] at h

section Structures

variable {env : Env} {exact : Bool} {v : Value}

theorem Entry.given?_mono {es : List Entry} {key : Key} {p q : Presence} {e : Entry}
    (hp : p.isOptional = true → q.isOptional = true) (h : Entry.given? exact es key q = some e) :
    Entry.given? exact es key p = some e := by
  unfold Entry.given? at h ⊢
  rw [Option.filter_eq_some_iff] at h ⊢
  refine ⟨h.1, ?_⟩
  cases hopt : p.isOptional with
  | false => simp
  | true => simpa [hp hopt] using h.2

theorem Presence.required_or_optional {p : Presence} (h : p.default? = none) :
    p = .required ∨ p = .optional := by
  cases p <;> simp [default?] at h ⊢

theorem Presence.isOptional_iff {p : Presence} (h : p.default? = none) :
    p.isOptional = true ↔ ¬ p.isRequired = true := by
  cases p <;> simp [default?, isOptional, isRequired] at h ⊢

theorem ObjectShape.property?_mem {o : ObjectShape Schema} {key : Key} {p : Property Schema}
    (h : o.property? key = some p) : p ∈ o.properties ∧ p.key = key :=
  ⟨List.mem_of_find?_eq_some h, by simpa using List.find?_some h⟩

theorem ObjectShape.declares_eq {o : ObjectShape Schema} {key : Key} :
    o.declares key = (o.property? key).isSome := by
  unfold declares property?
  rw [Bool.eq_iff_iff, List.any_eq_true, List.find?_isSome]

theorem ObjectShape.declares_eq_false {o : ObjectShape Schema} {key : Key} :
    o.declares key = false ↔ o.property? key = none := by
  rw [declares_eq, Option.isSome_eq_false_iff, Option.isNone_iff_eq_none]

/-- What a yes of the test on two objects rests on. -/
structure ObjectShape.WithinGrounds (admits : Schema → Value → Except Fault Bool)
    (sub : Schema → Schema → Except Fault Bool) (a b : ObjectShape Schema) : Prop where
  strict : a.looserThan b = false
  covered : ∀ q ∈ b.properties, coversProperty admits sub a q = .ok true
  extra : ∀ p ∈ a.properties, b.declares p.key = false → extraWithin admits sub b p = .ok true
  indexed : indexWithin sub a.index b.index = .ok true

section Objects

variable {a b : ObjectShape Schema} {admits : Schema → Value → Except Fault Bool}
  {sub : Schema → Schema → Except Fault Bool}

theorem ObjectShape.within_grounds (h : ObjectShape.within admits sub a b = .ok true) :
    ObjectShape.WithinGrounds admits sub a b := by
  unfold ObjectShape.within at h
  split_ifs at h with hloose
  · simp [pure, Except.pure] at h
  obtain ⟨covered, hcovered, h⟩ := bind_ok h
  cases covered with
  | false => simp [pure, Except.pure] at h
  | true =>
  obtain ⟨extra, hextra, h⟩ := bind_ok h
  cases extra with
  | false => simp [pure, Except.pure] at h
  | true =>
  exact ⟨by simpa using hloose, allM_ok_true hcovered,
    fun p hp hdecl => allM_ok_true hextra p (List.mem_filter.mpr ⟨hp, by simp [hdecl]⟩), h⟩

/-- What a property asks of the entries holds of those of an object that covers it. -/
theorem ObjectShape.met_of_covered {es : List Entry} {q : Property Schema} (hf : v.fields? = some es)
    (ha : a.index = none) (hpa : ∀ p ∈ a.properties, p.presence.default? = none) (hq : q.presence.default? = none)
    (hsub : ∀ p ∈ a.properties, sub p.value q.value = .ok true →
      ∀ c ∈ v.unfold.children, p.value.Member env exact c → q.value.Member env exact c)
    (hcov : ObjectShape.coversProperty admits sub a q = .ok true) (hmet : ∀ p ∈ a.properties, Schema.Met env exact es p)
    (hreject : a.undeclared = .reject → ∀ e ∈ es, a.declares e.key = true) : Schema.Met env exact es q := by
  have found : ∀ {p : Presence} {e : Entry}, Entry.given? exact es q.key p = some e → e ∈ es ∧ e.key = q.key :=
    fun h => (Entry.find?_eq_some (Value.nodup_of_fields hf)).mp (Entry.given?_find h)
  unfold coversProperty at hcov
  cases hprop : a.property? q.key with
  | none =>
    simp only [hprop, absentWithin, ha] at hcov
    split_ifs at hcov with hreq
    · simp [pure, Except.pure] at hcov
    have hrej : a.undeclared = .reject := by simpa [bind, Except.bind, pure, Except.pure] using hcov
    refine ⟨fun e hgiven => ?_, fun hq => absurd hq hreq⟩
    obtain ⟨he, hk⟩ := found hgiven
    have := hreject hrej e he
    simp [declares_eq, hk, hprop] at this
  | some p =>
    obtain ⟨hp, hk⟩ := property?_mem hprop
    simp only [hprop] at hcov
    split_ifs at hcov with hreq
    · simp at hcov
    have hstrict : q.presence.isRequired = true → p.presence.isRequired = true := fun hq => by simpa [hq] using hreq
    have hmetp := hmet p hp
    rw [Schema.Met, hk] at hmetp
    refine ⟨fun e hgiven => ?_, fun hq' => ?_⟩
    · refine hsub p hp hcov e.item (Value.item_mem_children hf (found hgiven).1) (hmetp.1 e ?_)
      refine Entry.given?_mono (fun hopt => ?_) hgiven
      rw [Presence.isOptional_iff (hpa p hp)] at hopt
      exact (Presence.isOptional_iff hq).mpr fun h => hopt (hstrict h)
    · obtain ⟨e, he⟩ := Option.isSome_iff_exists.mp (hmetp.2 (hstrict hq'))
      have hgiven := Entry.given?_mono (fun hopt => absurd hq' ((Presence.isOptional_iff hq).mp hopt)) he
      exact Option.isSome_iff_exists.mpr ⟨e, hgiven⟩

/-- An object inside another one, by the test on their properties. -/
theorem ObjectShape.within_sound (ha : a.index = none) (hb : b.index = none)
    (hpa : ∀ p ∈ a.properties, p.presence.default? = none)
    (hpb : ∀ q ∈ b.properties, q.presence.default? = none)
    (hsub : ∀ p ∈ a.properties, ∀ q ∈ b.properties, sub p.value q.value = .ok true →
      ∀ c ∈ v.unfold.children, p.value.Member env exact c → q.value.Member env exact c)
    (h : ObjectShape.within admits sub a b = .ok true) (hv : (Schema.object a).Member env exact v) :
    (Schema.object b).Member env exact v := by
  obtain ⟨es, hf⟩ := Schema.fields_of_member hv
  obtain ⟨hmet, hreject⟩ := (Schema.member_object hf).mp hv
  obtain ⟨hstrict, hcovered, hextra, -⟩ := within_grounds h
  refine (Schema.member_object hf).mpr ⟨fun q hq => ?_, fun hpol e he => ?_⟩
  · exact met_of_covered hf ha hpa (hpb q hq) (fun p hp => hsub p hp q hq) (hcovered q hq) hmet hreject
  · have harej : a.undeclared = .reject := by simpa [looserThan, hpol] using hstrict
    obtain ⟨p, hp, hk⟩ := List.any_eq_true.mp (hreject harej e he)
    have hk : p.key = e.key := by simpa using hk
    cases hdecl : b.declares e.key with
    | true => rfl
    | false =>
      have := hextra p hp (hk ▸ hdecl)
      simp [extraWithin, hb, hpol, bind, Except.bind, pure, Except.pure] at this

end Objects

theorem Element.pairwise_sound {es fs : List (Element Schema)} {sub : Schema → Schema → Except Fault Bool}
    (h : Element.pairwiseWithin sub es fs = .ok true) :
    List.Forall₂ (fun e f => (f.role.isLeading = true → e.role.isLeading = true) ∧
      sub e.value f.value = .ok true) es fs := by
  induction es generalizing fs with
  | nil => cases fs <;> simp [pairwiseWithin] at h ⊢
  | cons e es ih =>
    cases fs with
    | nil => simp [pairwiseWithin] at h
    | cons f fs =>
      unfold pairwiseWithin at h
      split_ifs at h with hlead
      · simp [pure, Except.pure] at h
      · obtain ⟨hsub, hrest⟩ := ok_true_of_ite h
        exact .cons ⟨fun hf => by simpa [hf] using hlead, hsub⟩ (ih hrest)

theorem Element.fixed_eq_self {S : Type} {es : List (Element S)} (hs : Settled es) (hv : variadic? es = none) :
    fixed es = es := by
  have hlen := length_of_not_variadic hv (hs hv)
  exact List.filter_sublist.eq_of_length hlen

theorem Element.places_fixed {S : Type} {es : List (Element S)} (hs : Settled es) (hv : variadic? es = none)
    (items : List Value) : places es items = (es.map (·.value)).zip items := by
  simp [places, hv, hs hv, fixed_eq_self hs hv]

theorem Element.leastLength_mono {es fs : List (Element Schema)} (hes : trailing es = [])
    (hfs : trailing fs = [])
    (h : List.Forall₂ (fun e f => f.role.isLeading = true → e.role.isLeading = true) es fs) :
    leastLength fs ≤ leastLength es := by
  induction h with
  | nil => exact Nat.le_refl _
  | @cons e f es fs hef _ ih =>
    simp only [trailing, List.filter_eq_nil_iff, List.forall_mem_cons] at hes hfs
    have ih := ih (by simpa [trailing, List.filter_eq_nil_iff] using hes.2)
      (by simpa [trailing, List.filter_eq_nil_iff] using hfs.2)
    have hf : f.role.isTrailing = false := by simpa using hfs.1
    simp only [leastLength, List.countP_cons] at ih ⊢
    cases hlead : f.role.isLeading with
    | true =>
      rw [hef hlead]
      simpa using ih
    | false =>
      simp only [hf, Bool.or_self, Bool.false_eq_true, if_false]
      omega

/-- A tuple inside another one, by the test on their elements. -/
theorem Element.within_sound {es fs : List (Element Schema)} {sub : Schema → Schema → Except Fault Bool}
    (hes : Settled es) (hfs : Settled fs)
    (hsub : ∀ e ∈ es, ∀ f ∈ fs, sub e.value f.value = .ok true →
      ∀ c ∈ v.unfold.children, e.value.Member env exact c → f.value.Member env exact c)
    (h : Element.within sub es fs = .ok true) (hv : (Schema.tuple es).Member env exact v) :
    (Schema.tuple fs).Member env exact v := by
  obtain ⟨q, items, hi⟩ := Schema.items_of_member hv
  obtain ⟨hadm, hall⟩ := (Schema.member_tuple hi).mp hv
  have hchild : ∀ x ∈ items, x ∈ v.unfold.children := fun x hx => Value.children_of_items hi ▸ hx
  refine (Schema.member_tuple hi).mpr ?_
  unfold Element.within at h
  cases harray : array? fs with
  | some f =>
    obtain ⟨rfl, hvar⟩ := array?_eq_some harray
    simp only [harray] at h
    refine (Schema.member_tuple hi).mp ((member_array hvar hi).mpr fun x hx => ?_)
    obtain ⟨s, hplace⟩ := exists_place hes hadm hx
    obtain ⟨⟨e, he, rfl⟩, -⟩ := mem_places hplace
    exact hsub e he f (by simp) (allM_ok_true h e he) x (hchild x hx) (hall _ hplace)
  | none =>
    simp only [harray] at h
    split_ifs at h with hshape
    · simp at h
    have hve : variadic? es = none := by cases hv : variadic? es <;> simp [hv] at hshape ⊢
    have hvf : variadic? fs = none := by cases hv : variadic? fs <;> simp [hv] at hshape ⊢
    have hlen : es.length = fs.length := by simpa [hve, hvf] using hshape
    have hpairs := pairwise_sound h
    have hgreat : ∀ gs : List (Element Schema), variadic? gs = none → greatestLength? gs = some gs.length := by
      intro gs hgs
      have : ¬ gs.any (fun e => e.role.isVariadic) = true := by
        simpa [variadic?, List.find?_eq_none] using hgs
      simp [greatestLength?, this]
    refine ⟨⟨?_, fun high hhigh => ?_⟩, fun t ht => ?_⟩
    · exact (leastLength_mono (hes hve) (hfs hvf) (hpairs.imp fun _ _ h => h.1)).trans hadm.1
    · rw [hgreat fs hvf] at hhigh
      have := hadm.2 _ (hgreat es hve)
      have := Option.some.inj hhigh
      omega
    · rw [places_fixed hfs hvf] at ht
      rw [places_fixed hes hve] at hall
      have hvalues : List.Forall₂ (fun s t : Schema => ∀ c ∈ v.unfold.children, s.Member env exact c →
          t.Member env exact c) (es.map (·.value)) (fs.map (·.value)) := by
        rw [List.forall₂_map_left_iff, List.forall₂_map_right_iff]
        exact forall₂_imp_of_mem hpairs fun e he f hf h => hsub e he f hf h.2
      have hzip := forall₂_zip_zip hvalues (List.forall₂_same.mpr fun (x : Value) (_ : x ∈ items) => rfl)
      obtain ⟨t', ht', himp, heq⟩ := forall₂_exists_right hzip ht
      rw [← heq]
      exact himp t'.2 (hchild _ (List.of_mem_zip ht').2) (hall t' ht')

end Structures

end Schemata
