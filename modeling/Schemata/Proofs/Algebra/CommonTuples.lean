import Schemata.Proofs.Algebra.Common

/-! What two tuples share, place by place. An array stands beside every place of the other tuple, and tuples of the
same kinds have the same places; of all others the lengths alone are compared. -/
namespace Schemata

namespace Element

variable {es fs : List (Element Schema)} {gs : List (Element (Schema × Schema))}

/-- What one tuple asks of common places: an array the same in all of them, any other its own elements in turn. -/
def Sided (side : Schema × Schema → Schema) (gs : List (Element (Schema × Schema))) (es : List (Element Schema)) :
    Prop :=
  (∃ e, es = [e] ∧ e.role.isVariadic = true ∧ ∀ g ∈ gs, side g.value = e.value) ∨
    List.Forall₂ (Like fun p s => side p = s) gs es

theorem aligned_sides (h : aligned? es fs = some gs) : Sided Prod.fst gs es ∧ Sided Prod.snd gs fs := by
  cases aligned?_forms h with
  | @arrays e f he hf =>
    exact ⟨Or.inl ⟨e, rfl, (array?_eq_some he).2, by simp⟩, Or.inl ⟨f, rfl, (array?_eq_some hf).2, by simp⟩⟩
  | @left e fs he =>
    refine ⟨Or.inl ⟨e, rfl, (array?_eq_some he).2, by simp⟩, Or.inr ?_⟩
    exact List.forall₂_map_left_iff.mpr (List.forall₂_same.mpr fun f _ => ⟨rfl, rfl⟩)
  | @right es f _ hf =>
    refine ⟨Or.inr ?_, Or.inl ⟨f, rfl, (array?_eq_some hf).2, by simp⟩⟩
    exact List.forall₂_map_left_iff.mpr (List.forall₂_same.mpr fun e _ => ⟨rfl, rfl⟩)
  | pairwise _ _ hranks =>
    exact ⟨Or.inr ((Schema.paired_left hranks).imp fun p e h => ⟨by rw [h.1], h.2⟩),
      Or.inr (Schema.paired_right hranks)⟩

/-- Common places are the places of one of the tuples. -/
theorem aligned_roles (hes : ∀ e ∈ es, e.role.default? = none) (h : aligned? es fs = some gs) :
    gs.map (·.role) = es.map (·.role) ∨ gs.map (·.role) = fs.map (·.role) := by
  cases aligned?_forms h with
  | @arrays e f he =>
    have hrank : e.role.rank = 3 := by simpa [Role.isVariadic] using (array?_eq_some he).2
    have hrole : Role.variadic = e.role := Role.eq_of_rank rfl (hes e (by simp)) hrank.symm
    exact Or.inl (by simp [hrole])
  | left => exact Or.inr (by simp)
  | right => exact Or.inl (by simp)
  | pairwise _ _ hranks => exact Or.inl (Schema.roles_eq ((Schema.paired_left hranks).imp fun _ _ h => h.1)).symm

theorem admits_of_roles {S T : Type} {es : List (Element S)} {fs : List (Element T)}
    (h : es.map (·.role) = fs.map (·.role)) {n : Nat} : Admits es n ↔ Admits fs n := by
  have hranks : es.map (·.role.rank) = fs.map (·.role.rank) := by
    simpa [Function.comp_def] using congrArg (List.map Role.rank) h
  rw [Admits, Admits, leastLength_eq, leastLength_eq, greatestLength?_eq, greatestLength?_eq, hranks]

section Sides

variable {env : Env} {side : Schema × Schema → Schema} {v : Value} {k : Value.Sequence} {items : List Value}

/-- At a length of the common places a tuple has the values whose items satisfy what it asks there. -/
theorem Sided.member_iff (h : Sided side gs es) (hset : Settled gs) (hi : v.items? = some (k, items))
    (hadmits : Admits gs items.length) :
    (Schema.tuple es).Member env true v ↔ ∀ t ∈ places gs items, (side t.1).Member env true t.2 := by
  rcases h with ⟨e, rfl, hev, hall⟩ | hlike
  · have asks : ∀ t ∈ places gs items, side t.1 = e.value := fun t ht => by
      obtain ⟨g, hg, hvalue⟩ := (mem_places ht).1
      rw [← hvalue, hall g hg]
    rw [member_array hev hi]
    constructor
    · intro h t ht
      rw [asks t ht]
      exact h t.2 (mem_places ht).2
    · intro h x hx
      obtain ⟨s, hs⟩ := exists_place hset hadmits hx
      have := h _ hs
      rwa [asks _ hs] at this
  · have hplaces := places_like hlike (List.forall₂_same.mpr fun (x : Value) (_ : x ∈ items) => rfl)
    rw [Schema.member_tuple hi, and_iff_right ((admits_like hlike).mp hadmits)]
    exact (forall₂_all_iff hplaces fun t _ t' _ ⟨hside, hx⟩ => by rw [hside, hx]).symm

end Sides

end Element

namespace Schema

variable {env : Env} {d : Dialect} {es fs cs : List (Element Schema)} {gs : List (Element (Schema × Schema))} {v : Value}

/-- Different tuples overlap when they have a common length and overlap in all places that need an item. -/
theorem overlap_tuple (hne : ¬ (tuple es).same (tuple fs) = true) : Overlap env (.tuple es) (.tuple fs) ↔
    Element.disjointLengths es fs = false ∧ ∀ gs, Element.aligned? es fs = some gs → ∀ g ∈ gs,
      g.role.isOptional = false → Overlap env g.value.1 g.value.2 := by
  constructor
  · intro h
    cases h with
    | equal hsame => exact absurd hsame hne
    | bounded _ _ hst => simp [isStructure] at hst
    | tuple hlen hall => exact ⟨hlen, hall⟩
  · exact fun h => .tuple h.1 h.2

/-- Different tuples share the common values whose items they share. -/
theorem shares_tuple (hne : ¬ (tuple es).same (tuple fs) = true) : Shares env (.tuple es) (.tuple fs) v ↔
    Overlap env (.tuple es) (.tuple fs) ∧ Member env true (.tuple es) v ∧ Member env true (.tuple fs) v ∧
      ∃ k items, v.items? = some (k, items) ∧ ∀ gs, Element.aligned? es fs = some gs →
        ∀ t ∈ Element.places gs items, Shares env t.1.1 t.1.2 t.2 := by
  constructor
  · intro h
    cases h with
    | equal hsame => exact absurd hsame hne
    | plain _ _ _ hst => simp [isStructure] at hst
    | tuple h hva hvb hi hall => exact ⟨h, hva, hvb, _, _, hi, hall⟩
  · rintro ⟨h, hva, hvb, k, items, hi, hall⟩
    exact .tuple h hva hvb hi hall

/-- An element stands for what two tuples share in a place. -/
def Filled (env : Env) (d : Dialect) (g : Element (Schema × Schema)) (c : Element Schema) : Prop :=
  c.role = g.role ∧ Placed env d g.role.isOptional g.value.1 g.value.2 c.value

/-- The error says of a place that needs an item that two tuples do not overlap there. -/
def BarredIn (env : Env) (gs : List (Element (Schema × Schema))) (e : Fault) : Prop :=
  e.isUnsatisfiable = true ∧ ∃ g ∈ gs, g.role.isOptional = false ∧ ¬ Overlap env g.value.1 g.value.2

section Meets

variable {meet : Schema → Schema → Compose Schema}

theorem meetAs_common {e : Element Schema} {s t : Schema} (h : Composes env d s t (meet s t)) :
    (Element.meetAs meet e s t).Yields (Filled env d ⟨e.role, s, t⟩)
      fun err => Barred env s t err ∧ e.role.isOptional = false :=
  (place_common e.role.isOptional h).bind fun _ hs => .pure ⟨rfl, hs⟩

/-- Elements met one by one fill the places they stand for. -/
theorem mapM_common (place : Element Schema → Element (Schema × Schema)) (hplace : ∀ e, (place e).role = e.role)
    (hmeet : ∀ e ∈ es, Composes env d (place e).value.1 (place e).value.2 (meet (place e).value.1 (place e).value.2)) :
    (es.mapM fun e => Element.meetAs meet e (place e).value.1 (place e).value.2).Yields
      (List.Forall₂ (Filled env d) (es.map place)) (BarredIn env (es.map place)) := by
  refine (Compose.Yields.mapM (R := fun e c => Filled env d (place e) c) fun e he => ?_).mono
    (fun cs hcs => List.forall₂_map_left_iff.mpr hcs) fun _ h => h
  refine (meetAs_common (hmeet e he)).mono (fun c hc => ?_) ?_
  · rw [Filled, hplace e]
    exact hc
  · rintro err ⟨⟨hunsat, hno⟩, hopt⟩
    exact ⟨hunsat, place e, List.mem_map_of_mem he, by rwa [hplace e], hno⟩

theorem meetPairwise_common (hes : ∀ e ∈ es, e.role.default? = none)
    (hmeet : ∀ e ∈ es, ∀ f ∈ fs, Composes env d e.value f.value (meet e.value f.value)) :
    (Element.meetPairwise meet es fs).Yields (List.Forall₂ (Filled env d) (paired es fs))
      (BarredIn env (paired es fs)) := by
  refine meetPairwise_yields hes fun e he f hf hmem => (meetAs_common (hmeet e he f hf)).mono (fun _ h => h) ?_
  rintro err ⟨⟨hunsat, hno⟩, hopt⟩
  exact ⟨hunsat, _, hmem, hopt, hno⟩

/-- Tuples with common places meet there. -/
theorem meetTuples_aligned (hlen : Element.disjointLengths es fs = false) (halign : Element.aligned? es fs = some gs)
    (hes : ∀ e ∈ es, e.role.default? = none)
    (hmeet : ∀ e ∈ es, ∀ f ∈ fs, Composes env d e.value f.value (meet e.value f.value)) :
    (Element.meetTuples meet es fs).Yields (fun c => ∃ cs, c = .tuple cs ∧ List.Forall₂ (Filled env d) gs cs)
      (BarredIn env gs) := by
  unfold Element.meetTuples
  rw [if_neg (by simp [hlen])]
  cases Element.aligned?_forms halign with
  | @arrays e f he hf =>
    simp only [he, hf]
    refine ((hmeet e (by simp) f (by simp)).mono (fun _ h => h) ?_).bind fun c hc => .pure ?_
    · exact fun err h => ⟨h.1, _, List.mem_singleton.mpr rfl, rfl, h.2⟩
    · exact ⟨_, rfl, .cons ⟨rfl, fun _ => hc.overlap, hc.orderly, hc.member⟩ .nil⟩
  | @left e fs he hf =>
    simp only [he, hf]
    refine (mapM_common (fun f => ⟨f.role, e.value, f.value⟩) (fun _ => rfl) fun f hf =>
      hmeet e (by simp) f hf).bind fun cs hcs => .pure ⟨cs, rfl, hcs⟩
  | @right es f he hf =>
    simp only [he, hf]
    refine (mapM_common (fun e => ⟨e.role, e.value, f.value⟩) (fun _ => rfl) fun e he =>
      hmeet e he f (by simp)).bind fun cs hcs => .pure ⟨cs, rfl, hcs⟩
  | pairwise he hf hranks =>
    simp only [he, hf]
    rw [if_pos (by simpa [Element.sameKinds] using hranks)]
    exact (meetPairwise_common hes hmeet).bind fun cs hcs => .pure ⟨cs, rfl, hcs⟩

end Meets

/-- The tuple of what two different tuples share in their common places is what they share. -/
theorem common_of_filled (hes : (tuple es).Every (Fits d)) (hfs : (tuple fs).Every (Fits d))
    (hne : ¬ (tuple es).same (tuple fs) = true) (hlen : Element.disjointLengths es fs = false)
    (halign : Element.aligned? es fs = some gs) (h : List.Forall₂ (Filled env d) gs cs) :
    Common env d (.tuple es) (.tuple fs) (.tuple cs) := by
  have hroles : cs.map (·.role) = gs.map (·.role) := roles_eq (h.imp fun _ _ h => h.1)
  have hown := Element.aligned_roles hes.root.2 halign
  obtain ⟨hleft, hright⟩ := Element.aligned_sides halign
  have root : (tuple cs).Fits d := by
    rcases hown with hown | hown
    · exact fits_of_roles (hroles.trans hown) hes.root
    · exact fits_of_roles (hroles.trans hown) hfs.root
  have hset : Element.Settled gs := Element.settled_of_shape (hroles ▸ root.1)
  have hoverlap : Overlap env (.tuple es) (.tuple fs) := by
    refine (overlap_tuple hne).mpr ⟨hlen, fun gs' hgs' g hg hopt => ?_⟩
    obtain rfl := Option.some.inj (halign.symm.trans hgs')
    obtain ⟨c, -, hfilled⟩ := forall₂_exists_left h hg
    exact hfilled.2.overlap hopt
  refine ⟨hoverlap, .intro ⟨root, trivial⟩ fun t ht => ?_, fun v hv => ?_⟩
  · obtain ⟨c, hc, rfl⟩ := List.mem_map.mp ht
    obtain ⟨g, -, hfilled⟩ := forall₂_exists_right h hc
    exact hfilled.2.orderly
  · have hmember : ∀ {k items}, v.items? = some (k, items) → (Member env true (.tuple cs) v ↔
        Element.Admits gs items.length ∧ ∀ t ∈ Element.places gs items, Shares env t.1.1 t.1.2 t.2) := by
      intro k items hi
      have hlike : List.Forall₂ (Element.Like fun (p : Schema × Schema) s => ∀ x : Value, x.Formed →
          (Member env true s x ↔ Shares env p.1 p.2 x)) gs cs :=
        h.imp fun g c hfilled => ⟨by rw [hfilled.1], hfilled.2.member⟩
      have hplaces := Element.places_like hlike (List.forall₂_same.mpr fun (x : Value) (_ : x ∈ items) => rfl)
      have formed : ∀ x ∈ items, x.Formed := fun x hx => hv.child (Value.children_of_items hi ▸ hx)
      rw [member_tuple hi, ← Element.admits_like hlike]
      refine and_congr_right fun _ => (forall₂_all_iff hplaces fun t ht t' _ ⟨hiff, hx⟩ => ?_).symm
      rw [← hx]
      exact (hiff t.2 (formed _ (Element.mem_places ht).2)).symm
    rw [shares_tuple hne]
    constructor
    · intro hmem
      obtain ⟨k, items, hi⟩ := items_of_member hmem
      obtain ⟨hadmits, hall⟩ := (hmember hi).mp hmem
      have both : ∀ t ∈ Element.places gs items, Member env true t.1.1 t.2 ∧ Member env true t.1.2 t.2 := by
        intro t ht
        obtain ⟨g, hg, hvalue⟩ := (Element.mem_places ht).1
        obtain ⟨⟨e, he, h₁⟩, f, hf, h₂⟩ := Element.mem_aligned halign hg
        rw [hvalue] at h₁ h₂
        exact (hall t ht).sound (h₁ ▸ hes.element he) (h₂ ▸ hfs.element hf)
      refine ⟨hoverlap, (hleft.member_iff hset hi hadmits).mpr fun t ht => (both t ht).1,
        (hright.member_iff hset hi hadmits).mpr fun t ht => (both t ht).2, k, items, hi, fun gs' hgs' => ?_⟩
      obtain rfl := Option.some.inj (halign.symm.trans hgs')
      exact hall
    · rintro ⟨-, hva, hvb, k, items, hi, hall⟩
      refine (hmember hi).mpr ⟨?_, hall gs halign⟩
      rcases hown with hown | hown
      · exact (Element.admits_of_roles hown).mpr ((member_tuple hi).mp hva).1
      · exact (Element.admits_of_roles hown).mpr ((member_tuple hi).mp hvb).1

/-- Different tuples meet in what they share. -/
theorem meetTuples_common {meet : Schema → Schema → Compose Schema} (hd : d.lazy) (hes : (tuple es).Orderly d)
    (hfs : (tuple fs).Orderly d) (hne : ¬ (tuple es).same (tuple fs) = true)
    (hmeet : ∀ e ∈ es, ∀ f ∈ fs, Composes env d e.value f.value (meet e.value f.value)) :
    Composes env d (.tuple es) (.tuple fs) (Element.meetTuples meet es fs) := by
  have hfe := hes.fits
  have hff := hfs.fits
  cases hlen : Element.disjointLengths es fs with
  | true =>
    unfold Element.meetTuples
    rw [if_pos hlen]
    refine .throw ⟨rfl, fun hoverlap => ?_⟩
    have := ((overlap_tuple hne).mp hoverlap).1
    simp [hlen] at this
  | false =>
    cases halign : Element.aligned? es fs with
    | some gs =>
      refine (meetTuples_aligned hlen halign hfe.root.2 hmeet).mono ?_ ?_
      · rintro _ ⟨cs, rfl, hcs⟩
        exact common_of_filled hfe hff hne hlen halign hcs
      · rintro e ⟨hunsat, g, hg, hopt, hno⟩
        exact ⟨hunsat, fun hoverlap => hno (((overlap_tuple hne).mp hoverlap).2 gs halign g hg hopt)⟩
    | none =>
      have happly : Element.meetTuples meet es fs = pure (.intersection [.tuple es, .tuple fs]) := by
        unfold Element.meetTuples
        unfold Element.aligned? at halign
        rw [if_neg (by simp [hlen])]
        cases hea : Element.array? es <;> cases hfa : Element.array? fs <;> simp [hea, hfa] at halign ⊢
        simp [halign]
      have hoverlap : Overlap env (.tuple es) (.tuple fs) := (overlap_tuple hne).mpr ⟨hlen, by simp [halign]⟩
      rw [happly]
      refine .pure ⟨hoverlap, .intro ⟨hd, by simp, by simp⟩ (by simp [parts, hes, hfs]), fun v _ => ?_⟩
      rw [shares_tuple hne, member_intersection]
      constructor
      · intro hmem
        obtain ⟨k, items, hi⟩ := items_of_member (hmem (.tuple es) (by simp))
        exact ⟨hoverlap, hmem _ (by simp), hmem _ (by simp), k, items, hi, by simp [halign]⟩
      · rintro ⟨-, hva, hvb, -⟩
        simp [hva, hvb]

end Schema
end Schemata
