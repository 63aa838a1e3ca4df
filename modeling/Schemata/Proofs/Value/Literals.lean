import Schemata.Proofs.Value.Reordering

/-! Equality of literals. Containers are compared by the equality of what stands in them, in which truth values, integers
and other numbers mix and entries are matched whatever their order. On values whose mappings have keys of their own that
equality is an equivalence, and the equality of literals, which keeps classes of values apart, is one but for NaN. -/
namespace Schemata

/-- If each element of one list has a partner in another list that is no longer, and no two share one, then all of the
other list are partners. -/
theorem exists_partner {α β : Type} {R : α → β → Prop} {xs : List α} {ys : List β} (h : ∀ x ∈ xs, ∃ y ∈ ys, R x y)
    (hapart : xs.Pairwise fun x x' => ∀ y ∈ ys, R x y → ¬ R x' y) (hlength : ys.length ≤ xs.length) :
    ∀ y ∈ ys, ∃ x ∈ xs, R x y := by
  induction xs generalizing ys with
  | nil =>
    obtain rfl : ys = [] := List.eq_nil_of_length_eq_zero (Nat.le_zero.mp hlength)
    simp
  | cons x xs ih =>
    obtain ⟨hfirst, hrest⟩ := List.pairwise_cons.mp hapart
    obtain ⟨y, hy, hxy⟩ := h x List.mem_cons_self
    obtain ⟨front, back, rfl⟩ := List.append_of_mem hy
    have hother : ∀ x' ∈ xs, ∃ z ∈ front ++ back, R x' z := by
      intro x' hx'
      obtain ⟨z, hz, hxz⟩ := h x' (List.mem_cons_of_mem _ hx')
      rcases (List.perm_middle.mem_iff.trans List.mem_cons).mp hz with rfl | hz
      · exact absurd hxz (hfirst x' hx' z hy hxy)
      · exact ⟨z, hz, hxz⟩
    have hsublist : front ++ back ⊆ front ++ y :: back := fun z hz =>
      List.perm_middle.mem_iff.mpr (List.mem_cons_of_mem _ hz)
    have hshorter : (front ++ back).length ≤ xs.length := by
      simp only [List.length_append, List.length_cons] at hlength ⊢
      omega
    have hall := ih hother (hrest.imp fun hR z hz => hR z (hsublist hz)) hshorter
    intro z hz
    rcases (List.perm_middle.mem_iff.trans List.mem_cons).mp hz with rfl | hz
    · exact ⟨x, List.mem_cons_self, hxy⟩
    · obtain ⟨x', hx', hxz⟩ := hall z hz
      exact ⟨x', List.mem_cons_of_mem _ hx', hxz⟩

namespace Value

variable {a b c k : Value} {ds es fs : List (Value × Value)}

/-- Two entries with equal keys and equal items. -/
def Matches (d e : Value × Value) : Prop := d.1.same e.1 = true ∧ d.2.same e.2 = true

theorem exists_match_of_within (h : within es fs = true) : ∀ d ∈ es, ∃ e ∈ fs, Matches d e := by
  induction es with
  | nil => simp
  | cons d es ih =>
    obtain ⟨key, item⟩ := d
    rw [within, Bool.and_eq_true] at h
    rw [List.forall_mem_cons]
    constructor
    · obtain ⟨h, -⟩ := h
      split at h
      · rename_i e he
        have hkey := List.find?_some he
        exact ⟨e, List.mem_of_find?_eq_some he, hkey, h⟩
      · exact absurd h Bool.false_ne_true
    · exact ih h.2

theorem within_of_matches (hfs : (mapping fs).Keyed) (h : ∀ d ∈ es, ∃ e ∈ fs, Matches d e) : within es fs = true := by
  induction es with
  | nil => rfl
  | cons d es ih =>
    obtain ⟨key, item⟩ := d
    obtain ⟨⟨e, he, hkey, hitem⟩, hrest⟩ := List.forall_mem_cons.mp h
    rw [within, find?_eq_of_mem (p := fun y => key.same y.1) he hkey (hfs.one key), Bool.and_eq_true]
    exact ⟨hitem, ih hrest⟩

/-- Mappings are equal when they are of one size and each entry of one has an equal entry in the other. -/
theorem same_mapping_iff (hfs : (mapping fs).Keyed) : (mapping es).same (mapping fs) = true ↔
    es.length = fs.length ∧ ∀ d ∈ es, ∃ e ∈ fs, Matches d e := by
  simp only [same, unfold, Bool.and_eq_true, beq_iff_eq]
  exact and_congr_right fun _ => ⟨exists_match_of_within, within_of_matches hfs⟩

/-- Equal mappings have equal entries both ways. -/
theorem exists_match (hes : (mapping es).Keyed) (hfs : (mapping fs).Keyed)
    (h : (mapping es).same (mapping fs) = true) : ∀ e ∈ fs, ∃ d ∈ es, Matches d e := by
  obtain ⟨hlength, hmatch⟩ := (same_mapping_iff hfs).mp h
  apply exists_partner hmatch _ hlength.ge
  apply hes.2.imp_of_mem
  intro d d' hd hd' hne e he hde hde'
  have hsymm := same_symm_of_hashable (hes.1 d' hd') (hfs.1 e he) hde'.1
  exact hne (same_trans_of_hashable (hes.1 d hd) (hfs.1 e he) (hes.1 d' hd') hde.1 hsymm)

theorem mapping_euclidean (hds : (mapping ds).Keyed) (hes : (mapping es).Keyed) (hfs : (mapping fs).Keyed)
    (hitems : ∀ d ∈ ds, ∀ e ∈ es, ∀ f ∈ fs, d.2.same e.2 = true → d.2.same f.2 = true → e.2.same f.2 = true)
    (he : (mapping ds).same (mapping es) = true) (hf : (mapping ds).same (mapping fs) = true) :
    (mapping es).same (mapping fs) = true := by
  rw [same_mapping_iff hfs]
  obtain ⟨hlength, hmatch⟩ := (same_mapping_iff hfs).mp hf
  constructor
  · rw [← hlength, ((same_mapping_iff hes).mp he).1]
  · intro e hmem
    obtain ⟨d, hd, hde⟩ := exists_match hds hes he e hmem
    obtain ⟨f, hmem', hdf⟩ := hmatch d hd
    exact ⟨f, hmem', same_euclidean (hes.1 e hmem) (hfs.1 f hmem') hde.1 hdf.1,
      hitems d hd e hmem f hmem' hde.2 hdf.2⟩

theorem Every.unfold_eq (h : a.Every Grounded) : a.unfold = a := unfold_of_label h.root.label?

/-- Two values equal each other when one and the same value equals both. -/
theorem same_euclidean_of_grounded (hk : k.Every Grounded) (ha : a.Every Grounded) (hb : b.Every Grounded)
    (h : k.same a = true) (h' : k.same b = true) : a.same b = true := by
  induction k using induction_on_parts generalizing a b with
  | _ k ih =>
    have ih : ∀ x ∈ k.parts, ∀ y ∈ a.parts, ∀ z ∈ b.parts, x.same y = true → x.same z = true → y.same z = true :=
      fun x hx y hy z hz => ih x hx (hk.part hx) (ha.part hy) (hb.part hz)
    cases k with
    | list xs =>
      rw [same, ha.unfold_eq] at h
      rw [same, hb.unfold_eq] at h'
      cases a <;> simp only [Bool.false_eq_true] at h
      cases b <;> simp only [Bool.false_eq_true] at h'
      exact sameAll_euclidean ih h h'
    | tuple l xs =>
      rw [same, ha.unfold_eq] at h
      rw [same, hb.unfold_eq] at h'
      cases a <;> simp only [Bool.false_eq_true] at h
      cases b <;> simp only [Bool.false_eq_true] at h'
      exact sameAll_euclidean ih h h'
    | mapping ds =>
      have hform : ∀ {v : Value}, v.Every Grounded → (mapping ds).same v = true → ∃ es, v = mapping es := by
        intro v hv hsame
        rw [same, hv.unfold_eq] at hsame
        cases v <;> simp only [Bool.false_eq_true] at hsame
        exact ⟨_, rfl⟩
      obtain ⟨es, rfl⟩ := hform ha h
      obtain ⟨fs, rfl⟩ := hform hb h'
      have items : ∀ {ds : List (Value × Value)}, ∀ d ∈ ds, d.2 ∈ (mapping ds).parts := fun d hd =>
        List.mem_flatMap.mpr ⟨d, hd, by simp⟩
      exact mapping_euclidean hk.root.keyed ha.root.keyed hb.root.keyed
        (fun d hd e he f hf => ih _ (items d hd) _ (items e he) _ (items f hf)) h h'
    | record kind token xs =>
      obtain ⟨_, _, _, _, _, _, rfl, rfl, hsame⟩ := records_of_same h h'
      exact hsame fun _ _ => sameAll_euclidean ih
    | knot l body => exact absurd hk.root.label? (Option.some_ne_none _)
    | back l c => exact absurd rfl (hk.root.closed l c)
    | _ => exact same_euclidean_of_scalar rfl h h'

theorem same_symm (ha : a.Every Grounded) (hb : b.Every Grounded) (h : a.same b = true) : b.same a = true :=
  same_euclidean_of_grounded ha hb ha h (same_self_of_grounded ha)

theorem same_trans (ha : a.Every Grounded) (hb : b.Every Grounded) (hc : c.Every Grounded) (h : a.same b = true)
    (h' : b.same c = true) : a.same c = true :=
  same_euclidean_of_grounded hb ha hc (same_symm ha hb h) h'

theorem Grounded.tied (h : a.Grounded) : a.Tied := by
  cases a with
  | knot l body => exact absurd h.label? (Option.some_ne_none _)
  | _ => trivial

/-- Across domains only truth values equal anything. -/
theorem domain_eq_of_same (ha : a.Every Grounded) (hb : b.Every Grounded) (hab : a.domain ≠ .boolean)
    (hbb : b.domain ≠ .boolean) (h : a.same b = true) : a.domain = b.domain := by
  cases a with
  | list xs =>
    rw [same, hb.unfold_eq] at h
    cases b <;> simp only [Bool.false_eq_true] at h
    rfl
  | tuple l xs =>
    rw [same, hb.unfold_eq] at h
    cases b <;> simp only [Bool.false_eq_true] at h
    rfl
  | mapping es =>
    rw [same, hb.unfold_eq] at h
    cases b <;> simp only [Bool.false_eq_true] at h
    rfl
  | record kind token xs =>
    obtain ⟨other, u, ys, rfl, -⟩ := record_of_same h
    rfl
  | knot l body => exact absurd ha.root.label? (Option.some_ne_none _)
  | back l c => exact absurd rfl (ha.root.closed l c)
  | _ => exact domain_of_same rfl hab hbb h

theorem equal_iff : a.equal b = true ↔ a.isNaN = false ∧ a.same b = true := by
  rw [equal, Bool.and_eq_true, Bool.not_eq_true']

theorem equal_symm (ha : a.Every Grounded) (hb : b.Every Grounded) (h : a.equal b = true) : b.equal a = true := by
  have hsame := same_symm ha hb (equal_iff.mp h).2
  rw [equal_iff, ← Bool.not_eq_true]
  refine ⟨fun hnan => ?_, hsame⟩
  -- What equals a NaN counts as a number, and no number equals a NaN.
  cases b with
  | number m =>
    obtain ⟨n, hn, -⟩ := asNumber?_of_numberSame hsame
    rw [not_equal_of_nan hn rfl (Or.inr (Number.isNaN_iff.mp hnan))] at h
    exact absurd h Bool.false_ne_true
  | _ => exact absurd hnan Bool.false_ne_true

theorem equal_trans (ha : a.Every Grounded) (hb : b.Every Grounded) (hc : c.Every Grounded) (h : a.equal b = true)
    (h' : b.equal c = true) : a.equal c = true := by
  rw [equal_iff] at h h' ⊢
  exact ⟨h.1, same_trans ha hb hc h.2 h'.2⟩

theorem equal_number (x y : Number) : (number x).equal (number y) = x.equal y := by
  show (!x.isNaN && (x.equal y || (x.isNaN && x == y))) = x.equal y
  cases hnan : x.isNaN with
  | false => simp
  | true =>
    have hno : ¬ x.equal y = true := by
      rw [Number.equal_iff, Number.isNaN_iff.mp hnan]
      simp
    simp [hno]

theorem Grounded.number_of_domain (h : a.Grounded) (hdomain : a.domain = .number) : ∃ n, a = number n := by
  cases a with
  | number n => exact ⟨n, rfl⟩
  | knot l body => exact absurd h.label? (Option.some_ne_none _)
  | back l c => exact absurd rfl (h.closed l c)
  | _ => exact absurd hdomain nofun

/-- Equal literals are equal values of one domain, and of one class unless they are numbers. -/
theorem literalEqual_iff (ha : a.Every Grounded) (hb : b.Every Grounded) : a.literalEqual b = true ↔
    a.equal b = true ∧ a.domain = b.domain ∧ (a.domain = .number ∨ a.typeName = b.typeName) := by
  have notBool : ∀ {v : Value}, v.Every Grounded → (∀ x, v = bool x → False) → v.domain ≠ .boolean := by
    intro v hv hno h
    obtain ⟨x, rfl⟩ := bool_of_domain hv.root.tied h
    exact hno x rfl
  unfold literalEqual
  split
  · rename_i x y
    cases x <;> cases y <;> decide
  · rename_i x hno
    apply iff_of_false Bool.false_ne_true
    rintro ⟨-, hdomain, -⟩
    exact notBool hb hno hdomain.symm
  · rename_i y hno
    apply iff_of_false Bool.false_ne_true
    rintro ⟨-, hdomain, -⟩
    exact notBool ha hno hdomain
  · rename_i x y
    rw [equal_number]
    exact ⟨fun h => ⟨h, rfl, Or.inl rfl⟩, fun h => h.1⟩
  · rename_i hleft hright _ hnumbers
    rw [Bool.and_eq_true, beq_iff_eq]
    constructor
    · rintro ⟨hclass, hequal⟩
      have hsame := (equal_iff.mp hequal).2
      exact ⟨hequal, domain_eq_of_same ha hb (notBool ha hleft) (notBool hb hright) hsame, Or.inr hclass⟩
    · rintro ⟨hequal, hdomain, hnumber | hclass⟩
      · obtain ⟨x, rfl⟩ := ha.root.number_of_domain hnumber
        obtain ⟨y, rfl⟩ := hb.root.number_of_domain hdomain.symm
        exact absurd rfl (hnumbers x y rfl)
      · exact ⟨hclass, hequal⟩

/-- Equality of literals is symmetric and transitive, and relates values of one domain only. But for NaN it is an
equivalence. -/
theorem literalEqual_equivalence (ha : a.Every Grounded) (hb : b.Every Grounded) (hc : c.Every Grounded) :
    (a.literalEqual b = true → b.literalEqual a = true ∧ a.domain = b.domain) ∧
      (a.literalEqual b = true → b.literalEqual c = true → a.literalEqual c = true) ∧
      (a.literalEqual a = true ↔ a.isNaN = false) := by
  rw [literalEqual_iff ha hb, literalEqual_iff hb ha, literalEqual_iff hb hc, literalEqual_iff ha hc,
    literalEqual_iff ha ha]
  refine ⟨?_, ?_, ?_⟩
  · rintro ⟨hequal, hdomain, hclass⟩
    have hclass' : b.domain = .number ∨ b.typeName = a.typeName := hclass.imp (hdomain ▸ ·) Eq.symm
    exact ⟨⟨equal_symm ha hb hequal, hdomain.symm, hclass'⟩, hdomain⟩
  · rintro ⟨hequal, hdomain, hclass⟩ ⟨hequal', hdomain', hclass'⟩
    refine ⟨equal_trans ha hb hc hequal hequal', hdomain.trans hdomain', ?_⟩
    rcases hclass with hnumber | hclass
    · exact Or.inl hnumber
    · exact hclass'.imp hdomain.trans hclass.trans
  · rw [equal_iff]
    simp [same_self_of_grounded ha]

theorem grounded_of_scalar (h : a.isScalar = true) : a.Every Grounded := by
  cases a <;> first
    | exact absurd h Bool.false_ne_true
    | exact .intro ⟨trivial, rfl, by simp⟩ (List.forall_mem_nil _)

/-- A record of a mark and two readings, one of them missing, whose entries are listed in two orders and whose number one
is written in three ways. -/
theorem literalEqual_equivalence_readings :
    let mark : Value := .symbol ⟨⟨1, 0⟩, "mark"⟩
    let readings (one : Value) : Value := .list [.number (.double (.nan 0)), one]
    let a : Value := .mapping [(.int 1, readings (.bool true)), (.string "mark", mark)]
    let b : Value := .mapping [(.string "mark", mark), (.number (.double (.finite false unitsPerOne)), readings (.int 1))]
    let c : Value := .mapping [(.bool true, readings (.number (.double (.finite false unitsPerOne)))),
      (.string "mark", mark)]
    a.Every Grounded ∧ b.Every Grounded ∧ c.Every Grounded ∧ a.literalEqual b = true ∧ b.literalEqual c = true ∧
      b.literalEqual a = true ∧ a.domain = b.domain ∧ a.literalEqual c = true ∧ a.literalEqual a = true := by
  intro mark readings a b c
  have hreadings : ∀ {one : Value}, one.isScalar = true → (readings one).Every Grounded := fun h =>
    .intro ⟨trivial, rfl, by simp [readings]⟩ (List.forall_mem_cons.mpr
      ⟨grounded_of_scalar rfl, List.forall_mem_singleton.mpr (grounded_of_scalar h)⟩)
  have hmapping : ∀ {k l v w : Value}, (mapping [(k, v), (l, w)]).Keyed → k.isScalar = true → l.isScalar = true →
      v.Every Grounded → w.Every Grounded → (mapping [(k, v), (l, w)]).Every Grounded := fun hkeyed hk hl hv hw =>
    .intro ⟨hkeyed, rfl, by simp⟩ (List.forall_mem_cons.mpr ⟨grounded_of_scalar hk, List.forall_mem_cons.mpr
      ⟨hv, List.forall_mem_cons.mpr ⟨grounded_of_scalar hl, List.forall_mem_singleton.mpr hw⟩⟩⟩)
  have ha : a.Every Grounded := hmapping ⟨by decide, by decide⟩ rfl rfl (hreadings rfl) (grounded_of_scalar rfl)
  have hb : b.Every Grounded := hmapping ⟨by decide, by decide⟩ rfl rfl (grounded_of_scalar rfl) (hreadings rfl)
  have hc : c.Every Grounded := hmapping ⟨by decide, by decide⟩ rfl rfl (hreadings rfl) (grounded_of_scalar rfl)
  have hab : a.literalEqual b = true := by decide +kernel
  have hbc : b.literalEqual c = true := by decide +kernel
  obtain ⟨hsymm, htrans, hself⟩ := literalEqual_equivalence ha hb hc
  exact ⟨ha, hb, hc, hab, hbc, (hsymm hab).1, (hsymm hab).2, htrans hab hbc, hself.mpr rfl⟩

end Value
end Schemata
