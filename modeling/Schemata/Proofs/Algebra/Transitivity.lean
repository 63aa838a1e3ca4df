import Schemata.Proofs.Algebra.Order

/-! The order of provable containment is transitive. The proof goes by the size of all three schemas and
follows the forms in the order of the rules, down to schemas that are neither unions nor conjunctions. -/
namespace Schemata
namespace Schema

variable {d : Dialect}

/-- Every node belongs to the fragment and to the order. -/
abbrev Orderly (d : Dialect) (s : Schema) : Prop := s.Every fun t => t.Fits d ∧ t.Ordered

theorem Orderly.fits {s : Schema} (h : s.Orderly d) : s.Every (Fits d) := h.mono fun _ h => h.1

theorem Orderly.ordered {s : Schema} (h : s.Orderly d) : s.Every Ordered := h.mono fun _ h => h.2

/-- Equal schemas are inside each other. -/
theorem Orderly.below_of_same {a b : Schema} (ha : a.Orderly d) (hb : b.Orderly d) (h : a.same b = true) :
    Below a b := Schema.below_of_same ha.fits hb.fits ha.ordered h

/-- The order knows no references. -/
theorem Orderly.closed {s : Schema} (h : s.Orderly d) : s.Every (Fits d.closed) :=
  h.mono fun t ht => by
    cases t with
    | ref r => exact ht.2.elim
    | _ => exact ht.1

/-- Transitivity for all triples of schemas of at most a given total size. -/
def TransitiveBelow (d : Dialect) (n : Nat) : Prop :=
  ∀ a b c : Schema, a.Orderly d → b.Orderly d → c.Orderly d → a.size + b.size + c.size < n →
    Below a b → Below b c → Below a c

/-- Of the schemas of one form only literals are inside a literal. -/
theorem exists_of_below_literal {a : Schema} {v : Value} (ha : a.Orderly d) (has : a.Single)
    (h : Below a (.literal v)) : ∃ u, a = .literal u ∧ (u.Twin v ∨ u = v) := by
  cases has with
  | literal u => exact ⟨u, rfl, literal_below_literal_iff.mp h⟩
  | constrained s cs => exact absurd ((constrained_below_iff rfl rfl rfl).mp h) ha.root.2.not_below_literal
  | _ => cases h

/-- A literal is inside whatever takes in a literal like it. -/
theorem below_of_like {u v : Value} (huv : u.Twin v ∨ u = v) {c : Schema} (hc : c.Orderly d)
    (h : Below (.literal v) c) : Below (.literal u) c := by
  rcases huv with huv | rfl
  · induction c using induction_on_parts with
    | _ c ih =>
      cases h with
      | members _ h => exact .members rfl fun t ht => ih t ht (hc.part ht) (h t ht)
      | branch _ ht h => exact .branch rfl ht (ih _ ht (hc.part ht) h)
      | literalKeyword h => exact .literalKeyword ((huv.holds _).mpr h)
      | structureKeyword h => simp [isStructure] at h
      | literal h =>
        rcases h with h | rfl
        · exact .literal (Or.inl (huv.trans h))
        · exact .literal (Or.inl huv)
      | literalConstrained h hds =>
        exact .literalConstrained (ih _ (List.mem_singleton.mpr rfl) hc.base h) fun e he =>
          (huv.accepts (hc.root.1 e he)).mpr (hds e he)
  · exact h

/-- Answers carry over through an object in the middle. -/
theorem answers_trans {o p : ObjectShape Schema} {r : Property Schema}
    (hloose : o.undeclared ≠ .reject → p.undeclared ≠ .reject)
    (hfirst : ∀ s ∈ p.properties, o.Answers s) (h : p.Answers r) : o.Answers r := by
  unfold ObjectShape.Answers at h ⊢
  cases hmid : p.property? r.key with
  | none =>
    simp only [hmid] at h
    cases o.property? r.key with
    | none =>
      refine ⟨h.1, ?_⟩
      by_contra hne
      exact hloose hne h.2
    | some s =>
      intro hreq
      simp [h.1] at hreq
  | some s =>
    obtain ⟨hs, hk⟩ := ObjectShape.property?_mem hmid
    simp only [hmid] at h
    have hanswers := hfirst s hs
    unfold ObjectShape.Answers at hanswers
    rw [hk] at hanswers
    cases ho : o.property? r.key with
    | none =>
      simp only [ho] at hanswers
      refine ⟨?_, hanswers.2⟩
      cases hreq : r.presence.isRequired with
      | false => rfl
      | true => simp [h hreq] at hanswers
    | some t =>
      simp only [ho] at hanswers
      exact fun hreq => hanswers (h hreq)

/-- An element has a partner in an equal tuple. -/
theorem exists_partner_of_same {es fs : List (Element Schema)} (he : (tuple es).Orderly d) (hf : (tuple fs).Orderly d)
    (h : (tuple es).same (.tuple fs) = true) {e : Element Schema} (hmem : e ∈ es) :
    ∃ f ∈ fs, Below e.value f.value := by
  obtain ⟨f, hf', -, hsame⟩ := forall₂_exists_left (sameElements_iff.mp h) hmem
  exact ⟨f, hf', Orderly.below_of_same (he.element hmem) (hf.element hf') hsame⟩

theorem size_lt_of_element {es : List (Element Schema)} {e : Element Schema} (h : e ∈ es) :
    e.value.size < (tuple es).size := size_lt_of_part (List.mem_map_of_mem h)

/-- A list as long as the first of two has an element between each of their pairs. -/
theorem exists_zip_middle {α : Type} {as bs cs : List α} (hab : as.length = bs.length) {p : α × α}
    (hp : p ∈ as.zip cs) : ∃ b ∈ bs, (p.1, b) ∈ as.zip bs ∧ (b, p.2) ∈ bs.zip cs := by
  obtain ⟨i, hi, rfl⟩ := List.mem_iff_getElem.mp hp
  simp only [List.length_zip] at hi
  have hib : i < bs.length := by omega
  refine ⟨bs[i], List.getElem_mem hib, List.mem_iff_getElem.mpr ⟨i, by simp; omega, by simp⟩,
    List.mem_iff_getElem.mpr ⟨i, by simp; omega, by simp⟩⟩

section Steps

variable {n : Nat} (ih : TransitiveBelow d n)
include ih

theorem object_trans {o p q : ObjectShape Schema} (ho : (object o).Orderly d) (hp : (object p).Orderly d)
    (hq : (object q).Orderly d) (hn : (object o).size + (object p).size + (object q).size ≤ n)
    (h₁ : Below (.object o) (.object p)) (h₂ : Below (.object p) (.object q)) :
    Below (.object o) (.object q) := by
  have size_property : ∀ {o : ObjectShape Schema} {r : Property Schema}, r ∈ o.properties →
      r.value.size < (object o).size := fun hr =>
    size_lt_of_part (List.mem_append_left _ (List.mem_map_of_mem hr))
  cases h₁ with
  | object loose₁ answers₁ below₁ extra₁ =>
  cases h₂ with
  | object loose₂ answers₂ below₂ extra₂ =>
  refine .object (fun h => loose₂ (loose₁ h)) (fun r hr => answers_trans loose₁ answers₁ (answers₂ r hr))
    (fun r hr s hs => ?_) fun s hs hdecl => ?_
  · obtain ⟨hmem, hk⟩ := ObjectShape.property?_mem hs
    cases hmid : p.property? r.key with
    | none =>
      have hans := answers₂ r hr
      simp only [ObjectShape.Answers, hmid] at hans
      exact absurd hans.2 (extra₁ s hmem (by rw [hk]; exact ObjectShape.declares_eq_false.mpr hmid))
    | some t =>
      obtain ⟨ht, hkt⟩ := ObjectShape.property?_mem hmid
      have := size_property hmem
      have := size_property ht
      have := size_property hr
      exact ih _ _ _ (ho.property hmem) (hp.property ht) (hq.property hr) (by omega)
        (below₁ t ht s (by rw [hkt]; exact hs)) (below₂ r hr t hmid)
  · cases hmid : p.declares s.key with
    | false => exact loose₂ (extra₁ s hs hmid)
    | true =>
      obtain ⟨t, ht, hk⟩ := List.any_eq_true.mp hmid
      have hk : t.key = s.key := by simpa using hk
      exact extra₂ t ht (by rw [hk]; exact hdecl)

/-- A tuple whose elements have partners in a part of an array is part of the array too. -/
theorem array_trans {es fs : List (Element Schema)} {g : Element Schema} (he : (tuple es).Orderly d)
    (hf : (tuple fs).Orderly d) (hg : (tuple [g]).Orderly d)
    (hn : (tuple es).size + (tuple fs).size + (tuple [g]).size ≤ n) (hvariadic : g.role.isVariadic = true)
    (hfg : ∀ f ∈ fs, Below f.value g.value) (hef : ∀ e ∈ es, ∃ f ∈ fs, Below e.value f.value) :
    Below (.tuple es) (.tuple [g]) := by
  refine .array hvariadic fun e hmem => ?_
  obtain ⟨f, hf', hbelow⟩ := hef e hmem
  have hg' : g ∈ [g] := List.mem_singleton.mpr rfl
  have := size_lt_of_element hmem
  have := size_lt_of_element hf'
  have := size_lt_of_element hg'
  exact ih _ _ _ (he.element hmem) (hf.element hf') (hg.element hg') (by omega) hbelow (hfg f hf')

theorem tuple_trans {es fs gs : List (Element Schema)} (he : (tuple es).Orderly d) (hf : (tuple fs).Orderly d)
    (hg : (tuple gs).Orderly d) (hn : (tuple es).size + (tuple fs).size + (tuple gs).size ≤ n)
    (h₁ : Below (.tuple es) (.tuple fs)) (h₂ : Below (.tuple fs) (.tuple gs)) :
    Below (.tuple es) (.tuple gs) := by
  cases h₂ with
  | @array _ g hvar hfg =>
    refine array_trans ih he hf hg hn hvar hfg fun e hmem => ?_
    cases h₁ with
    | @array _ f hvar' hef => exact ⟨f, by simp, hef e hmem⟩
    | equal _ hsame => exact exists_partner_of_same he hf hsame hmem
    | tuple _ _ len₁ _ below₁ =>
      obtain ⟨i, hi, rfl⟩ := List.mem_iff_getElem.mp hmem
      have hzip : (es[i], fs[i]) ∈ es.zip fs := List.mem_iff_getElem.mpr ⟨i, by simp; omega, by simp⟩
      exact ⟨fs[i], List.getElem_mem (by omega), below₁ _ hzip⟩
  | equal hvariadic hsame =>
    cases h₁ with
    | @array _ f hvar hef =>
      obtain ⟨g, gs', hrole, hrest, rfl⟩ := List.forall₂_cons_left_iff.mp (sameElements_iff.mp hsame)
      obtain rfl := List.forall₂_nil_left_iff.mp hrest
      refine array_trans ih he hf hg hn ?_ (fun f' hf' => ?_) fun e hmem => ⟨f, by simp, hef e hmem⟩
      · simpa [Role.isVariadic, Role.rank_of_same hrole.1] using hvar
      · obtain rfl := List.mem_singleton.mp hf'
        exact Orderly.below_of_same (hf.element hf') (hg.element (List.mem_singleton.mpr rfl)) hrole.2
    | equal hvariadic' hsame' => exact .equal hvariadic' (same_trans he.fits hf.fits hg.fits hsame' hsame)
    | tuple _ hnone _ _ _ => exact absurd hnone hvariadic
  | tuple hnone₁ hnone₂ len₂ lead₂ below₂ =>
  cases h₁ with
  | array hvar _ => simp [Element.variadic?, hvar] at hnone₁
  | equal hvariadic hsame => exact absurd ((variadic?_of_same hsame).mpr hnone₁) hvariadic
  | tuple hnone _ len₁ lead₁ below₁ =>
  refine .tuple hnone hnone₂ (len₁.trans len₂) (fun p hp hlead => ?_) fun p hp => ?_
  · obtain ⟨f, -, h₁, h₂⟩ := exists_zip_middle len₁ hp
    exact lead₁ (p.1, f) h₁ (lead₂ (f, p.2) h₂ hlead)
  · obtain ⟨f, hmem, h₁, h₂⟩ := exists_zip_middle len₁ hp
    obtain ⟨hp₁, hp₂⟩ := List.of_mem_zip hp
    have := size_lt_of_element hp₁
    have := size_lt_of_element hmem
    have := size_lt_of_element hp₂
    exact ih _ _ _ (he.element hp₁) (hf.element hmem) (hg.element hp₂) (by omega) (below₁ _ h₁) (below₂ _ h₂)

/-- The step through a keyword. -/
theorem keyword_trans {a c : Schema} {k : Keyword} (ha : a.Orderly d) (hc : c.Orderly d) (has : a.Single)
    (hcs : c.Single) (hn : a.size + (keyword k).size + c.size ≤ n) (h₁ : Below a (.keyword k))
    (h₂ : Below (.keyword k) c) : Below a c := by
  obtain ⟨l, rfl⟩ : ∃ l, c = .keyword l := by
    cases hcs with
    | keyword l => exact ⟨l, rfl⟩
    | _ => cases h₂
  rcases keyword_below_keyword_iff.mp h₂ with rfl | ⟨hne, hsub⟩
  · exact h₁
  have hmono := DomainSet.subset_iff.mp hsub
  cases has with
  | keyword j =>
    rcases keyword_below_keyword_iff.mp h₁ with rfl | ⟨-, hsub'⟩
    · exact h₂
    · have hmono' := DomainSet.subset_iff.mp hsub'
      exact .keyword (Or.inr ⟨hne, DomainSet.subset_iff.mpr fun e he => hmono e (hmono' e he)⟩)
  | literal v =>
    have hdomain := hmono _ (Keyword.domains_of_holds (literal_below_keyword_iff.mp h₁))
    apply Below.literalKeyword
    cases l with
    | integer => exact absurd rfl hne
    | _ => exact hdomain
  | constrained s cs =>
    rw [constrained_below_iff rfl rfl rfl] at h₁ ⊢
    apply ih s (.keyword k) (.keyword l) ha.base (.intro ⟨trivial, trivial⟩ nofun) hc _ h₁ h₂
    simp only [size] at hn ⊢
    omega
  | object o =>
    rw [structure_below_keyword_iff rfl] at h₁ ⊢
    exact hmono _ h₁
  | tuple es =>
    rw [structure_below_keyword_iff rfl] at h₁ ⊢
    exact hmono _ h₁

/-- The step through an object or a tuple. -/
theorem structure_trans {a b c : Schema} (ha : a.Orderly d) (hb : b.Orderly d) (hc : c.Orderly d) (has : a.Single)
    (hcs : c.Single) (hb' : b.isStructure = true) (hn : a.size + b.size + c.size ≤ n) (h₁ : Below a b)
    (h₂ : Below b c) : Below a c := by
  have hbc : b.isConstrained = false := by
    cases b <;> first | rfl | simp [isStructure] at hb'
  -- Only keywords, objects and tuples take in objects and tuples.
  have hcc : c.isUnion = false ∧ c.isIntersection = false ∧ c.isConstrained = false := by
    cases hcs with
    | constrained t ds => cases h₂ <;> simp [isConstrained, isStructure] at hbc hb'
    | _ => exact ⟨rfl, rfl, rfl⟩
  cases has with
  | keyword k => cases h₁ <;> simp [isStructure] at hb'
  | literal v => cases h₁ <;> simp [isStructure] at hb'
  | constrained s cs =>
    have hbu : b.isUnion = false ∧ b.isIntersection = false := by
      cases b <;> first | exact ⟨rfl, rfl⟩ | simp [isStructure] at hb'
    rw [constrained_below_iff hbu.1 hbu.2 hbc] at h₁
    rw [constrained_below_iff hcc.1 hcc.2.1 hcc.2.2]
    apply ih s b c ha.base hb hc _ h₁ h₂
    simp only [size] at hn
    omega
  | object o =>
    obtain ⟨p, rfl⟩ : ∃ p, b = .object p := by
      cases h₁ <;> first | exact ⟨_, rfl⟩ | simp [isStructure] at hb'
    cases hcs with
    | keyword l =>
      rw [structure_below_keyword_iff rfl] at h₂ ⊢
      exact h₂
    | object q => exact object_trans ih ha hb hc hn h₁ h₂
    | _ => cases h₂
  | tuple es =>
    obtain ⟨fs, rfl⟩ : ∃ fs, b = .tuple fs := by
      cases h₁ <;> first | exact ⟨_, rfl⟩ | simp [isStructure] at hb'
    cases hcs with
    | keyword l =>
      rw [structure_below_keyword_iff rfl] at h₂ ⊢
      exact h₂
    | tuple gs => exact tuple_trans ih ha hb hc hn h₁ h₂
    | _ => cases h₂

/-- The step through a schema with constraints. -/
theorem constrained_trans {a t c : Schema} {ds : List Constraint} (ha : a.Orderly d)
    (hb : (constrained t ds).Orderly d) (hc : c.Orderly d) (has : a.Single) (hcu : c.isUnion = false)
    (hci : c.isIntersection = false) (hn : a.size + (constrained t ds).size + c.size ≤ n)
    (h₁ : Below a (.constrained t ds)) (h₂ : Below (.constrained t ds) c) : Below a c := by
  simp only [size] at hn
  cases hcc : c.isConstrained with
  | false =>
    rw [constrained_below_iff hcu hci hcc] at h₂
    cases has with
    | literal v => exact ih _ t c ha hb.base hc (by omega) (literal_below_constrained_iff.mp h₁).1 h₂
    | constrained s cs =>
      simp only [size] at hn
      exact .base hcu hci hcc
        (ih s t c ha.base hb.base hc (by omega) (constrained_below_constrained_iff.mp h₁).1 h₂)
    | _ => cases h₁
  | true =>
    cases c <;> simp only [isConstrained, Bool.false_eq_true] at hcc
    rename_i r es
    simp only [size] at hn
    obtain ⟨htr, hes⟩ := constrained_below_constrained_iff.mp h₂
    cases has with
    | literal v =>
      obtain ⟨ht, hds⟩ := literal_below_constrained_iff.mp h₁
      refine .literalConstrained (ih _ t r ha hb.base hc.base (by omega) ht htr) fun e he => ?_
      obtain ⟨f, hf, hwithin⟩ := hes e he
      exact hwithin.accepts (hb.root.1 f hf) (hc.root.1 e he) (hds f hf)
    | constrained s cs =>
      simp only [size] at hn
      obtain ⟨hst, hds⟩ := constrained_below_constrained_iff.mp h₁
      refine .constrained (ih s t r ha.base hb.base hc.base (by omega) hst htr) fun e he => ?_
      obtain ⟨f, hf, hwithin⟩ := hes e he
      obtain ⟨g, hg, hwithin'⟩ := hds f hf
      exact ⟨g, hg, hwithin'.trans (ha.root.1 g hg) (hb.root.1 f hf) (hc.root.1 e he) hwithin⟩
    | _ => cases h₁

/-- The step for schemas that are neither unions nor conjunctions. -/
theorem single_trans {a b c : Schema} (ha : a.Orderly d) (hb : b.Orderly d) (hc : c.Orderly d) (has : a.Single)
    (hbs : b.Single) (hcs : c.Single) (hn : a.size + b.size + c.size ≤ n) (h₁ : Below a b) (h₂ : Below b c) :
    Below a c := by
  cases hbs with
  | keyword k => exact keyword_trans ih ha hc has hcs hn h₁ h₂
  | literal v =>
    obtain ⟨u, rfl, huv⟩ := exists_of_below_literal ha has h₁
    exact below_of_like huv hc h₂
  | constrained t ds =>
    have hcu : c.isUnion = false ∧ c.isIntersection = false := by cases hcs <;> exact ⟨rfl, rfl⟩
    exact constrained_trans ih ha hb hc has hcu.1 hcu.2 hn h₁ h₂
  | object o => exact structure_trans ih ha hb hc has hcs rfl hn h₁ h₂
  | tuple es => exact structure_trans ih ha hb hc has hcs rfl hn h₁ h₂

end Steps

theorem transitiveBelow (n : Nat) : TransitiveBelow d n := by
  induction n with
  | zero =>
    intro a b c _ _ _ hn
    omega
  | succ n ih =>
    intro a b c ha hb hc hn h₁ h₂
    have part_lt : ∀ {s t : Schema}, t ∈ s.parts → t.size < s.size := size_lt_of_part
    cases hau : a.isUnion with
    | true =>
      cases a <;> simp [isUnion] at hau
      refine .branches fun s hs => ?_
      have := part_lt (s := .union _) hs
      exact ih s b c (ha.branch hs) hb hc (by omega) (below_of_union h₁ s hs) h₂
    | false =>
    cases hci : c.isIntersection with
    | true =>
      cases c <;> simp [isIntersection] at hci
      refine Below.intersection_right fun t ht => ?_
      have := part_lt (s := .intersection _) ht
      exact ih a b t ha hb (hc.member ht) (by omega) h₁ (forall_of_below_intersection h₂ t ht)
    | false =>
    cases hbu : b.isUnion with
    | true =>
      cases b <;> simp [isUnion] at hbu
      obtain ⟨t, ht, h⟩ := exists_of_below_union hau h₁
      have := part_lt (s := .union _) ht
      exact ih a t c ha (hb.branch ht) hc (by omega) h (below_of_union h₂ t ht)
    | false =>
    cases hcu : c.isUnion with
    | true =>
      cases c <;> simp [isUnion] at hcu
      obtain ⟨t, ht, h⟩ := exists_of_below_union hbu h₂
      have := part_lt (s := .union _) ht
      exact Below.union_right ht (ih a b t ha hb (hc.branch ht) (by omega) h₁ h)
    | false =>
    cases hbi : b.isIntersection with
    | true =>
      cases b <;> simp [isIntersection] at hbi
      obtain ⟨s, hs, h⟩ := (intersection_below_iff hcu hci).mp h₂
      have := part_lt (s := .intersection _) hs
      exact ih a s c ha (hb.member hs) hc (by omega) (forall_of_below_intersection h₁ s hs) h
    | false =>
    cases hai : a.isIntersection with
    | true =>
      cases a <;> simp [isIntersection] at hai
      obtain ⟨s, hs, h⟩ := (intersection_below_iff hbu hbi).mp h₁
      have := part_lt (s := .intersection _) hs
      exact .member hcu hci hs (ih s b c (ha.member hs) hb hc (by omega) h h₂)
    | false =>
      exact single_trans ih ha hb hc (ha.root.2.single hau hai) (hb.root.2.single hbu hbi)
        (hc.root.2.single hcu hci) (by omega) h₁ h₂

/-- Provable containment is transitive. -/
theorem Below.trans {a b c : Schema} (ha : a.Orderly d) (hb : b.Orderly d) (hc : c.Orderly d)
    (h₁ : Below a b) (h₂ : Below b c) : Below a c :=
  transitiveBelow _ a b c ha hb hc (Nat.lt_succ_self _) h₁ h₂

end Schema
end Schemata
