import Schemata.Proofs.Algebra.Intersection
import Schemata.Proofs.Constraint.Clashes

/-! What two schemas share, without regard to which of them comes first. Two schemas overlap when nothing shows that
their intersection is empty, and they share the values that their intersection has. Both relations have their rules
in pairs, one for each side, so both are symmetric. They describe the intersection where it is not exact too: two
arrays whose elements do not overlap do not overlap themselves, although both hold the empty sequence. -/
namespace Schemata

theorem Role.eq_of_rank {r s : Role} (hr : r.default? = none) (hs : s.default? = none) (h : r.rank = s.rank) :
    r = s := by
  cases r <;> cases s <;> simp [default?, rank] at hr hs h ⊢

namespace Element

/-- The places in which two tuples meet, with what each of them asks there. Tuples of different kinds meet in no
places, unless one is an array. -/
def aligned? (es fs : List (Element Schema)) : Option (List (Element (Schema × Schema))) :=
  match array? es, array? fs with
  | some e, some f => some [⟨.variadic, e.value, f.value⟩]
  | some e, none => some (fs.map fun f => ⟨f.role, e.value, f.value⟩)
  | none, some f => some (es.map fun e => ⟨e.role, e.value, f.value⟩)
  | none, none => if sameKinds es fs then some (Schema.paired es fs) else none

/-- A place seen from the other side. -/
def swapped (g : Element (Schema × Schema)) : Element (Schema × Schema) := ⟨g.role, g.value.swap⟩

variable {es fs : List (Element Schema)}

theorem paired_comm (hes : ∀ e ∈ es, e.role.default? = none) (hfs : ∀ f ∈ fs, f.role.default? = none)
    (h : es.map (·.role.rank) = fs.map (·.role.rank)) :
    Schema.paired fs es = (Schema.paired es fs).map swapped := by
  induction es generalizing fs with
  | nil => cases fs <;> simp [Schema.paired] at h ⊢
  | cons e es ih =>
    cases fs with
    | nil => simp at h
    | cons f fs =>
      simp only [List.map_cons, List.cons.injEq] at h
      have hrole : f.role = e.role := Role.eq_of_rank (hfs f (by simp)) (hes e (by simp)) h.1.symm
      have ih := ih (fun e he => hes e (by simp [he])) (fun f hf => hfs f (by simp [hf])) h.2
      simp only [Schema.paired, List.zipWith_cons_cons, List.map_cons, List.cons.injEq] at ih ⊢
      exact ⟨by simp [swapped, hrole], ih⟩

theorem aligned?_comm (hes : ∀ e ∈ es, e.role.default? = none) (hfs : ∀ f ∈ fs, f.role.default? = none) :
    aligned? fs es = (aligned? es fs).map (List.map swapped) := by
  unfold aligned?
  cases array? es with
  | some e => cases array? fs <;> simp [swapped, Function.comp_def]
  | none =>
    cases array? fs with
    | some f => simp [swapped, Function.comp_def]
    | none =>
      have hcomm : sameKinds fs es = sameKinds es fs := by simp only [sameKinds, eq_comm, Bool.beq_eq_decide_eq]
      dsimp only
      rw [hcomm]
      split_ifs with hkinds
      · rw [paired_comm hes hfs (by simpa [sameKinds] using hkinds)]
        rfl
      · rfl

theorem mem_paired {g : Element (Schema × Schema)} (hg : g ∈ Schema.paired es fs) :
    (∃ e ∈ es, e.value = g.value.1) ∧ ∃ f ∈ fs, f.value = g.value.2 := by
  induction es generalizing fs with
  | nil => simp [Schema.paired] at hg
  | cons e es ih =>
    cases fs with
    | nil => simp [Schema.paired] at hg
    | cons f fs =>
      rcases List.mem_cons.mp hg with rfl | hg
      · exact ⟨⟨e, by simp, rfl⟩, f, by simp, rfl⟩
      · obtain ⟨⟨e, he, h₁⟩, f, hf, h₂⟩ := ih hg
        exact ⟨⟨e, by simp [he], h₁⟩, f, by simp [hf], h₂⟩

/-- The forms in which two tuples have common places. -/
inductive Aligned : List (Element Schema) → List (Element Schema) → List (Element (Schema × Schema)) → Prop
  | arrays {e f : Element Schema} : array? [e] = some e → array? [f] = some f →
      Aligned [e] [f] [⟨.variadic, e.value, f.value⟩]
  | left {e : Element Schema} {fs : List (Element Schema)} : array? [e] = some e → array? fs = none →
      Aligned [e] fs (fs.map fun f => ⟨f.role, e.value, f.value⟩)
  | right {es : List (Element Schema)} {f : Element Schema} : array? es = none → array? [f] = some f →
      Aligned es [f] (es.map fun e => ⟨e.role, e.value, f.value⟩)
  | pairwise {es fs : List (Element Schema)} : array? es = none → array? fs = none →
      es.map (·.role.rank) = fs.map (·.role.rank) → Aligned es fs (Schema.paired es fs)

theorem aligned?_forms {gs : List (Element (Schema × Schema))} (h : aligned? es fs = some gs) : Aligned es fs gs := by
  unfold aligned? at h
  cases hes : array? es with
  | some e =>
    obtain ⟨rfl, -⟩ := array?_eq_some hes
    cases hfs : array? fs with
    | some f =>
      obtain ⟨rfl, -⟩ := array?_eq_some hfs
      simp only [hes, hfs, Option.some.injEq] at h
      exact h ▸ .arrays hes hfs
    | none =>
      simp only [hes, hfs, Option.some.injEq] at h
      exact h ▸ .left hes hfs
  | none =>
    cases hfs : array? fs with
    | some f =>
      obtain ⟨rfl, -⟩ := array?_eq_some hfs
      simp only [hes, hfs, Option.some.injEq] at h
      exact h ▸ .right hes hfs
    | none =>
      simp only [hes, hfs] at h
      split_ifs at h with hkinds
      obtain rfl := Option.some.inj h
      exact .pairwise hes hfs (by simpa [sameKinds] using hkinds)

theorem mem_aligned {gs : List (Element (Schema × Schema))} {g : Element (Schema × Schema)}
    (h : aligned? es fs = some gs) (hg : g ∈ gs) :
    (∃ e ∈ es, e.value = g.value.1) ∧ ∃ f ∈ fs, f.value = g.value.2 := by
  cases aligned?_forms h with
  | @arrays e f =>
    obtain rfl := List.mem_singleton.mp hg
    exact ⟨⟨e, by simp, rfl⟩, f, by simp, rfl⟩
  | @left e =>
    obtain ⟨f, hf, rfl⟩ := List.mem_map.mp hg
    exact ⟨⟨e, by simp, rfl⟩, f, hf, rfl⟩
  | @right _ f =>
    obtain ⟨e, he, rfl⟩ := List.mem_map.mp hg
    exact ⟨⟨e, he, rfl⟩, f, by simp, rfl⟩
  | pairwise => exact mem_paired hg

theorem disjointLengths_comm : disjointLengths fs es = disjointLengths es fs := Bool.or_comm _ _

end Element

/-- No property that the second object requires is refused by the first as undeclared. -/
def ObjectShape.Grants (p q : ObjectShape Schema) : Prop :=
  p.undeclared = .reject → ∀ y ∈ q.properties, p.property? y.key = none → y.presence.isRequired = false

namespace Schema

/-- Schemas that are told apart by their domains and bounds. -/
def Solid : Schema → Prop
  | .keyword _ => True
  | .constrained _ _ => True
  | .object _ => True
  | .tuple _ => True
  | _ => False

/-- Nothing shows that the intersection of two schemas is empty. -/
inductive Overlap (env : Env) : Schema → Schema → Prop
  | equal {a b : Schema} : a.same b = true → Overlap env a b
  | unknownLeft {b : Schema} : Overlap env unknown b
  | unknownRight {a : Schema} : Overlap env a unknown
  | branchLeft {bs : List Schema} {s b : Schema} : b.isNever = false → s ∈ bs → Overlap env s b →
      Overlap env (.union bs) b
  | branchRight {bs : List Schema} {a t : Schema} : a.isNever = false → t ∈ bs → Overlap env a t →
      Overlap env a (.union bs)
  | literalLeft {v : Value} {b : Schema} : b.isUnion = false → b.Member env true v → Overlap env (.literal v) b
  | literalRight {v : Value} {a : Schema} : a.isUnion = false → a.Member env true v → Overlap env a (.literal v)
  | bounded {a b : Schema} : a.Solid → b.Solid → (a.isStructure = false ∨ b.isStructure = false) →
      Touches env a b → (a.split.2 ++ b.split.2).Pairwise Constraint.Compatible → Overlap env a b
  | object {p q : ObjectShape Schema} : (∀ x ∈ p.properties, ∀ y ∈ q.properties, x.key = y.key →
      (x.presence.isRequired || y.presence.isRequired) = true → Overlap env x.value y.value) →
      p.Grants q → q.Grants p → Overlap env (.object p) (.object q)
  | tuple {es fs : List (Element Schema)} : Element.disjointLengths es fs = false →
      (∀ gs, Element.aligned? es fs = some gs → ∀ g ∈ gs, g.role.isOptional = false →
        Overlap env g.value.1 g.value.2) → Overlap env (.tuple es) (.tuple fs)

/-- The value belongs to the intersection of two schemas. Both have it, and so it is inside of it wherever the two
schemas look at the same place. -/
inductive Shares (env : Env) : Schema → Schema → Value → Prop
  | equal {a b : Schema} {v : Value} : a.same b = true → a.Member env true v → Shares env a b v
  | unknownLeft {b : Schema} {v : Value} : b.Member env true v → Shares env unknown b v
  | unknownRight {a : Schema} {v : Value} : a.Member env true v → Shares env a unknown v
  | branchLeft {bs : List Schema} {s b : Schema} {v : Value} : b.isNever = false → s ∈ bs → Shares env s b v →
      Shares env (.union bs) b v
  | branchRight {bs : List Schema} {a t : Schema} {v : Value} : a.isNever = false → t ∈ bs → Shares env a t v →
      Shares env a (.union bs) v
  | plain {a b : Schema} {v : Value} : Overlap env a b → a.isUnion = false → b.isUnion = false →
      (a.isStructure = false ∨ b.isStructure = false) → a.Member env true v → b.Member env true v → Shares env a b v
  | object {p q : ObjectShape Schema} {v : Value} {es : List Entry} : Overlap env (.object p) (.object q) →
      (Schema.object p).Member env true v → (Schema.object q).Member env true v → v.fields? = some es →
      (∀ x ∈ p.properties, ∀ y ∈ q.properties, x.key = y.key → ∀ e, Entry.find? es x.key = some e →
        Shares env x.value y.value e.item) → Shares env (.object p) (.object q) v
  | tuple {es fs : List (Element Schema)} {v : Value} {k : Value.Sequence} {items : List Value} :
      Overlap env (.tuple es) (.tuple fs) → (Schema.tuple es).Member env true v →
      (Schema.tuple fs).Member env true v → v.items? = some (k, items) →
      (∀ gs, Element.aligned? es fs = some gs → ∀ t ∈ Element.places gs items, Shares env t.1.1 t.1.2 t.2) →
      Shares env (.tuple es) (.tuple fs) v

section Rules

variable {env : Env} {d : Dialect} {a b : Schema} {bs : List Schema} {v : Value}

theorem Touches.symm (h : Touches env a b) : Touches env b a := by
  intro x y hx hy
  have hcomm : x.inter y = y.inter x := by
    funext e
    exact Bool.and_comm _ _
  rw [hcomm]
  exact h y x hy hx

theorem Overlap.symm (h : Overlap env a b) (ha : a.Every (Fits d)) (hb : b.Every (Fits d)) : Overlap env b a := by
  induction h with
  | equal hsame => exact .equal (same_symm ha hb hsame)
  | unknownLeft => exact .unknownRight
  | unknownRight => exact .unknownLeft
  | branchLeft hne hs _ ih => exact .branchRight hne hs (ih (ha.branch hs) hb)
  | branchRight hne ht _ ih => exact .branchLeft hne ht (ih ha (hb.branch ht))
  | literalLeft hu hmem => exact .literalRight hu hmem
  | literalRight hu hmem => exact .literalLeft hu hmem
  | bounded hsa hsb hst htouch hpairs =>
    exact .bounded hsb hsa hst.symm htouch.symm ((List.pairwise_append_comm fun h => h.symm).mp hpairs)
  | object _ hpq hqp ih =>
    refine .object (fun y hy x hx hk hreq => ?_) hqp hpq
    exact ih x hx y hy hk.symm (by rwa [Bool.or_comm]) (ha.property hx) (hb.property hy)
  | tuple hlen _ ih =>
    refine .tuple (Element.disjointLengths_comm.trans hlen) fun gs hgs g hg hopt => ?_
    rw [Element.aligned?_comm ha.root.2 hb.root.2] at hgs
    obtain ⟨gs, halign, rfl⟩ := Option.map_eq_some_iff.mp hgs
    obtain ⟨g', hg', rfl⟩ := List.mem_map.mp hg
    obtain ⟨⟨e, he, h₁⟩, f, hf, h₂⟩ := Element.mem_aligned halign hg'
    exact ih gs halign g' hg' hopt (h₁ ▸ ha.element he) (h₂ ▸ hb.element hf)

theorem Shares.overlap (h : Shares env a b v) : Overlap env a b := by
  induction h with
  | equal hsame _ => exact .equal hsame
  | unknownLeft _ => exact .unknownLeft
  | unknownRight _ => exact .unknownRight
  | branchLeft hne hs _ ih => exact .branchLeft hne hs ih
  | branchRight hne ht _ ih => exact .branchRight hne ht ih
  | plain h _ _ _ _ _ => exact h
  | object h _ _ _ _ _ => exact h
  | tuple h _ _ _ _ _ => exact h

/-- What two schemas share belongs to both. -/
theorem Shares.sound (h : Shares env a b v) (ha : a.Every (Fits d)) (hb : b.Every (Fits d)) :
    a.Member env true v ∧ b.Member env true v := by
  induction h with
  | equal hsame hmem => exact ⟨hmem, (member_of_same ha hb hsame _).mp hmem⟩
  | unknownLeft hmem => exact ⟨member_unknown, hmem⟩
  | unknownRight hmem => exact ⟨hmem, member_unknown⟩
  | branchLeft _ hs _ ih =>
    obtain ⟨hva, hvb⟩ := ih (ha.branch hs) hb
    exact ⟨.union hs hva, hvb⟩
  | branchRight _ ht _ ih =>
    obtain ⟨hva, hvb⟩ := ih ha (hb.branch ht)
    exact ⟨hva, .union ht hvb⟩
  | plain _ _ _ _ hva hvb => exact ⟨hva, hvb⟩
  | object _ hva hvb _ _ _ => exact ⟨hva, hvb⟩
  | tuple _ hva hvb _ _ _ => exact ⟨hva, hvb⟩

theorem Shares.symm (h : Shares env a b v) (ha : a.Every (Fits d)) (hb : b.Every (Fits d)) : Shares env b a v := by
  induction h with
  | equal hsame hmem => exact .equal (same_symm ha hb hsame) ((member_of_same ha hb hsame _).mp hmem)
  | unknownLeft hmem => exact .unknownRight hmem
  | unknownRight hmem => exact .unknownLeft hmem
  | branchLeft hne hs _ ih => exact .branchRight hne hs (ih (ha.branch hs) hb)
  | branchRight hne ht _ ih => exact .branchLeft hne ht (ih ha (hb.branch ht))
  | plain h hua hub hst hva hvb => exact .plain (h.symm ha hb) hub hua hst.symm hvb hva
  | object h hva hvb hf _ ih =>
    refine .object (h.symm ha hb) hvb hva hf fun y hy x hx hk e he => ?_
    exact ih x hx y hy hk.symm e (hk ▸ he) (ha.property hx) (hb.property hy)
  | tuple h hva hvb hi _ ih =>
    refine .tuple (h.symm ha hb) hvb hva hi fun gs hgs t ht => ?_
    rw [Element.aligned?_comm ha.root.2 hb.root.2] at hgs
    obtain ⟨gs, halign, rfl⟩ := Option.map_eq_some_iff.mp hgs
    have hlike : List.Forall₂ (Element.Like fun p q : Schema × Schema => q = p.swap) gs (gs.map Element.swapped) :=
      forall₂_self_map fun g _ => ⟨rfl, rfl⟩
    obtain ⟨t', ht', hswap, hx⟩ := forall₂_exists_right
      (Element.places_like hlike (List.forall₂_same.mpr fun (x : Value) _ => rfl)) ht
    obtain ⟨g, hg, hvalue⟩ := (Element.mem_places ht').1
    obtain ⟨⟨e, he, h₁⟩, f, hf, h₂⟩ := Element.mem_aligned halign hg
    rw [hvalue] at h₁ h₂
    rw [hswap, ← hx]
    exact ih gs halign t' ht' (h₁ ▸ ha.element he) (h₂ ▸ hb.element hf)

variable (hbs : ∀ s ∈ bs, s.isNever = false)
include hbs

/-- What overlaps a union overlaps a branch of it. -/
theorem Overlap.exists_left (h : Overlap env (.union bs) b) (hne : bs ≠ []) : ∃ s ∈ bs, Overlap env s b := by
  obtain ⟨s₀, hs₀⟩ := List.exists_mem_of_ne_nil bs hne
  generalize ha : Schema.union bs = a at h
  induction h with
  | @equal _ b hsame =>
    subst ha
    cases b <;> simp only [same, Bool.false_eq_true] at hsame
    obtain ⟨t, ht, hst⟩ := forall₂_exists_left (sameAll_iff.mp hsame) hs₀
    exact ⟨s₀, hs₀, .branchRight (hbs s₀ hs₀) ht (.equal hst)⟩
  | unknownLeft => simp [unknown] at ha
  | unknownRight => exact ⟨s₀, hs₀, .unknownRight⟩
  | branchLeft _ hs h _ =>
    obtain rfl := Schema.union.inj ha
    exact ⟨_, hs, h⟩
  | branchRight _ ht _ ih =>
    obtain ⟨s, hs, h⟩ := ih ha
    exact ⟨s, hs, .branchRight (hbs s hs) ht h⟩
  | literalLeft => simp at ha
  | literalRight hu => simp [← ha, isUnion] at hu
  | bounded hsolid => exact (ha ▸ hsolid : (Schema.union bs).Solid).elim
  | object => simp at ha
  | tuple => simp at ha

/-- What a union shares one of its branches shares. -/
theorem Shares.exists_left (h : Shares env (.union bs) b v) : ∃ s ∈ bs, Shares env s b v := by
  generalize ha : Schema.union bs = a at h
  induction h with
  | @equal _ b v hsame hmem =>
    subst ha
    cases b <;> simp only [same, Bool.false_eq_true] at hsame
    obtain ⟨s, hs, hmem⟩ := member_union.mp hmem
    obtain ⟨t, ht, hst⟩ := forall₂_exists_left (sameAll_iff.mp hsame) hs
    exact ⟨s, hs, .branchRight (hbs s hs) ht (.equal hst hmem)⟩
  | unknownLeft => simp [unknown] at ha
  | unknownRight hmem =>
    subst ha
    obtain ⟨s, hs, hmem⟩ := member_union.mp hmem
    exact ⟨s, hs, .unknownRight hmem⟩
  | branchLeft _ hs h _ =>
    obtain rfl := Schema.union.inj ha
    exact ⟨_, hs, h⟩
  | branchRight _ ht _ ih =>
    obtain ⟨s, hs, h⟩ := ih ha
    exact ⟨s, hs, .branchRight (hbs s hs) ht h⟩
  | plain _ hu => simp [← ha, isUnion] at hu
  | object => simp at ha
  | tuple => simp at ha

end Rules

end Schema
end Schemata
