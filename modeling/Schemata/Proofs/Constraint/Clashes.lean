import Mathlib.Data.List.Pairwise
import Schemata.Proofs.Constraint.Gathering

/-! Which constraints can be gathered at all. Bounds narrow one after the other, and they fail as soon as the lower
end of one and the upper end of another leave nothing between them. So the order in which constraints come does not
decide whether they can be gathered: it is enough to look at them in pairs. -/
namespace Schemata

theorem Point.exists_mirror (p : Point) : ∃ q : Point, p = q.mirror := by
  cases p with
  | below => exact ⟨.above, rfl⟩
  | above => exact ⟨.below, rfl⟩
  | finite u => exact ⟨.finite (-u), by simp [mirror]⟩

namespace Cut

/-- The tighter of two cuts is one of them. -/
theorem join_eq_or (a b : Cut) : a.join b = a ∨ a.join b = b := by
  rcases a with _ | ⟨p, o⟩
  · exact Or.inr rfl
  rcases b with _ | ⟨q, u⟩
  · exact Or.inl rfl
  simp only [join]
  split_ifs with heq
  · subst heq
    cases o <;> simp
  · exact Or.inr rfl
  · exact Or.inl rfl

end Cut

namespace Range

theorem void_iff {p q : Point} {o u : Bool} :
    Void (some (p, o)) (some (q.mirror, u)) ↔ q < p ∨ (p = q ∧ (o = true ∨ u = true)) := by
  simp only [Void, Option.some.injEq, Prod.mk.injEq, Point.mirror_injective.eq_iff]
  constructor
  · rintro ⟨_, _, _, _, ⟨rfl, rfl⟩, ⟨rfl, rfl⟩, h⟩
    exact h
  · exact fun h => ⟨p, o, q, u, ⟨rfl, rfl⟩, ⟨rfl, rfl⟩, h⟩

variable {a b c : Cut}

theorem Void.of_under_left (hv : Void a c) (h : a.Under b) : Void b c := by
  obtain ⟨p, o, r, w, rfl, rfl, hv⟩ := hv
  rcases b with _ | ⟨q, u⟩
  · exact h.elim
  refine void_iff.mpr ?_
  rcases h with h | ⟨rfl, h⟩
  · rcases hv with hv | ⟨rfl, -⟩
    · exact Or.inl (hv.trans h)
    · exact Or.inl h
  · exact hv.imp_right fun hv => ⟨hv.1, hv.2.imp_left h⟩

theorem Void.of_under_right (hv : Void c a) (h : a.Under b) : Void c b := by
  obtain ⟨p, o, r, w, rfl, rfl, hv⟩ := hv
  rcases b with _ | ⟨q, u⟩
  · exact h.elim
  obtain ⟨q, rfl⟩ := q.exists_mirror
  refine void_iff.mpr ?_
  rcases h with h | ⟨heq, h⟩
  · have h := Point.mirror_lt_mirror.mp h
    rcases hv with hv | ⟨rfl, -⟩
    · exact Or.inl (h.trans hv)
    · exact Or.inl h
  · obtain rfl := Point.mirror_injective heq
    exact hv.imp_right fun hv => ⟨hv.1, hv.2.imp_right h⟩

/-- Nothing lies inside the tighter of two cuts when nothing lies inside one of them. -/
theorem void_join_left : Void (a.join b) c ↔ Void a c ∨ Void b c := by
  constructor
  · intro h
    rcases Cut.join_eq_or a b with heq | heq
    · exact Or.inl (heq ▸ h)
    · exact Or.inr (heq ▸ h)
  · rintro (h | h)
    · exact h.of_under_left (Cut.under_join_left a b)
    · exact h.of_under_left (Cut.under_join_right a b)

theorem void_join_right : Void c (a.join b) ↔ Void c a ∨ Void c b := by
  constructor
  · intro h
    rcases Cut.join_eq_or a b with heq | heq
    · exact Or.inl (heq ▸ h)
    · exact Or.inr (heq ▸ h)
  · rintro (h | h)
    · exact h.of_under_right (Cut.under_join_left a b)
    · exact h.of_under_right (Cut.under_join_right a b)

end Range

namespace Length

theorem isEmpty_iff {l : Length} : l.isEmpty = true ↔ ∃ x ∈ l.least, ∃ y ∈ l.greatest, y < x := by
  obtain ⟨least, greatest⟩ := l
  cases least <;> cases greatest <;> simp [isEmpty]

theorem exists_meet_max {a b : Option Int} {p : Int → Prop} (hp : ∀ x y, x ≤ y → p x → p y) :
    (∃ x ∈ meet max a b, p x) ↔ (∃ x ∈ a, p x) ∨ ∃ x ∈ b, p x := by
  cases a <;> cases b <;> simp [meet]
  rename_i x y
  refine ⟨fun h => ?_, fun h => h.elim (hp x _ (le_max_left x y)) (hp y _ (le_max_right x y))⟩
  rcases max_choice x y with heq | heq
  · exact Or.inl (heq ▸ h)
  · exact Or.inr (heq ▸ h)

theorem exists_meet_min {a b : Option Int} {p : Int → Prop} (hp : ∀ x y, x ≤ y → p y → p x) :
    (∃ x ∈ meet min a b, p x) ↔ (∃ x ∈ a, p x) ∨ ∃ x ∈ b, p x := by
  cases a <;> cases b <;> simp [meet]
  rename_i x y
  refine ⟨fun h => ?_, fun h => h.elim (hp _ x (min_le_left x y)) (hp _ y (min_le_right x y))⟩
  rcases min_choice x y with heq | heq
  · exact Or.inl (heq ▸ h)
  · exact Or.inr (heq ▸ h)

end Length

namespace Constraint

/-- Nothing lies between the lower end of the first bound and the upper end of the second. -/
def Clashes : Constraint → Constraint → Prop
  | .range r, .range s => Range.Void (r.low.cut .greater) (s.high.cut .less)
  | .length a, .length b => ∃ x ∈ a.least, ∃ y ∈ b.greatest, y < x
  | _, _ => False

/-- Bounds of one kind, which narrow each other. -/
def Akin : Constraint → Constraint → Prop
  | .range _, .range _ => True
  | .length _, .length _ => True
  | _, _ => False

/-- Two constraints that can be gathered: any two, but of bounds of one kind all ends have to fit together. -/
def Compatible (c d : Constraint) : Prop :=
  c.Akin d → ¬ c.Clashes c ∧ ¬ c.Clashes d ∧ ¬ d.Clashes c ∧ ¬ d.Clashes d

variable {c d e : Constraint}

theorem Akin.symm (h : c.Akin d) : d.Akin c := by
  cases c <;> cases d <;> trivial

theorem Akin.trans (h : c.Akin d) (k : d.Akin e) : c.Akin e := by
  cases c <;> cases d <;> first | exact h.elim | skip
  all_goals cases e <;> trivial

theorem Compatible.symm (h : c.Compatible d) : d.Compatible c := by
  intro hakin
  obtain ⟨hcc, hcd, hdc, hdd⟩ := h hakin.symm
  exact ⟨hdd, hdc, hcd, hcc⟩

/-- The bound `e` has the tighter ends of two bounds of one kind. -/
structure Joins (d c e : Constraint) : Prop where
  plain : e.Plain
  akin : e.Akin d
  left : ∀ x : Constraint, e.Clashes x ↔ d.Clashes x ∨ c.Clashes x
  right : ∀ x : Constraint, x.Clashes e ↔ x.Clashes d ∨ x.Clashes c

theorem narrow?_of_not_akin (h : ¬ d.Akin c) : d.narrow? c = none := by
  cases d <;> cases c <;> first | rfl | exact absurd trivial h

/-- Two bounds of one kind narrow to their tighter ends, unless these leave nothing between them. -/
theorem narrow?_of_akin (hd : d.Plain) (hc : c.Plain) (h : d.Akin c) : ∃ e, Joins d c e ∧
    ((d.narrow? c = some (.ok (some e)) ∧ ¬ e.Clashes e) ∨ (d.narrow? c = some (.ok none) ∧ e.Clashes e)) := by
  cases d with
  | range r =>
    cases c with
    | range s =>
      obtain ⟨t, ht, hl, hh, -, -, hn⟩ := Range.narrow_cases hd hc
      refine ⟨.range t, ⟨ht, trivial, fun x => ?_, fun x => ?_⟩, ?_⟩
      · cases x <;> simp [Clashes, hl, Range.void_join_left]
      · cases x <;> simp [Clashes, hh, Range.void_join_right]
      · exact hn.imp (fun hn => ⟨by simp [narrow?, hn.1, Except.map], hn.2⟩)
          fun hn => ⟨by simp [narrow?, hn.1, Except.map], hn.2⟩
    | _ => exact h.elim
  | length a =>
    cases c with
    | length b =>
      obtain ⟨l, hl⟩ : ∃ l : Length, l = ⟨Length.meet max a.least b.least, Length.meet min a.greatest b.greatest⟩ :=
        ⟨_, rfl⟩
      refine ⟨.length l, ⟨trivial, trivial, fun x => ?_, fun x => ?_⟩, ?_⟩
      · cases x <;> simp only [Clashes, or_self, hl]
        refine Length.exists_meet_max fun x y hxy => ?_
        rintro ⟨z, hz, h⟩
        exact ⟨z, hz, h.trans_le hxy⟩
      · cases x <;> simp only [Clashes, or_self, hl]
        have upper : ∀ x, (∃ y ∈ Length.meet min a.greatest b.greatest, y < x) ↔
            (∃ y ∈ a.greatest, y < x) ∨ ∃ y ∈ b.greatest, y < x := fun x =>
          Length.exists_meet_min fun y z hyz h => hyz.trans_lt h
        simp only [upper, and_or_left, exists_or]
      · have hnarrow : a.narrow? b = if l.isEmpty then none else some l := by rw [hl]; rfl
        have hself : (Constraint.length l).Clashes (.length l) ↔ l.isEmpty = true := Length.isEmpty_iff.symm
        rw [hself, narrow?, hnarrow]
        cases l.isEmpty
        · exact Or.inl ⟨rfl, Bool.false_ne_true⟩
        · exact Or.inr ⟨rfl, rfl⟩
    | _ => exact h.elim
  | _ => exact h.elim

/-- The bound `g` stands for all bounds of its kind that have been seen. -/
structure Stands (seen : List Constraint) (g : Constraint) : Prop where
  source : ∃ s ∈ seen, s.Akin g
  left : ∀ x : Constraint, g.Clashes x ↔ ∃ s ∈ seen, s.Akin g ∧ s.Clashes x
  right : ∀ x : Constraint, x.Clashes g ↔ ∃ s ∈ seen, s.Akin g ∧ x.Clashes s

/-- What is known has one bound of each kind that has been seen. -/
structure Tally (seen known : List Constraint) : Prop where
  plain : ∀ g ∈ known, g.Plain
  apart : known.Pairwise fun g h => ¬ g.Akin h
  stands : ∀ g ∈ known, g.Akin g → Stands seen g
  kept : ∀ s ∈ seen, s.Akin s → ∃ g ∈ known, g.Akin s

variable {disjoint : Constraint → Constraint → Fault} {seen known : List Constraint}

/-- Among all constraints seen only those of one kind with `g` count. -/
theorem Stands.skip {g : Constraint} (h : Stands seen g) (hno : ¬ c.Akin g) : Stands (seen ++ [c]) g := by
  have exists_seen : ∀ p : Constraint → Prop, (∃ s ∈ seen, s.Akin g ∧ p s) ↔ ∃ s ∈ seen ++ [c], s.Akin g ∧ p s := by
    intro p
    constructor
    · exact fun ⟨s, hs, h⟩ => ⟨s, List.mem_append_left _ hs, h⟩
    · rintro ⟨s, hs, h⟩
      rcases List.mem_append.mp hs with hs | hs
      · exact ⟨s, hs, h⟩
      · obtain rfl := List.mem_singleton.mp hs
        exact absurd h.1 hno
  obtain ⟨s, hs, hakin⟩ := h.source
  exact ⟨⟨s, List.mem_append_left _ hs, hakin⟩, fun x => (h.left x).trans (exists_seen _),
    fun x => (h.right x).trans (exists_seen _)⟩

/-- A bound that takes in another one stands for that one too. -/
theorem Stands.join {g : Constraint} (h : Stands seen g) (hakin : g.Akin c) (he : Joins g c e) :
    Stands (seen ++ [c]) e := by
  have exists_seen : ∀ p : Constraint → Prop,
      (∃ s ∈ seen ++ [c], s.Akin e ∧ p s) ↔ (∃ s ∈ seen, s.Akin g ∧ p s) ∨ p c := by
    intro p
    constructor
    · rintro ⟨s, hs, hse, hp⟩
      rcases List.mem_append.mp hs with hs | hs
      · exact Or.inl ⟨s, hs, hse.trans he.akin, hp⟩
      · exact Or.inr (List.mem_singleton.mp hs ▸ hp)
    · rintro (⟨s, hs, hsg, hp⟩ | hp)
      · exact ⟨s, List.mem_append_left _ hs, hsg.trans he.akin.symm, hp⟩
      · exact ⟨c, by simp, hakin.symm.trans he.akin.symm, hp⟩
  refine ⟨⟨c, by simp, hakin.symm.trans he.akin.symm⟩, fun x => ?_, fun x => ?_⟩
  · rw [he.left, h.left, exists_seen]
  · rw [he.right, h.right, exists_seen]

/-- A bound that nothing of its kind came before stands for itself. -/
theorem stands_alone (hno : ∀ s ∈ seen, ¬ s.Akin c) (hc : c.Akin c) : Stands (seen ++ [c]) c := by
  have exists_seen : ∀ p : Constraint → Prop, (∃ s ∈ seen ++ [c], s.Akin c ∧ p s) ↔ p c := by
    intro p
    constructor
    · rintro ⟨s, hs, hsc, hp⟩
      rcases List.mem_append.mp hs with hs | hs
      · exact absurd hsc (hno s hs)
      · exact List.mem_singleton.mp hs ▸ hp
    · exact fun hp => ⟨c, by simp, hc, hp⟩
  exact ⟨⟨c, by simp, hc⟩, fun x => (exists_seen fun s => s.Clashes x).symm,
    fun x => (exists_seen fun s => x.Clashes s).symm⟩

/-- The self-clash of a joined bound comes from one of the bounds behind it. -/
theorem Stands.clashes_join {g : Constraint} (h : Stands seen g) (he : Joins g c e) : e.Clashes e ↔
    (∃ s ∈ seen, ∃ t ∈ seen, (s.Akin g ∧ t.Akin g) ∧ s.Clashes t) ∨ (∃ s ∈ seen, s.Akin g ∧ s.Clashes c) ∨
      (∃ s ∈ seen, s.Akin g ∧ c.Clashes s) ∨ c.Clashes c := by
  have inside : g.Clashes g ↔ ∃ s ∈ seen, ∃ t ∈ seen, (s.Akin g ∧ t.Akin g) ∧ s.Clashes t := by
    rw [h.left]
    constructor
    · rintro ⟨s, hs, hsg, hclash⟩
      obtain ⟨t, ht, htg, hclash⟩ := (h.right s).mp hclash
      exact ⟨s, hs, t, ht, ⟨hsg, htg⟩, hclash⟩
    · rintro ⟨s, hs, t, ht, ⟨hsg, htg⟩, hclash⟩
      exact ⟨s, hs, hsg, (h.right s).mpr ⟨t, ht, htg, hclash⟩⟩
  rw [he.left, he.right, he.right, inside, h.left, h.right, or_assoc]

theorem narrowInto_of_apart (h : ∀ g ∈ known, ¬ g.Akin c) : narrowInto disjoint c known = .ok none := by
  induction known with
  | nil => rfl
  | cons g known ih =>
    unfold narrowInto
    rw [narrow?_of_not_akin (h g (by simp)), ih fun g hg => h g (List.mem_cons_of_mem _ hg)]
    rfl

section First

variable {front back : List Constraint} {g : Constraint} (hfront : ∀ h ∈ front, ¬ h.Akin c)
include hfront

theorem narrowInto_of_narrowed (hn : g.narrow? c = some (.ok (some e))) :
    narrowInto disjoint c (front ++ g :: back) = .ok (some (front ++ e :: back)) := by
  induction front with
  | nil =>
    simp only [List.nil_append, narrowInto, hn]
  | cons h front ih =>
    rw [List.cons_append, narrowInto, narrow?_of_not_akin (hfront h (by simp)),
      ih fun h hh => hfront h (List.mem_cons_of_mem _ hh)]
    rfl

theorem narrowInto_of_disjoint (hn : g.narrow? c = some (.ok none)) :
    narrowInto disjoint c (front ++ g :: back) = .error (disjoint g c) := by
  induction front with
  | nil => simp only [List.nil_append, narrowInto, hn]
  | cons h front ih =>
    rw [List.cons_append, narrowInto, narrow?_of_not_akin (hfront h (by simp)),
      ih fun h hh => hfront h (List.mem_cons_of_mem _ hh)]
    rfl

end First

/-- A constraint with no known bound of its kind is added, or known already. -/
theorem gather_apart (ht : Tally seen known) (hc : c.Plain) (hno : ∀ g ∈ known, ¬ g.Akin c) :
    Succeeds (gather disjoint known c) fun gs => (∀ s ∈ seen, s.Compatible c) ∧ Tally (seen ++ [c]) gs := by
  have fresh : ∀ s ∈ seen, ¬ s.Akin c := by
    intro s hs hsc
    obtain ⟨g, hg, hgs⟩ := ht.kept s hs (hsc.trans hsc.symm)
    exact hno g hg (hgs.trans hsc)
  have skip : ∀ g ∈ known, g.Akin g → Stands (seen ++ [c]) g := fun g hg hgg =>
    (ht.stands g hg hgg).skip fun hcg => hno g hg hcg.symm
  refine ⟨if known.any fun d => d.same c then known else known ++ [c], ?_, fun s hs hsc => absurd hsc (fresh s hs), ?_⟩
  · simp only [gather, narrowInto_of_apart hno, bind, Except.bind, pure, Except.pure]
  split_ifs with hsame
  · refine ⟨ht.plain, ht.apart, skip, fun s hs hss => ?_⟩
    rcases List.mem_append.mp hs with hs | hs
    · exact ht.kept s hs hss
    · obtain rfl := List.mem_singleton.mp hs
      obtain ⟨g, hg, hgs⟩ := List.any_eq_true.mp hsame
      refine ⟨g, hg, ?_⟩
      cases g <;> cases s <;> trivial
  · refine ⟨?_, ?_, fun g hg hgg => ?_, fun s hs hss => ?_⟩
    · exact List.forall_mem_append.mpr ⟨ht.plain, by simpa using hc⟩
    · refine List.pairwise_append.mpr ⟨ht.apart, List.pairwise_singleton _ _, fun g hg d hd => ?_⟩
      obtain rfl := List.mem_singleton.mp hd
      exact hno g hg
    · rcases List.mem_append.mp hg with hg | hg
      · exact skip g hg hgg
      · obtain rfl := List.mem_singleton.mp hg
        exact stands_alone fresh hgg
    · rcases List.mem_append.mp hs with hs | hs
      · obtain ⟨g, hg, hgs⟩ := ht.kept s hs hss
        exact ⟨g, List.mem_append_left _ hg, hgs⟩
      · exact ⟨s, List.mem_append_right _ hs, hss⟩

/-- A bound that narrows the known one of its kind takes its place. -/
theorem Tally.narrowed {front back : List Constraint} {g : Constraint} (ht : Tally seen (front ++ g :: back))
    (hgc : g.Akin c) (he : Joins g c e) : Tally (seen ++ [c]) (front ++ e :: back) := by
  have mem : ∀ {h : Constraint}, h ∈ front ++ e :: back → h = e ∨ (h ∈ front ++ g :: back ∧ ¬ c.Akin h) := by
    intro h hh
    obtain ⟨-, hback, hfront⟩ := List.pairwise_append.mp ht.apart
    rcases List.mem_append.mp hh with hh | hh
    · exact Or.inr ⟨List.mem_append_left _ hh, fun hch => hfront h hh g (by simp) (hgc.trans hch).symm⟩
    · rcases List.mem_cons.mp hh with rfl | hh
      · exact Or.inl rfl
      · refine Or.inr ⟨by simp [hh], fun hch => (List.pairwise_cons.mp hback).1 h hh (hgc.trans hch)⟩
  have hgg : g.Akin g := hgc.trans hgc.symm
  refine ⟨fun h hh => ?_, ?_, fun h hh hhh => ?_, fun s hs hss => ?_⟩
  · rcases mem hh with rfl | ⟨hh, -⟩
    · exact he.plain
    · exact ht.plain h hh
  · obtain ⟨hfront, hback, hcross⟩ := List.pairwise_append.mp ht.apart
    obtain ⟨hg, hback⟩ := List.pairwise_cons.mp hback
    refine List.pairwise_append.mpr ⟨hfront, List.pairwise_cons.mpr ⟨fun h hh heh => ?_, hback⟩, fun h hh k hk => ?_⟩
    · exact hg h hh (he.akin.symm.trans heh)
    · rcases List.mem_cons.mp hk with rfl | hk
      · exact fun hhe => hcross h hh g (by simp) (hhe.trans he.akin)
      · exact hcross h hh k (by simp [hk])
  · rcases mem hh with rfl | ⟨hh, hno⟩
    · exact (ht.stands g (by simp) hgg).join hgc he
    · exact (ht.stands h hh hhh).skip hno
  · rcases List.mem_append.mp hs with hs | hs
    · obtain ⟨h, hh, hhs⟩ := ht.kept s hs hss
      by_cases hhg : h.Akin g
      · exact ⟨e, by simp, he.akin.trans (hhg.symm.trans hhs)⟩
      · refine ⟨h, ?_, hhs⟩
        have hne : h ≠ g := fun heq => hhg (heq ▸ hgg)
        have hh : h ∈ front ∨ h ∈ back := by simpa [hne] using hh
        simpa using hh.imp_right Or.inr
    · obtain rfl := List.mem_singleton.mp hs
      exact ⟨e, by simp, he.akin.trans hgc⟩

/-- One more constraint either fits to all that came before it, or there are two that do not fit. -/
theorem gather_tally (ht : Tally seen known) (hc : c.Plain) : Ends (gather disjoint known c)
    (fun gs => (∀ s ∈ seen, s.Compatible c) ∧ Tally (seen ++ [c]) gs)
    fun _ => ¬ (seen ++ [c]).Pairwise Compatible := by
  by_cases hno : ∀ g ∈ known, ¬ g.Akin c
  · exact .of_succeeds (gather_apart ht hc hno)
  push Not at hno
  obtain ⟨g, hg, hgc⟩ := hno
  obtain ⟨front, back, rfl⟩ := List.append_of_mem hg
  have hstands := ht.stands g hg (hgc.trans hgc.symm)
  have hfront : ∀ h ∈ front, ¬ h.Akin c := fun h hh hhc =>
    (List.pairwise_append.mp ht.apart).2.2 h hh g (by simp) (hhc.trans hgc.symm)
  obtain ⟨e, he, ⟨hn, hfit⟩ | ⟨hn, hclash⟩⟩ := narrow?_of_akin (ht.plain g hg) hc hgc
  · have hrun : gather disjoint (front ++ g :: back) c = .ok (front ++ e :: back) := by
      simp only [gather, narrowInto_of_narrowed hfront hn, bind, Except.bind, pure, Except.pure]
    rw [hrun]
    refine ⟨fun s hs hsc => ?_, ht.narrowed hgc he⟩
    have hsg := hsc.trans hgc.symm
    rw [hstands.clashes_join he] at hfit
    push Not at hfit
    obtain ⟨inside, below, above, self⟩ := hfit
    exact ⟨inside s hs s hs ⟨hsg, hsg⟩, below s hs hsg, above s hs hsg, self⟩
  · have hrun : gather disjoint (front ++ g :: back) c = .error (disjoint g c) := by
      simp only [gather, narrowInto_of_disjoint hfront hn, bind, Except.bind]
    rw [hrun]
    intro hpairs
    obtain ⟨hseen, -, hlast⟩ := List.pairwise_append.mp hpairs
    have fits : ∀ s ∈ seen, s.Akin g → ¬ s.Clashes s ∧ ¬ s.Clashes c ∧ ¬ c.Clashes s ∧ ¬ c.Clashes c := fun s hs hsg =>
      hlast s hs c (by simp) (hsg.trans hgc)
    rcases (hstands.clashes_join he).mp hclash with ⟨s, hs, t, ht, ⟨hsg, htg⟩, h⟩ | ⟨s, hs, hsg, h⟩ | ⟨s, hs, hsg, h⟩ | h
    · by_cases heq : s = t
      · exact (fits s hs hsg).1 (heq ▸ h)
      · have : Std.Symm Compatible := ⟨fun _ _ h => h.symm⟩
        exact (hseen.forall hs ht heq (hsg.trans htg.symm)).2.1 h
    · exact (fits s hs hsg).2.1 h
    · exact (fits s hs hsg).2.2.1 h
    · obtain ⟨s, hs, hsg⟩ := hstands.source
      exact (fits s hs hsg).2.2.2 h

/-- Constraints can be gathered exactly when every two of them can. -/
theorem gatherAll_pairs {cs : List Constraint} (hcs : ∀ c ∈ cs, c.Plain) :
    Ends (cs.foldlM (gather disjoint) []) (fun _ => cs.Pairwise Compatible) fun _ => ¬ cs.Pairwise Compatible := by
  have start : Tally [] [] := ⟨by simp, .nil, by simp, by simp⟩
  refine Ends.mono (Ends.foldlM (I := fun seen known => seen.Pairwise Compatible ∧ Tally seen known) ⟨.nil, start⟩
    fun seen c rest known hsplit hknown => ?_) (fun _ h => h.1) fun _ h => h
  subst hsplit
  refine (gather_tally hknown.2 (hcs c (by simp))).mono (fun gs hgs => ⟨?_, hgs.2⟩) fun _ hno hpairs => hno ?_
  · refine List.pairwise_append.mpr ⟨hknown.1, List.pairwise_singleton _ _, fun s hs d hd => ?_⟩
    exact List.mem_singleton.mp hd ▸ hgs.1 s hs
  · exact hpairs.sublist (by simp)

end Constraint
end Schemata
