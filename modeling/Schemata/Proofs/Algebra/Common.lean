import Schemata.Proofs.Algebra.Overlap

/-! The intersection works out what two schemas share: keywords, literals, bounds and the branches of unions. -/
namespace Schemata
namespace Schema

section

variable {env : Env} {d : Dialect} {a b c : Schema} {meet : Schema → Schema → Compose Schema}

/-- The schema `c` has what two overlapping schemas share. -/
structure Common (env : Env) (d : Dialect) (a b c : Schema) : Prop where
  overlap : Overlap env a b
  orderly : c.Orderly d
  member : ∀ v : Value, v.Formed → (c.Member env true v ↔ Shares env a b v)

/-- The error says of two schemas that they do not overlap. -/
def Barred (env : Env) (a b : Schema) (e : Fault) : Prop := e.isUnsatisfiable = true ∧ ¬ Overlap env a b

/-- The computation works out what two schemas share. -/
def Composes (env : Env) (d : Dialect) (a b : Schema) (x : Compose Schema) : Prop :=
  x.Yields (Common env d a b) (Barred env a b)

theorem Composes.symm {x : Compose Schema} (h : Composes env d b a x) (ha : a.Every (Fits d)) (hb : b.Every (Fits d)) :
    Composes env d a b x :=
  Compose.Yields.mono h
    (fun _ h => ⟨h.overlap.symm hb ha, h.orderly, fun v hv => (h.member v hv).trans
      ⟨fun h => h.symm hb ha, fun h => h.symm ha hb⟩⟩)
    fun _ h => ⟨h.1, fun hoverlap => h.2 (hoverlap.symm ha hb)⟩

/-- A place has what two schemas share, and nothing where they do not overlap; then it can be left empty. -/
structure Placed (env : Env) (d : Dialect) (optional : Bool) (a b c : Schema) : Prop where
  overlap : optional = false → Overlap env a b
  orderly : c.Orderly d
  member : ∀ v : Value, v.Formed → (c.Member env true v ↔ Shares env a b v)

theorem orderly_never : never.Orderly d := .intro ⟨trivial, trivial⟩ (by simp [never, parts])

theorem place_common (optional : Bool) (h : Composes env d a b (meet a b)) :
    (Compose.place meet a b optional).Yields (Placed env d optional a b)
      fun e => Barred env a b e ∧ optional = false := by
  refine Compose.Yields.place h (fun c hc => ⟨fun _ => hc.overlap, hc.orderly, hc.member⟩) ?_ ?_
  · rintro e rfl - ⟨-, hno⟩
    exact ⟨by simp, orderly_never, fun v _ => iff_of_false not_member_never fun h => hno h.overlap⟩
  · exact fun e he hopt => ⟨he, hopt.resolve_right (by simp [he.1])⟩

/-- Two schemas overlap by their forms. -/
theorem Overlap.direct (h : Overlap env a b) (hu : Unsettled a b) :
    (∃ v, a = .literal v ∧ b.Member env true v) ∨ (∃ v, b = .literal v ∧ a.Member env true v) ∨
      (a.Solid ∧ b.Solid ∧ (a.isStructure = false ∨ b.isStructure = false) ∧ Touches env a b ∧
        (a.split.2 ++ b.split.2).Pairwise Constraint.Compatible) ∨
      (∃ p q, a = .object p ∧ b = .object q) ∨ ∃ es fs, a = .tuple es ∧ b = .tuple fs := by
  cases h with
  | equal hsame => exact absurd hsame hu.different
  | unknownLeft => simpa [unknown, isUnknown] using hu.known
  | unknownRight => simpa [unknown, isUnknown] using hu.known'
  | branchLeft => simpa [isUnion] using hu.direct.2
  | branchRight => simpa [isUnion] using hu.direct'.2
  | literalLeft _ hmem => exact Or.inl ⟨_, rfl, hmem⟩
  | literalRight _ hmem => exact Or.inr (Or.inl ⟨_, rfl, hmem⟩)
  | bounded ha hb hst ht hp => exact Or.inr (Or.inr (Or.inl ⟨ha, hb, hst, ht, hp⟩))
  | object => exact Or.inr (Or.inr (Or.inr (Or.inl ⟨_, _, rfl, rfl⟩)))
  | tuple => exact Or.inr (Or.inr (Or.inr (Or.inr ⟨_, _, rfl, rfl⟩)))

/-- Where one of two schemas does not look into containers, they share what both have. -/
theorem shares_plain (ha : a.Every (Fits d)) (hb : b.Every (Fits d)) (hua : a.isUnion = false) (hub : b.isUnion = false)
    (hst : a.isStructure = false ∨ b.isStructure = false) {v : Value} :
    Shares env a b v ↔ Overlap env a b ∧ a.Member env true v ∧ b.Member env true v :=
  ⟨fun h => ⟨h.overlap, h.sound ha hb⟩, fun h => .plain h.1 hua hub hst h.2.1 h.2.2⟩

/-- Schemas that overlap are not told apart by their domains. -/
theorem Overlap.touches (h : Overlap env a b) (hu : Unsettled a b) (hg : env.Grounded d) (ha : a.Every (Fits d))
    (hb : b.Every (Fits d)) : Touches env a b := by
  have literal : ∀ {v : Value} {s : Schema}, s.Every (Fits d) → s.Member env true v → Touches env (.literal v) s := by
    intro v s hs hmem x y hx hy
    obtain rfl : DomainSet.of [v.domain] = x := Option.some.inj (Except.ok.inj hx)
    obtain ⟨y', hy', hbound⟩ := Env.domains?_spec hg true hs
    obtain rfl := Except.ok.inj (hy'.symm.trans hy)
    rw [Bool.eq_false_iff]
    intro hempty
    have := List.all_eq_true.mp hempty v.domain (Domain.mem_all _)
    simp [DomainSet.inter, DomainSet.of, hbound y rfl v hmem] at this
  rcases h.direct hu with ⟨v, rfl, hmem⟩ | ⟨v, rfl, hmem⟩ | h | ⟨p, q, rfl, rfl⟩ | ⟨es, fs, rfl, rfl⟩
  · exact literal hb hmem
  · exact (literal ha hmem).symm
  · exact h.2.2.2.1
  · intro x y hx hy
    obtain rfl : DomainSet.of [.object] = x := Option.some.inj (Except.ok.inj hx)
    obtain rfl : DomainSet.of [.object] = y := Option.some.inj (Except.ok.inj hy)
    decide
  · intro x y hx hy
    obtain rfl : DomainSet.of [.array] = x := Option.some.inj (Except.ok.inj hx)
    obtain rfl : DomainSet.of [.array] = y := Option.some.inj (Except.ok.inj hy)
    decide

/-- The schema without branches overlaps others only by the shortcuts. -/
theorem Overlap.never (h : Overlap env a b) (ha : a.isNever = true) : a.same b = true ∨ b = unknown := by
  obtain rfl := eq_never ha
  generalize hn : Schema.never = n at h ha
  cases h with
  | equal hsame => exact Or.inl hsame
  | unknownLeft => simp [Schema.never, unknown] at hn
  | unknownRight => exact Or.inr rfl
  | branchLeft _ hs =>
    obtain rfl := Schema.union.inj hn
    simp at hs
  | branchRight hno => simp [ha] at hno
  | literalLeft => simp [Schema.never] at hn
  | literalRight hu => simp [← hn, Schema.never, isUnion] at hu
  | bounded hsolid => exact (hn ▸ hsolid : Schema.never.Solid).elim
  | object => simp [Schema.never] at hn
  | tuple => simp [Schema.never] at hn

/-- A literal overlaps the schemas that have its value. -/
theorem Overlap.member_of_literal {v : Value} (h : Overlap env (.literal v) b) (hv : v.isScalar = true)
    (hne : ¬ (literal v).same b = true) (hb : b.Every (Fits d)) (hub : b.isUnion = false) : b.Member env true v := by
  generalize ha : Schema.literal v = a at h
  cases h with
  | equal hsame => exact absurd hsame (ha ▸ hne)
  | unknownLeft => simp [unknown] at ha
  | unknownRight => exact member_unknown
  | branchLeft => simp at ha
  | branchRight => simp [isUnion] at hub
  | literalLeft _ hmem =>
    obtain rfl := Schema.literal.inj ha
    exact hmem
  | @literalRight w _ _ hmem =>
    subst ha
    exact (member_literal_iff hb.root).mpr ((member_literal_iff hv).mp hmem).symm
  | bounded hsolid => exact (ha ▸ hsolid : (Schema.literal v).Solid).elim
  | object => simp at ha
  | tuple => simp at ha

theorem meetLiteral_common (hg : env.Grounded d) (htry : Tries env True) {v : Value} (hv : v.isScalar = true)
    (hne : ¬ (literal v).same b = true) (hb : b.Every (Fits d)) (hub : b.isUnion = false) :
    Composes env d (.literal v) b (env.meetLiteral (.literal v) v b) := by
  have fits : (literal v).Every (Fits d) := .intro hv nofun
  unfold Env.meetLiteral
  refine Compose.Yields.bind (.lift ((admits_spec hg htry hb hv).mono (fun _ h => h) fun _ hno =>
    absurd trivial hno)) fun r hr => ?_
  cases r with
  | true =>
    rw [if_pos rfl]
    have hmem := hr.mp rfl
    have hoverlap : Overlap env (.literal v) b := .literalLeft hub hmem
    refine .pure ⟨hoverlap, .intro ⟨hv, trivial⟩ nofun, fun w _ => ?_⟩
    rw [shares_plain fits hb rfl hub (Or.inl rfl)]
    exact ⟨fun hw => ⟨hoverlap, hw, hmem.of_twin hb hg hv ((member_literal_iff hv).mp hw)⟩, fun h => h.2.1⟩
  | false =>
    rw [if_neg (by simp)]
    exact .throw ⟨rfl, fun h => by simpa using hr.mpr (h.member_of_literal hv hne hb hub)⟩

theorem Core.solid {s : Schema} (h : s.Core) : s.Solid := by
  rcases h with ⟨k, rfl⟩ | h
  · trivial
  · cases s <;> trivial

theorem Core.split {s : Schema} (h : s.Core) : s.split = (s, []) := by
  rcases h with ⟨k, rfl⟩ | h
  · rfl
  · cases s <;> first | rfl | simp [isStructure] at h

theorem CorePair.flat (h : CorePair a b) : a.isStructure = false ∨ b.isStructure = false := by
  rcases h with ⟨⟨k, rfl⟩, -⟩ | ⟨-, k, rfl⟩
  · exact Or.inl rfl
  · exact Or.inr rfl

/-- Where one of two schemas contains the other, the smaller one has what both have. -/
theorem Smaller.member_iff (h : Smaller env a b c) (v : Value) :
    c.Member env true v ↔ a.Member env true v ∧ b.Member env true v := by
  rcases h with ⟨rfl, h⟩ | ⟨rfl, h⟩
  · exact ⟨fun hv => ⟨hv, h v hv⟩, fun hv => hv.1⟩
  · exact ⟨fun hv => ⟨h v hv, hv⟩, fun hv => hv.2⟩

/-- Only schemas that their domains do not tell apart have a result. -/
theorem meetPlain_touches : (env.meetPlain meet a b).Yields (fun _ => Touches env a b) fun _ => True := by
  have reads : ∀ {α : Type} (x : Except Fault α), Ends x (fun r => x = .ok r) fun _ => True := by
    intro α x
    cases x with
    | ok r => rfl
    | error e => trivial
  unfold Env.meetPlain
  refine Compose.Yields.bind (.lift (reads _)) fun x hx => ?_
  refine Compose.Yields.bind (.lift (reads _)) fun y hy => ?_
  dsimp only
  split_ifs with hdisjoint
  · exact .throw trivial
  · have htouch : Touches env a b := by
      intro x' y' hx' hy'
      obtain rfl := Except.ok.inj (hx.symm.trans hx')
      obtain rfl := Except.ok.inj (hy.symm.trans hy')
      simpa using hdisjoint
    intro met
    unfold Ends
    split
    · exact htouch
    · trivial

theorem meetCore_common (h : CorePair a b) (hu : Unsettled a b) (hg : env.Grounded d) (ha : a.Orderly d)
    (hb : b.Orderly d) : Composes env d a b (env.meetPlain meet a b) := by
  have hfa := ha.fits
  have hfb := hb.fits
  refine ((meetPlain_core h).and meetPlain_touches).mono ?_ fun e he =>
    ⟨he.1.1, fun hoverlap => he.1.2.1 (hoverlap.touches hu hg hfa hfb)⟩
  rintro c ⟨hsmaller, htouch⟩
  have hoverlap : Overlap env a b :=
    .bounded h.core.1.solid h.core.2.solid h.flat htouch (by simp [h.core.1.split, h.core.2.split])
  refine ⟨hoverlap, ?_, fun v _ => ?_⟩
  · rcases hsmaller with ⟨rfl, -⟩ | ⟨rfl, -⟩
    · exact ha
    · exact hb
  · rw [shares_plain hfa hfb hu.direct.2 hu.direct'.2 h.flat, hsmaller.member_iff]
    exact ⟨fun hv => ⟨hoverlap, hv⟩, fun hv => hv.2⟩

theorem domains?_split (env : Env) (s : Schema) : env.domains? s = env.domains? s.split.1 := by
  cases s <;> rfl

theorem touches_split : Touches env a.split.1 b.split.1 ↔ Touches env a b := by
  unfold Touches
  rw [domains?_split env a, domains?_split env b]

/-- Bounds over keywords meet in the smaller keyword with the bounds of both. -/
theorem meetConstrained_common (ha : a.Orderly d) (hb : b.Orderly d) (hea : a.Elementary) (heb : b.Elementary)
    (hu : Unsettled a b) (hla : ∀ v, a ≠ .literal v) (hlb : ∀ v, b ≠ .literal v)
    (hcon : a.isConstrained = true ∨ b.isConstrained = true) (htouch : Touches env a b)
    (hmeet : CorePair a.split.1 b.split.1 → (meet a.split.1 b.split.1).Yields (Smaller env a.split.1 b.split.1)
      (Disjoint env a.split.1 b.split.1)) :
    Composes env d a b (Env.meetConstrained meet a b) := by
  have hfa := ha.fits
  have hfb := hb.fits
  obtain ⟨hac, hak⟩ := core_split hea hu.direct hla
  obtain ⟨hbc, hbk⟩ := core_split heb hu.direct' hlb
  have hpair : CorePair a.split.1 b.split.1 := hcon.imp (fun h => ⟨hak h, hbc⟩) fun h => ⟨hac, hbk h⟩
  have hflat : a.isStructure = false ∨ b.isStructure = false := by
    refine hcon.imp (fun h => ?_) fun h => ?_
    · cases a <;> first | rfl | simp [isConstrained] at h
    · cases b <;> first | rfl | simp [isConstrained] at h
  have solid : ∀ {s : Schema}, s.split.1.Core → s.Solid := by
    intro s hs
    cases s with
    | constrained t cs => trivial
    | _ => exact hs.solid
  have hplain : ∀ c ∈ a.split.2 ++ b.split.2, c.Plain :=
    List.forall_mem_append.mpr ⟨(fits_split hfa).2, (fits_split hfb).2⟩
  unfold Env.meetConstrained
  refine ((hmeet hpair).mono (fun _ h => h) fun e he => absurd (touches_split.mpr htouch) he.2.1).bind
    fun base hbase => ?_
  have hordered : base.Orderly d ∧ base.Broad := by
    have orderly_split : ∀ {s : Schema}, s.Orderly d → s.split.1.Orderly d := by
      intro s hs
      cases s with
      | constrained t cs => exact hs.base
      | _ => exact hs
    rcases hbase with ⟨rfl, -⟩ | ⟨rfl, -⟩
    · exact ⟨orderly_split ha, hac.broad⟩
    · exact ⟨orderly_split hb, hbc.broad⟩
  refine Compose.Yields.bind (((Compose.Yields.lift (Constraint.gatherAll_spec hplain)).and
    (.lift (Constraint.gatherAll_pairs hplain))).mono (fun _ h => h) ?_) ?_
  · rintro e ⟨⟨⟨c, c', rfl⟩, -⟩, hno⟩
    refine ⟨rfl, fun hoverlap => ?_⟩
    rcases hoverlap.direct hu with ⟨v, rfl, -⟩ | ⟨v, rfl, -⟩ | h | ⟨p, q, rfl, rfl⟩ | ⟨es, fs, rfl, rfl⟩
    · exact hla v rfl
    · exact hlb v rfl
    · exact hno h.2.2.2.2
    · simp [isConstrained] at hcon
    · simp [isConstrained] at hcon
  · rintro gs ⟨⟨hgs, hiff⟩, hpairs⟩
    have hoverlap : Overlap env a b := .bounded (solid hac) (solid hbc) hflat htouch hpairs
    refine .pure ⟨hoverlap, orderly_constrain hordered.1 hordered.2 hgs, fun v _ => ?_⟩
    rw [shares_plain hfa hfb hu.direct.2 hu.direct'.2 hflat, member_constrain, hbase.member_iff, hiff,
      List.forall_mem_append, member_split (s := a), member_split (s := b)]
    tauto

/-- Every result of a branch is what it shares with the other schema, and branches without a result do not overlap
it. -/
structure Branchwise (env : Env) (d : Dialect) (bs : List Schema) (b : Schema) (cs : List Schema) : Prop where
  source : ∀ c ∈ cs, ∃ s ∈ bs, Common env d s b c
  covers : ∀ s ∈ bs, Overlap env s b → ∃ c ∈ cs, Common env d s b c

theorem compatible_common {one : Schema → Compose Schema} {bs : List Schema}
    (h : ∀ s ∈ bs, Composes env d s b (one s)) :
    (Env.compatible one bs).Yields (Branchwise env d bs b) fun _ => False := by
  have barred : ∀ s ∈ bs, (one s).Yields (Common env d s b) fun e =>
      (e.isUnsatisfiable = true → ¬ Overlap env s b) ∧ (e.isUnsatisfiable = false → False) := fun s hs =>
    (h s hs).mono (fun _ h => h) fun e he => ⟨fun _ => he.2, by simp [he.1]⟩
  exact (Compose.Yields.compatible barred).mono
    (fun cs hcs => ⟨hcs.1, fun s hs hoverlap => (hcs.2 s hs).resolve_right fun hno => hno hoverlap⟩) fun _ h => h

/-- A union shares with a schema what its branches share with it. -/
theorem meetBranches_common {one : Schema → Compose Schema} {bs : List Schema} (hne : bs ≠ [])
    (hbs : ∀ s ∈ bs, s.isNever = false) (hb : b.isNever = false) (h : ∀ s ∈ bs, Composes env d s b (one s)) :
    Composes env d (.union bs) b (Env.meetBranches env (.union bs) b bs one) := by
  unfold Env.meetBranches
  refine ((compatible_common h).mono (fun _ h => h) fun _ h => h.elim).bind fun cs hcs => ?_
  split_ifs with hempty
  · obtain rfl := List.isEmpty_iff.mp hempty
    refine .throw ⟨rfl, fun hoverlap => ?_⟩
    obtain ⟨s, hs, hoverlap⟩ := hoverlap.exists_left hbs hne
    obtain ⟨c, hc, -⟩ := hcs.covers s hs hoverlap
    simp at hc
  · have orderly : ∀ c ∈ cs, c.Orderly d := fun c hc => by
      obtain ⟨s, -, hcommon⟩ := hcs.source c hc
      exact hcommon.orderly
    obtain ⟨u, hunion, hu, hiff⟩ := Env.union_exact orderly
    refine .lift ?_
    rw [hunion]
    obtain ⟨c, hc⟩ := List.exists_mem_of_ne_nil cs (by simpa using hempty)
    obtain ⟨s, hs, hcommon⟩ := hcs.source c hc
    refine ⟨.branchLeft hb hs hcommon.overlap, hu, fun v hv => (hiff v hv.here).trans ⟨?_, fun hshares => ?_⟩⟩
    · rintro ⟨c, hc, hmem⟩
      obtain ⟨s, hs, hcommon⟩ := hcs.source c hc
      exact .branchLeft hb hs ((hcommon.member v hv).mp hmem)
    · obtain ⟨s, hs, hshares⟩ := hshares.exists_left hbs
      obtain ⟨c, hc, hcommon⟩ := hcs.covers s hs hshares.overlap
      exact ⟨c, hc, (hcommon.member v hv).mpr hshares⟩

end

end Schema
end Schemata
