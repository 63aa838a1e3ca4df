import Schemata.Proofs.Algebra.Meets
import Schemata.Proofs.Constraint.Gathering
import Schemata.Proofs.Validation.Membership

/-! The intersection of keywords, literals and constrained schemas with others. -/
namespace Schemata

theorem Value.scalar_children {v : Value} (h : v.isScalar = true) : v.label? = none ∧ v.children = [] := by
  cases v <;> simp [isScalar, label?, children] at h ⊢

theorem Value.acyclic_of_scalar {v : Value} (h : v.isScalar = true) : v.Acyclic ∧ v.depth = 0 := by
  obtain ⟨hl, hc⟩ := scalar_children h
  refine ⟨acyclic_of_children hl (Or.inr hc) (by simp [hc]), ?_⟩
  cases v <;> simp [isScalar, Value.depth] at h ⊢

theorem Value.fields_of_scalar {v : Value} (h : v.isScalar = true) : v.fields? = none := by
  simp [fields?, entries_of_scalar h]

namespace Schema

variable {env : Env} {d : Dialect} {exact : Bool} {exactly : Prop} {a b : Schema}

/-- What a literal stands for belongs to the same schemas. -/
theorem Member.of_twin {s : Schema} (hs : s.Every (Fits d)) (hg : env.Grounded d) {v w : Value}
    (hv : v.isScalar = true) (htwin : v.Twin w) (h : Member env exact s v) : Member env exact s w := by
  induction h with
  | keyword h => exact .keyword ((htwin.holds _).mp h)
  | literal h =>
    refine member_literal.mpr ((Value.twin_iff hs.root).mpr ?_)
    exact ((Value.twin_iff hs.root).mp h).trans htwin
  | constrained h hcs ih =>
    exact .constrained (ih hs.base hv htwin) fun c hc => (htwin.accepts (hs.root c hc)).mp (hcs c hc)
  | union ht h ih => exact .union ht (ih (hs.branch ht) hv htwin)
  | intersection h ih => exact .intersection fun t ht => ih t ht (hs.member ht) hv htwin
  | ref hr h ih =>
    obtain ⟨t, ht, -, hfit⟩ := hg.resolve hs.root
    obtain rfl := Except.ok.inj (hr.symm.trans ht)
    exact .ref hr (ih hfit hv htwin)
  | object hf _ _ _ =>
    rw [Value.fields_of_scalar hv] at hf
    simp at hf
  | tuple hi _ _ =>
    rw [Value.items_of_scalar hv] at hi
    simp at hi

/-- Trial runs go by exact optional properties, and where the intersection is exact they take place. -/
structure Tries (env : Env) (exactly : Prop) : Prop where
  optional : ∀ c, env.trial = .ok c → c.exactOptional = true
  takesPlace : exactly → ∃ c, env.trial = .ok c

/-- A trial run on a literal's value tells whether it belongs to the schema. -/
theorem admits_spec (hg : env.Grounded d) (htry : Tries env exactly) {s : Schema} (hs : s.Every (Fits d)) {v : Value}
    (hv : v.isScalar = true) :
    Ends (env.admits s v) (fun r => r = true ↔ s.Member env true v) fun _ => ¬ exactly := by
  unfold Env.admits
  cases htrial : env.trial with
  | error e =>
    intro he
    obtain ⟨c, hc⟩ := htry.takesPlace he
    simp [htrial] at hc
  | ok c =>
    have hoptional := htry.optional c htrial
    obtain ⟨hacyclic, hdepth⟩ := Value.acyclic_of_scalar hv
    have hmarker : v.MarkerFree := Value.throughout_of_children (Value.scalar_children hv).1
      (fun es hes => by simp [Value.fields_of_scalar hv] at hes) (by simp [(Value.scalar_children hv).2])
    have hdecides : Decides (env.accepts c s v) (s.Member env c.exactOptional v) :=
      Env.accepts_decides hg (fun _ => hoptional) hs (fun _ => ⟨hacyclic, by omega⟩) fun _ => hmarker
    obtain ⟨r, hr, hiff⟩ := hdecides
    rw [hoptional] at hiff
    show Ends (env.accepts c s v) _ _
    rw [hr]
    exact hiff

/-- A literal meets a schema by the test whether it belongs to it. -/
theorem meetLiteral (hg : env.Grounded d) (htry : Tries env exactly) {v : Value}
    (hv : v.isScalar = true) (hb : b.Every (Fits d)) :
    Meeting env d exactly (.literal v) b (env.meetLiteral (.literal v) v b) := by
  have twins : ∀ {w : Value}, Member env true (.literal v) w → (b.Member env true v ↔ b.Member env true w) := by
    intro w hw
    have htwin := (member_literal_iff hv).mp hw
    exact ⟨Member.of_twin hb hg hv htwin, Member.of_twin hb hg (htwin.isScalar hv) htwin.symm⟩
  have fits : (literal v).Every (Fits d) := .intro hv nofun
  unfold Env.meetLiteral
  refine Compose.Yields.bind (.lift ((admits_spec hg htry hb hv).mono (fun _ h => h) fun _ hno he =>
    absurd he hno)) fun r hr => ?_
  cases r with
  | true =>
    rw [if_pos rfl]
    refine .pure (Meets.left fits (fun _ => .intro ⟨hv, trivial⟩ nofun) fun w _ hw => ?_)
    exact (twins hw).mp (hr.mp rfl)
  | false =>
    rw [if_neg (by simp)]
    refine Meeting.unsatisfiable fun _ w _ _ hw hb => ?_
    simpa using hr.mpr ((twins hw).mpr hb)

theorem member_split {s : Schema} {v : Value} : Member env exact s v ↔
    Member env exact s.split.1 v ∧ ∀ c ∈ s.split.2, c.Accepts v := by
  cases s <;> simp [split]

theorem fits_split {s : Schema} (hs : s.Every (Fits d)) : s.split.1.Every (Fits d) ∧ ∀ c ∈ s.split.2, c.Plain := by
  cases s with
  | constrained t cs => exact ⟨hs.base, hs.root⟩
  | _ => exact ⟨hs, by simp [split]⟩

theorem member_constrain {s : Schema} {cs : List Constraint} {v : Value} :
    Member env exact (s.constrain cs) v ↔ Member env exact s v ∧ ∀ c ∈ cs, c.Accepts v := by
  unfold constrain
  split
  · simp
  · simp only [member_constrained, List.forall_mem_append, and_assoc]
  · exact member_constrained

theorem every_constrain {p : Schema → Prop} {s : Schema} {cs : List Constraint} (hs : s.Every p)
    (hp : ∀ (t : Schema) (ds : List Constraint), (t = s ∨ ∃ es, s = .constrained t es) →
      ds ⊆ cs ++ s.split.2 → p (.constrained t ds)) : (s.constrain cs).Every p := by
  unfold constrain
  split
  · exact hs
  · rename_i inner old _
    refine .intro (hp inner _ (Or.inr ⟨old, rfl⟩) fun c hc => ?_) fun t ht => hs.part ht
    simpa [split, or_comm] using hc
  · refine .intro (hp _ _ (Or.inl rfl) (List.subset_append_left _ _)) fun t ht => ?_
    obtain rfl := List.mem_singleton.mp ht
    exact hs

theorem fits_constrain {s : Schema} {cs : List Constraint} (hs : s.Every (Fits d)) (hcs : ∀ c ∈ cs, c.Plain) :
    (s.constrain cs).Every (Fits d) := by
  refine every_constrain hs fun t ds _ hds c hc => ?_
  rcases List.mem_append.mp (hds hc) with h | h
  · exact hcs c h
  · exact (fits_split hs).2 c h

theorem orderly_constrain {s : Schema} {cs : List Constraint} (hs : s.Orderly d) (hbroad : s.Broad)
    (hcs : ∀ c ∈ cs, c.Plain) : (s.constrain cs).Orderly d := by
  have hfits := hs.mono fun _ h => h.1
  refine every_constrain hs fun t ds ht hds => ⟨fun c hc => ?_, ?_⟩
  · rcases List.mem_append.mp (hds hc) with h | h
    · exact hcs c h
    · exact (fits_split hfits).2 c h
  · rcases ht with rfl | ⟨es, rfl⟩
    · exact hbroad
    · exact hs.root.2

/-- Constrained schemas meet by their bases and their constraints. -/
theorem meetConstrained {meet : Schema → Schema → Compose Schema} (ha : a.Every (Fits d)) (hb : b.Every (Fits d))
    (hmeet : Meeting env d exactly a.split.1 b.split.1 (meet a.split.1 b.split.1))
    (hbroad : (meet a.split.1 b.split.1).Yields (fun c => exactly → c.Broad) fun _ => True) :
    Meeting env d exactly a b (Env.meetConstrained meet a b) := by
  obtain ⟨-, hca⟩ := fits_split ha
  obtain ⟨-, hcb⟩ := fits_split hb
  have hplain : ∀ c ∈ a.split.2 ++ b.split.2, c.Plain := List.forall_mem_append.mpr ⟨hca, hcb⟩
  unfold Env.meetConstrained
  refine Compose.Yields.bind ((hmeet.and hbroad).mono (fun _ h => h) ?_) fun base ⟨hbase, hbroad⟩ => ?_
  · rintro e ⟨he, -⟩ hexact
    refine ⟨(he hexact).1, fun v hv hn hva hvb => ?_⟩
    exact (he hexact).2 v hv hn (member_split.mp hva).1 (member_split.mp hvb).1
  · refine Compose.Yields.bind (.lift ((Constraint.gatherAll_spec hplain).mono (fun _ h => h) ?_))
      fun gs ⟨hgs, hiff⟩ => .pure ?_
    · rintro e ⟨⟨c, d, rfl⟩, hno⟩ _
      refine ⟨rfl, fun v hv hn hva hvb => hno v hn.here ?_⟩
      exact List.forall_mem_append.mpr ⟨(member_split.mp hva).2, (member_split.mp hvb).2⟩
    · refine ⟨fits_constrain hbase.fits hgs, fun v hv hmem => ?_,
        fun he => orderly_constrain (hbase.orderly he) (hbroad he) hgs, fun he v hv hn hva hvb => ?_⟩
      · obtain ⟨hmem, hall⟩ := member_constrain.mp hmem
        obtain ⟨hall₁, hall₂⟩ := List.forall_mem_append.mp ((hiff v).mp hall)
        exact ⟨member_split.mpr ⟨(hbase.sound v hv hmem).1, hall₁⟩, member_split.mpr ⟨(hbase.sound v hv hmem).2, hall₂⟩⟩
      · obtain ⟨hma, hall₁⟩ := member_split.mp hva
        obtain ⟨hmb, hall₂⟩ := member_split.mp hvb
        exact member_constrain.mpr ⟨hbase.complete he v hv hn hma hmb,
          (hiff v).mpr (List.forall_mem_append.mpr ⟨hall₁, hall₂⟩)⟩

/-- Of two keywords with a common domain one contains the other. -/
theorem below_of_overlap {k l : Keyword} (h : (k.domains.inter l.domains).isEmpty = false) :
    Below (.keyword k) (.keyword l) ∨ Below (.keyword l) (.keyword k) := by
  have : (k = l ∨ l ≠ .integer ∧ k.domains.subset l.domains = true) ∨
      (l = k ∨ k ≠ .integer ∧ l.domains.subset k.domains = true) := by
    revert h
    cases k <;> cases l <;> decide
  exact this.imp .keyword .keyword

/-- Keywords, objects and tuples. -/
def Core (s : Schema) : Prop := (∃ k, s = .keyword k) ∨ s.isStructure = true

theorem Core.broad {s : Schema} (h : s.Core) : s.Broad := by
  rcases h with ⟨k, rfl⟩ | h
  · exact .keyword k
  · exact .structured h

/-- One of two schemas is the intersection, and the other one contains it. -/
def Smaller (env : Env) (a b c : Schema) : Prop :=
  (c = a ∧ ∀ v, a.Member env true v → b.Member env true v) ∨ (c = b ∧ ∀ v, b.Member env true v → a.Member env true v)

/-- The domains of two schemas do not tell them apart. -/
def Touches (env : Env) (a b : Schema) : Prop :=
  ∀ d e, env.domains? a = .ok (some d) → env.domains? b = .ok (some e) → (d.inter e).isEmpty = false

/-- The error says of two schemas that their domains are apart, so that they have no common value at all. -/
def Disjoint (env : Env) (a b : Schema) (e : Fault) : Prop :=
  e.isUnsatisfiable = true ∧ ¬ Touches env a b ∧ ∀ v, a.Member env true v → ¬ b.Member env true v

theorem not_both_of_domains {x y : DomainSet} (ha : BoundedBy env exact a (some x)) (hb : BoundedBy env exact b (some y))
    (h : (x.inter y).isEmpty = true) {v : Value} (hva : a.Member env exact v) : ¬ b.Member env exact v := by
  intro hvb
  have hempty := List.all_eq_true.mp h v.domain (Domain.mem_all _)
  simp [DomainSet.inter, ha x rfl v hva, hb y rfl v hvb] at hempty

theorem keyword_bounded (k : Keyword) : BoundedBy env exact (.keyword k) (some k.domains) := by
  rintro _ ⟨⟩ v hv
  exact Keyword.domains_of_holds (member_keyword.mp hv)

theorem structure_domains {s : Schema} (hs : s.isStructure = true) :
    env.domains? s = .ok (some (.of [s.structureDomain])) := by
  cases s <;> first | rfl | simp [isStructure] at hs

theorem domain_of_structure {s : Schema} (hs : s.isStructure = true) {v : Value} (h : s.Member env exact v) :
    v.domain = s.structureDomain := by
  cases h with
  | object hf =>
    obtain ⟨raw, hraw⟩ := Value.entries_of_fields hf
    exact Value.domain_of_entries hraw
  | tuple hi => exact Value.domain_of_items hi
  | _ => simp [isStructure] at hs

/-- A keyword with the domain of an object or a tuple contains it. -/
theorem holds_of_overlap {s : Schema} (hs : s.isStructure = true) {k : Keyword}
    (h : (k.domains.inter (.of [s.structureDomain])).isEmpty = false) {v : Value} (hv : s.Member env exact v) :
    k.holds v = true := by
  have hdomain : k.domains v.domain = true := by
    rw [domain_of_structure hs hv]
    by_contra hno
    have : (k.domains.inter (.of [s.structureDomain])).isEmpty = true := by
      refine List.all_eq_true.mpr fun x _ => ?_
      by_cases hx : x = s.structureDomain
      · simp [DomainSet.inter, hx, Bool.eq_false_iff.mpr hno]
      · simp [DomainSet.inter, DomainSet.of, hx]
    simp [this] at h
  cases k with
  | integer =>
    rw [domain_of_structure hs hv] at hdomain
    cases s <;> simp [isStructure] at hs <;> simp [structureDomain, Keyword.domains, DomainSet.of] at hdomain
  | _ => exact hdomain

section Keywords

variable {meet : Schema → Schema → Compose Schema}

/-- The domains of two schemas are told apart before anything else. -/
theorem domainsFirst {rest : Compose Schema} {P : Schema → Prop} {Q : Fault → Prop} {x y : Option DomainSet}
    (hx : env.domains? a = .ok x) (hy : env.domains? b = .ok y)
    (ha : BoundedBy env true a x) (hb : BoundedBy env true b y)
    (hQ : ∀ e, Disjoint env a b e → Q e)
    (hrest : (∀ d e, x = some d → y = some e → (d.inter e).isEmpty = false) → rest.Yields P Q) :
    Compose.Yields (do
      let left ← env.domains? a
      let right ← env.domains? b
      let disjoint := match left, right with
        | some d, some e => (d.inter e).isEmpty
        | _, _ => false
      if disjoint then Compose.unsatisfiable a b .disjointDomains else rest) P Q := by
  rw [hx, hy]
  refine Compose.Yields.bind (P := fun o => o = x) (.lift rfl) ?_
  rintro _ rfl
  refine Compose.Yields.bind (P := fun o => o = y) (.lift rfl) ?_
  rintro _ rfl
  dsimp only
  split_ifs with hdisjoint
  · refine .throw (hQ _ ⟨rfl, fun htouch => ?_, fun v hva => ?_⟩)
    · split at hdisjoint
      · simp [htouch _ _ hx hy] at hdisjoint
      · simp at hdisjoint
    · split at hdisjoint
      · exact not_both_of_domains ha hb hdisjoint hva
      · simp at hdisjoint
  · refine hrest fun d e hd he => ?_
    subst hd he
    simpa using hdisjoint

theorem meetKeywords (k l : Keyword) : (env.meetPlain meet (.keyword k) (.keyword l)).Yields
    (Smaller env (.keyword k) (.keyword l)) (Disjoint env (.keyword k) (.keyword l)) := by
  have orderly : ∀ k : Keyword, (keyword k).Orderly Dialect.plain := fun k => .intro ⟨trivial, trivial⟩ nofun
  unfold Env.meetPlain
  refine domainsFirst (x := some k.domains) (y := some l.domains) rfl rfl (keyword_bounded k) (keyword_bounded l)
    (fun _ h => h) fun hoverlap => ?_
  have left : Decides (env.isSubset (.keyword k) (.keyword l)) (Below (.keyword k) (.keyword l)) :=
    Env.isSubset_decides (orderly k) (orderly l)
  have right : Decides (env.isSubset (.keyword l) (.keyword k)) (Below (.keyword l) (.keyword k)) :=
    Env.isSubset_decides (orderly l) (orderly k)
  dsimp only
  by_cases hkl : Below (.keyword k) (.keyword l)
  · rw [left.eq_true hkl]
    refine Compose.Yields.bind (P := fun r => r = true) (.lift rfl) ?_
    rintro _ rfl
    exact .pure (Or.inl ⟨rfl, fun v hv => Env.member_of_below (orderly k) (orderly l) hkl hv⟩)
  · have hlk := (below_of_overlap (hoverlap _ _ rfl rfl)).resolve_left hkl
    rw [left.eq_false hkl, right.eq_true hlk]
    refine Compose.Yields.bind (P := fun r => r = false) (.lift rfl) ?_
    rintro _ rfl
    refine Compose.Yields.bind (P := fun r => r = true) (.lift rfl) ?_
    rintro _ rfl
    exact .pure (Or.inr ⟨rfl, fun v hv => Env.member_of_below (orderly l) (orderly k) hlk hv⟩)

theorem structure_bounded {s : Schema} (hs : s.isStructure = true) :
    BoundedBy env exact s (some (.of [s.structureDomain])) := by
  rintro _ ⟨⟩ v hv
  simp [domain_of_structure hs hv, DomainSet.of]

/-- An object or a tuple is the intersection with a keyword that has its domain. -/
theorem meetKeyword_structure (k : Keyword) {s : Schema} (hs : s.isStructure = true) :
    (env.meetPlain meet (.keyword k) s).Yields (Smaller env (.keyword k) s) (Disjoint env (.keyword k) s) := by
  unfold Env.meetPlain
  refine domainsFirst (x := some k.domains) rfl (structure_domains hs) (keyword_bounded k) (structure_bounded hs)
    (fun _ h => h) fun hoverlap => ?_
  have hsmaller : Smaller env (.keyword k) s s :=
    Or.inr ⟨rfl, fun v hv => .keyword (holds_of_overlap hs (hoverlap _ _ rfl rfl) hv)⟩
  cases s with
  | object o => exact .pure hsmaller
  | tuple es => exact .pure hsmaller
  | _ => simp [isStructure] at hs

theorem meetStructure_keyword (k : Keyword) {s : Schema} (hs : s.isStructure = true) :
    (env.meetPlain meet s (.keyword k)).Yields (Smaller env s (.keyword k)) (Disjoint env s (.keyword k)) := by
  unfold Env.meetPlain
  refine domainsFirst (y := some k.domains) (structure_domains hs) rfl (structure_bounded hs) (keyword_bounded k)
    (fun _ h => h) fun hoverlap => ?_
  have hcomm : k.domains.inter (.of [s.structureDomain]) = DomainSet.inter (.of [s.structureDomain]) k.domains :=
    funext fun x => Bool.and_comm _ _
  have hsmaller : Smaller env s (.keyword k) s :=
    Or.inl ⟨rfl, fun v hv => .keyword (holds_of_overlap hs (hcomm ▸ hoverlap _ _ rfl rfl) hv)⟩
  cases s with
  | object o => exact .pure hsmaller
  | tuple es => exact .pure hsmaller
  | _ => simp [isStructure] at hs

end Keywords

end Schema
end Schemata
