import Schemata.Proofs.Schema.Domains
import Schemata.Proofs.Schema.References
import Schemata.Proofs.Validation.Keeping

/-! Accepted values lie in the domains of their schema, whatever its names lead to. The domains cut a chain of names
where a name comes up again, and a check accepts where a name is being followed on the value already. Either way such
names vouch for one another, so their room for a domain is a greatest fixed point. -/
namespace Schemata
namespace Schema

variable {X Y : Ref → Prop} {d : Domain} {s : Schema}

/-- The form of the schema has room for values of the domain, when that is taken for granted of the names in `X`. -/
inductive RoomFor (X : Ref → Prop) (d : Domain) : Schema → Prop
  | keyword {k : Keyword} : k.domains d = true → RoomFor X d (.keyword k)
  | literal {w : Value} : w.domain = d → RoomFor X d (.literal w)
  | constrained {s : Schema} {cs : List Constraint} : RoomFor X d s → RoomFor X d (.constrained s cs)
  | union {bs : List Schema} {s : Schema} : s ∈ bs → RoomFor X d s → RoomFor X d (.union bs)
  | intersection {ms : List Schema} : (∀ s ∈ ms, RoomFor X d s) → RoomFor X d (.intersection ms)
  | ref {r : Ref} : X r → RoomFor X d (.ref r)
  | object {o : ObjectShape Schema} : d = .object → RoomFor X d (.object o)
  | tuple {es : List (Element Schema)} : d = .array → RoomFor X d (.tuple es)

theorem RoomFor.mono (hXY : ∀ r, X r → Y r) (h : s.RoomFor X d) : s.RoomFor Y d := by
  induction h with
  | keyword h => exact .keyword h
  | literal h => exact .literal h
  | constrained _ ih => exact .constrained ih
  | union hs _ ih => exact .union hs ih
  | intersection _ ih => exact .intersection ih
  | ref hr => exact .ref (hXY _ hr)
  | object h => exact .object h
  | tuple h => exact .tuple h

/-- The domain is among those that are known, if any are. -/
def Covered (d : Domain) (ds : Option DomainSet) : Prop := ∀ e, ds = some e → e d = true

section Follow

variable {known : Ref → Prop} {follow : Ref → Except Fault (Option DomainSet)}

theorem unionDomains_covered {bs : List Schema}
    (h : ∀ s ∈ bs, ∃ ds, s.domainsWith follow = .ok ds ∧ (s.RoomFor X d → Covered d ds)) :
    ∃ ds, unionDomains follow bs = .ok ds ∧ ((union bs).RoomFor X d → Covered d ds) := by
  induction bs with
  | nil =>
    refine ⟨_, rfl, fun hroom => ?_⟩
    cases hroom with
    | union hs => simp at hs
  | cons s bs ih =>
    rw [List.forall_mem_cons] at h
    obtain ⟨ds, hds, hcov⟩ := h.1
    obtain ⟨es, hes, hrest⟩ := ih h.2
    simp only [unionDomains, hds, hes, bind, Except.bind]
    cases ds with
    | none => exact ⟨none, rfl, fun _ e he => by simp at he⟩
    | some f =>
      refine ⟨es.map f.union, rfl, fun hroom e he => ?_⟩
      obtain ⟨g, rfl, rfl⟩ := Option.map_eq_some_iff.mp he
      simp only [DomainSet.union, Bool.or_eq_true]
      cases hroom with
      | union hmem hroom =>
        rcases List.mem_cons.mp hmem with rfl | hmem
        · exact Or.inl (hcov hroom f rfl)
        · exact Or.inr (hrest (.union hmem hroom) g rfl)

theorem memberDomains_covered {ms : List Schema}
    (h : ∀ s ∈ ms, ∃ ds, s.domainsWith follow = .ok ds ∧ (s.RoomFor X d → Covered d ds)) :
    ∃ l, memberDomains follow ms = .ok l ∧ ((∀ s ∈ ms, s.RoomFor X d) → ∀ ds ∈ l, Covered d ds) := by
  induction ms with
  | nil => exact ⟨[], rfl, by simp⟩
  | cons s ms ih =>
    rw [List.forall_mem_cons] at h
    obtain ⟨ds, hds, hcov⟩ := h.1
    obtain ⟨l, hl, hrest⟩ := ih h.2
    refine ⟨ds :: l, by simp [memberDomains, hds, hl, bind, Except.bind, pure, Except.pure], fun hroom => ?_⟩
    rw [List.forall_mem_cons] at hroom ⊢
    exact ⟨hcov hroom.1, hrest hroom.2⟩

/-- Domains can be told when they can be told of the references, and cover what the schema has room for. -/
theorem domainsWith_covered
    (hfollow : ∀ r, known r → ∃ ds, follow r = .ok ds ∧ (X r → Covered d ds)) (hs : s.Into known) :
    ∃ ds, s.domainsWith follow = .ok ds ∧ (s.RoomFor X d → Covered d ds) := by
  induction s using induction_on_parts with
  | _ s ih =>
    have ih : ∀ t ∈ s.parts, ∃ ds, t.domainsWith follow = .ok ds ∧ (t.RoomFor X d → Covered d ds) :=
      fun t ht => ih t ht (hs.part ht)
    have known : ∀ {e : DomainSet}, (s.RoomFor X d → e d = true) → s.RoomFor X d → Covered d (some e) :=
      fun h hroom _ he => Option.some.inj he ▸ h hroom
    cases s with
    | keyword k =>
      refine ⟨_, rfl, known fun hroom => ?_⟩
      cases hroom with
      | keyword h => exact h
    | literal w =>
      refine ⟨_, rfl, known fun hroom => ?_⟩
      cases hroom with
      | literal h => simp [DomainSet.of, h]
    | constrained s cs =>
      obtain ⟨ds, hds, hcov⟩ := ih s (by simp [parts])
      refine ⟨ds, hds, fun hroom => ?_⟩
      cases hroom with
      | constrained hroom => exact hcov hroom
    | union bs => exact unionDomains_covered ih
    | intersection ms =>
      obtain ⟨l, hl, hcov⟩ := memberDomains_covered fun t (ht : t ∈ ms) => ih t ht
      refine ⟨meetKnown l, by simp [domainsWith, hl, bind, Except.bind, pure, Except.pure], fun hroom => ?_⟩
      cases hroom with
      | intersection hroom => exact meetKnown_holds fun e he => hcov hroom _ he e rfl
    | ref r =>
      obtain ⟨ds, hds, hcov⟩ := hfollow r (into_ref.mp hs)
      refine ⟨ds, hds, fun hroom => ?_⟩
      cases hroom with
      | ref hr => exact hcov hr
    | object o =>
      refine ⟨_, rfl, known fun hroom => ?_⟩
      cases hroom with
      | object h => simp [DomainSet.of, h]
    | tuple es =>
      refine ⟨_, rfl, known fun hroom => ?_⟩
      cases hroom with
      | tuple h => simp [DomainSet.of, h]

end Follow

end Schema

namespace Env

variable {env : Env} {known : Ref → Prop} {d : Domain} {s : Schema}

theorem domainsWithin_covered (hcomplete : env.Complete known) {X : Ref → Prop}
    (hX : ∀ r, X r → ∃ t, env.target r = .filled t ∧ t.RoomFor X d) (fuel : Nat) (seen : List Ref)
    (hs : s.Into known) :
    ∃ ds, env.domainsWithin fuel seen s = .ok ds ∧ (s.RoomFor X d → Schema.Covered d ds) := by
  induction fuel generalizing seen s with
  | zero => exact Schema.domainsWith_covered (fun r _ => ⟨none, rfl, fun _ e he => by simp at he⟩) hs
  | succ fuel ih =>
    refine Schema.domainsWith_covered (fun r hr => ?_) hs
    split_ifs
    · exact ⟨none, rfl, fun _ e he => by simp at he⟩
    · obtain ⟨t, ht, hinto⟩ := hcomplete r hr
      obtain ⟨ds, hds, hcov⟩ := ih (r :: seen) hinto
      refine ⟨ds, by simp [resolve?, ht, hds, bind, Except.bind], fun hr => ?_⟩
      obtain ⟨u, hu, hroom⟩ := hX r hr
      obtain rfl : u = t := Target.filled.inj (hu.symm.trans ht)
      exact hcov hroom

/-- The domains of a schema can be told. -/
theorem domains?_answers (hcomplete : env.Complete known) (hs : s.Into known) : ∃ ds, env.domains? s = .ok ds := by
  obtain ⟨ds, hds, -⟩ := domainsWithin_covered (X := fun _ => False) (d := .null) hcomplete (fun _ h => h.elim)
    (env.slotCount + 1) [] hs
  exact ⟨ds, hds⟩

/-- The schema has room for the domain, and so have the definitions that this rests on, apart from those of the names in
`A`. -/
def Supports (env : Env) (A : Ref → Prop) (d : Domain) (s : Schema) : Prop :=
  ∃ X : Ref → Prop, (∀ r, X r → A r ∨ ∃ t, env.target r = .filled t ∧ t.RoomFor X d) ∧ s.RoomFor X d

namespace Supports

variable {A B : Ref → Prop} {r : Ref} {t : Schema}

theorem mono (hAB : ∀ r, A r → B r) (h : env.Supports A d s) : env.Supports B d s := by
  obtain ⟨X, hX, hroom⟩ := h
  exact ⟨X, fun r hr => (hX r hr).imp_left (hAB r), hroom⟩

/-- What takes nothing for granted. -/
theorem of_room (h : s.RoomFor (fun _ => False) d) : env.Supports A d s := ⟨_, fun _ => False.elim, h⟩

/-- What rests on one schema and keeps its room is supported with it. -/
theorem lift (h : env.Supports A d s) (hst : ∀ X, s.RoomFor X d → t.RoomFor X d) : env.Supports A d t := by
  obtain ⟨X, hX, hroom⟩ := h
  exact ⟨X, hX, hst X hroom⟩

theorem intersection_cons {ms : List Schema} (hs : env.Supports A d s) (hms : env.Supports A d (.intersection ms)) :
    env.Supports A d (.intersection (s :: ms)) := by
  obtain ⟨X, hX, hroom⟩ := hs
  obtain ⟨Y, hY, hrest⟩ := hms
  have left : ∀ r, X r → X r ∨ Y r := fun _ => Or.inl
  have right : ∀ r, Y r → X r ∨ Y r := fun _ => Or.inr
  refine ⟨fun r => X r ∨ Y r, ?_, ?_⟩
  · rintro r (hr | hr)
    · exact (hX r hr).imp_right fun ⟨t, ht, hroom⟩ => ⟨t, ht, hroom.mono left⟩
    · exact (hY r hr).imp_right fun ⟨t, ht, hroom⟩ => ⟨t, ht, hroom.mono right⟩
  · cases hrest with
    | intersection hrest =>
      exact .intersection (List.forall_mem_cons.mpr ⟨hroom.mono left, fun m hm => (hrest m hm).mono right⟩)

/-- A name that is being followed is taken for granted. -/
theorem followed (hr : A r) : env.Supports A d (.ref r) :=
  ⟨fun q => q = r, fun _ hq => Or.inl (hq ▸ hr), .ref rfl⟩

/-- While its definition is looked at, a name is taken for granted: what comes out rests on the name itself. -/
theorem entered (ht : env.target r = .filled t)
    (h : env.Supports (fun q => A q ∨ (q.arena = r.arena ∧ q.handle = r.handle)) d t) :
    env.Supports A d (.ref r) := by
  obtain ⟨X, hX, hroom⟩ := h
  have more : ∀ q, X q → X q ∨ (q.arena = r.arena ∧ q.handle = r.handle) := fun _ => Or.inl
  refine ⟨fun q => X q ∨ (q.arena = r.arena ∧ q.handle = r.handle), ?_, .ref (Or.inr ⟨rfl, rfl⟩)⟩
  have itself : ∀ q : Ref, q.arena = r.arena ∧ q.handle = r.handle → env.target q = .filled t :=
    fun q hq => (target_congr hq.1 hq.2).trans ht
  rintro q (hq | hq)
  · rcases hX q hq with (hA | hslot) | ⟨u, hu, huroom⟩
    · exact Or.inl hA
    · exact Or.inr ⟨t, itself q hslot, hroom.mono more⟩
    · exact Or.inr ⟨u, hu, huroom.mono more⟩
  · exact Or.inr ⟨t, itself q hq, hroom.mono more⟩

end Supports

end Env

/-- The names that are being followed, on the value or around it. -/
def Visit.Follows (visit : Visit) (r : Ref) : Prop :=
  (r.arena, r.handle) ∈ visit.here ∨ ∃ i, ((r.arena, r.handle), i) ∈ visit.around

namespace Visit

variable {visit inner : Visit} {r q : Ref} {v : Value}

theorem Follows.renewed (h : visit.renewed.Follows r) : visit.Follows r := by
  rcases h with h | h
  · simp [Visit.renewed] at h
  · exact Or.inr h

theorem follows_of_enter_none (h : visit.enter? r v = none) : visit.Follows r := by
  unfold enter? at h
  cases hi : v.identity? with
  | none =>
    simp only [hi] at h
    split_ifs at h with hmem
    exact Or.inl (List.contains_iff_mem.mp hmem)
  | some i =>
    simp only [hi] at h
    split_ifs at h with hmem
    exact Or.inr ⟨i, List.contains_iff_mem.mp hmem⟩

theorem follows_of_enter_some (h : visit.enter? r v = some inner) (hq : inner.Follows q) :
    visit.Follows q ∨ (q.arena = r.arena ∧ q.handle = r.handle) := by
  have slots : (q.arena, q.handle) = (r.arena, r.handle) → q.arena = r.arena ∧ q.handle = r.handle := Prod.mk.inj
  unfold enter? at h
  cases hi : v.identity? with
  | none =>
    simp only [hi] at h
    split_ifs at h
    obtain rfl := Option.some.inj h
    rcases hq with hq | hq
    · exact (List.mem_cons.mp hq).elim (fun heq => Or.inr (slots heq)) fun hq => Or.inl (Or.inl hq)
    · exact Or.inl (Or.inr hq)
  | some i =>
    simp only [hi] at h
    split_ifs at h
    obtain rfl := Option.some.inj h
    rcases hq with hq | ⟨j, hj⟩
    · exact Or.inl (Or.inl hq)
    · exact (List.mem_cons.mp hj).elim (fun heq => Or.inr (slots (Prod.mk.inj heq).1)) fun hj => Or.inl (Or.inr ⟨j, hj⟩)

end Visit

namespace Schema

variable {env : Env} {config : Config} {follow : Ref → Check} {s : Schema}

/-- An accepted value keeps its domain, and the schema has room for it. -/
def Vouches (env : Env) (c : Check) (s : Schema) : Prop :=
  ∀ visit v o, c visit v = .ok o → o.failures = [] →
    o.output.domain = v.domain ∧ env.Supports visit.Follows v.domain s

theorem conjunction_vouches {ms : List Schema} (h : ∀ s ∈ ms, Vouches env (s.checkWith env config follow) s) :
    Vouches env (.conjunction (ms.map fun s => s.checkWith env config follow)) (.intersection ms) := by
  induction ms with
  | nil =>
    intro visit v o ho _
    obtain rfl := Except.ok.inj ho
    exact ⟨rfl, .of_room (.intersection (by simp))⟩
  | cons s ms ih =>
    rw [List.forall_mem_cons] at h
    intro visit v o ho hok
    obtain ⟨p, q, hp, hq, rfl⟩ := Check.conjunction_cons_ok ho
    obtain ⟨hpok, hqok⟩ := List.append_eq_nil_iff.mp hok
    obtain ⟨hdom, hs⟩ := h.1 visit v p hp hpok
    obtain ⟨hdom', hms⟩ := ih h.2 _ _ q hq hqok
    refine ⟨hdom'.trans hdom, hs.intersection_cons (hdom ▸ hms.mono fun r hr => ?_)⟩
    split_ifs at hr
    · exact hr.renewed
    · exact hr

/-- A check vouches for its schema when the checks of references do. -/
theorem checkWith_vouches (hfollow : ∀ r, Vouches env (follow r) (.ref r)) (s : Schema) :
    Vouches env (s.checkWith env config follow) s := by
  induction s using induction_on_parts with
  | _ s ih =>
    cases s with
    | keyword k =>
      intro visit v o ho hok
      obtain rfl := Except.ok.inj ho
      exact ⟨rfl, .of_room (.keyword (Keyword.domains_of_holds (Check.keyword_isOk.mp (Outcome.isOk_iff.mpr hok))))⟩
    | literal w =>
      intro visit v o ho hok
      obtain ⟨rfl, hdomain, -⟩ := Check.literal_ok ho (Outcome.isOk_iff.mpr hok)
      exact ⟨rfl, .of_room (.literal hdomain.symm)⟩
    | constrained s cs =>
      intro visit v o ho hok
      obtain ⟨hbase, -⟩ := Check.constrained_ok ho (Outcome.isOk_iff.mpr hok)
      obtain ⟨hdom, hs⟩ := ih s (by simp [parts]) visit v o hbase hok
      exact ⟨hdom, hs.lift fun _ => .constrained⟩
    | union bs =>
      intro visit v o ho hok
      rw [checkWith, branchChecks_eq] at ho
      obtain ⟨b, hb, hrun⟩ := Check.union_ok ho (Outcome.isOk_iff.mpr hok)
      obtain ⟨t, ht, rfl⟩ := List.mem_map.mp hb
      obtain ⟨hdom, hs⟩ := ih t ht visit v o hrun hok
      exact ⟨hdom, hs.lift fun _ => .union ht⟩
    | intersection ms =>
      rw [checkWith, memberChecks_eq]
      exact conjunction_vouches ih
    | ref r => exact hfollow r
    | object o =>
      intro visit v out hout hok
      obtain ⟨ps, i, u⟩ := o
      obtain ⟨raw, _, _, hv, -, -, -, -, -, rfl⟩ := Check.object_ok hout (Outcome.isOk_iff.mpr hok)
      have hdom := Value.domain_of_entries hv
      exact ⟨hdom.symm, .of_room (.object hdom)⟩
    | tuple es =>
      intro visit v out hout hok
      obtain ⟨q, items, _, hv, -, -, -, rfl⟩ := Check.tuple_ok hout (Outcome.isOk_iff.mpr hok)
      have hdom := Value.domain_of_items hv
      refine ⟨?_, .of_room (.tuple hdom)⟩
      rw [hdom]
      exact Value.domain_of_items (Value.items?_make _ _)

end Schema

namespace Env

variable {env : Env} {config : Config} {known : Ref → Prop} {s : Schema} {v : Value}

/-- With one more reference to follow, a name that is met on a value for the first time is taken for granted while its
definition is checked. -/
theorem checkWithin_vouches (n : Nat) (s : Schema) : Schema.Vouches env (env.checkWithin config n s) s := by
  induction n generalizing s with
  | zero =>
    refine Schema.checkWith_vouches (fun r visit v o ho hok => ?_) s
    obtain rfl := Except.ok.inj ho
    simp [Outcome.fail] at hok
  | succ n ih =>
    refine Schema.checkWith_vouches (fun r visit v o ho hok => ?_) s
    obtain ⟨t, ht, ho⟩ := bind_ok ho
    cases hin : visit.enter? r v with
    | none =>
      rw [hin] at ho
      obtain rfl := Except.ok.inj ho
      exact ⟨rfl, .followed (Visit.follows_of_enter_none hin)⟩
    | some inner =>
      rw [hin] at ho
      obtain ⟨hdom, hsupports⟩ := ih t inner v o ho hok
      exact ⟨hdom, .entered (target_of_resolve ht) (hsupports.mono fun q => Visit.follows_of_enter_some hin)⟩

/-- An accepted value lies in the domains of its schema, if these are known. -/
theorem domains?_of_accepts (hcomplete : env.Complete known) (hs : s.Into known)
    (h : env.accepts config s v = .ok true) :
    ∃ ds, env.domains? s = .ok ds ∧ ∀ e, ds = some e → e v.domain = true := by
  obtain ⟨o, ho, hok⟩ := map_ok h
  obtain ⟨-, X, hX, hroom⟩ := checkWithin_vouches config.maxDepth s .root v o ho (Outcome.isOk_iff.mp hok)
  have hX : ∀ r, X r → ∃ t, env.target r = .filled t ∧ t.RoomFor X v.domain := fun r hr =>
    (hX r hr).resolve_left (by simp [Visit.Follows, Visit.root])
  obtain ⟨ds, hds, hcov⟩ := domainsWithin_covered hcomplete hX (env.slotCount + 1) [] hs
  exact ⟨ds, hds, hcov hroom⟩

/-- Two names for one another, and trees of texts. -/
def circles : Env :=
  ⟨bare.hooks, [⟨1, [some (.ref ⟨1, 1, "b"⟩), some (.ref ⟨1, 0, "a"⟩),
    some (.union [.keyword .string, .array (.ref ⟨1, 2, "tree"⟩)])], [("a", 0), ("b", 1), ("tree", 2)]⟩],
    .ok Config.default⟩

theorem domains?_of_accepts_circles :
    let s : Schema := .intersection [.ref ⟨1, 2, "tree"⟩, .constrained (.ref ⟨1, 0, "a"⟩) [.length ⟨none, some 2⟩]]
    let v : Value := .list [.string "x", .list []]
    circles.Complete (fun r => r.arena = 1 ∧ r.handle < 3) ∧ s.Into (fun r => r.arena = 1 ∧ r.handle < 3) ∧
      circles.accepts Config.default s v = .ok true ∧
      ∃ ds, circles.domains? s = .ok ds ∧ ∀ e, ds = some e → e v.domain = true := by
  intro s v
  have hcomplete : circles.Complete (fun r => r.arena = 1 ∧ r.handle < 3) := by
    rintro ⟨arena, handle, name⟩ ⟨rfl, hhandle⟩
    match handle, hhandle with
    | 0, _ => exact ⟨_, rfl, by simp⟩
    | 1, _ => exact ⟨_, rfl, by simp⟩
    | 2, _ => exact ⟨_, rfl, by simp⟩
  have hs : s.Into (fun r => r.arena = 1 ∧ r.handle < 3) := by simp [s]
  have haccepts : circles.accepts Config.default s v = .ok true := rfl
  exact ⟨hcomplete, hs, haccepts, domains?_of_accepts hcomplete hs haccepts⟩

end Env
end Schemata
