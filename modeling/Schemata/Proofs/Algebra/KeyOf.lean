import Schemata.Algebra.KeyOf
import Schemata.Proofs.Algebra.Union
import Schemata.Proofs.Validation.Outputs

/-! Schemas of keys. A key belongs to a schema when nothing in the schema refuses it, whatever errors other branches
stop with: what the schema accepts belongs to it, and what belongs to it is not refused. The keys of a schema hold
a key only if each branch of a union, and some member of an intersection, has it. -/
namespace Schemata

namespace Schema

/-- The value belongs to the schema, which looks into no container. -/
inductive HasKey (hooks : Hooks) (v : Value) : Schema → Prop
  | keyword {k : Keyword} : k.holds v = true → HasKey hooks v (.keyword k)
  | literal {w : Value} : v.domain = w.domain ∧ w.literalEqual v = true → HasKey hooks v (.literal w)
  | constrained {s : Schema} {cs : List Constraint} : HasKey hooks v s → (∀ c ∈ cs, c.Passes hooks v) →
      HasKey hooks v (.constrained s cs)
  | union {bs : List Schema} {s : Schema} : s ∈ bs → HasKey hooks v s → HasKey hooks v (.union bs)
  | intersection {ms : List Schema} : (∀ s ∈ ms, HasKey hooks v s) → HasKey hooks v (.intersection ms)

section Rules

variable {hooks : Hooks} {v w : Value} {s t : Schema} {bs ms : List Schema}

@[simp] theorem hasKey_keyword {k : Keyword} : HasKey hooks v (.keyword k) ↔ k.holds v = true :=
  ⟨fun h => by cases h; assumption, .keyword⟩

@[simp] theorem hasKey_literal : HasKey hooks v (.literal w) ↔ v.domain = w.domain ∧ w.literalEqual v = true :=
  ⟨fun h => by cases h; assumption, .literal⟩

@[simp] theorem hasKey_constrained {cs : List Constraint} :
    HasKey hooks v (.constrained s cs) ↔ HasKey hooks v s ∧ ∀ c ∈ cs, c.Passes hooks v :=
  ⟨fun h => by cases h; exact ⟨‹_›, ‹_›⟩, fun h => .constrained h.1 h.2⟩

@[simp] theorem hasKey_union : HasKey hooks v (.union bs) ↔ ∃ s ∈ bs, HasKey hooks v s :=
  ⟨fun h => by cases h; exact ⟨_, ‹_›, ‹_›⟩, fun ⟨_, hs, h⟩ => .union hs h⟩

@[simp] theorem hasKey_intersection : HasKey hooks v (.intersection ms) ↔ ∀ s ∈ ms, HasKey hooks v s :=
  ⟨fun h => by cases h; assumption, .intersection⟩

theorem hasKey_branches : (∃ t ∈ s.branches, HasKey hooks v t) ↔ HasKey hooks v s := by
  cases s <;> simp [branches]

theorem hasKey_ofBranches : HasKey hooks v (ofBranches bs) ↔ ∃ t ∈ bs, HasKey hooks v t := by
  unfold ofBranches
  split <;> simp

theorem mem_memberDomains {follow : Ref → Except Fault (Option DomainSet)} {ds : List (Option DomainSet)}
    (h : memberDomains follow ms = .ok ds) {d : Option DomainSet} (hd : d ∈ ds) :
    ∃ s ∈ ms, s.domainsWith follow = .ok d := by
  induction ms generalizing ds with
  | nil =>
    obtain rfl := Except.ok.inj h
    simp at hd
  | cons s ms ih =>
    obtain ⟨first, rest, hfirst, hrest, rfl⟩ := combine_ok h
    rcases List.mem_cons.mp hd with rfl | hd
    · exact ⟨s, by simp, hfirst⟩
    · obtain ⟨t, ht, h⟩ := ih hrest hd
      exact ⟨t, List.mem_cons_of_mem _ ht, h⟩

/-- A key that belongs to a schema lies in its domains, when they are known. -/
theorem domain_of_hasKey {follow : Ref → Except Fault (Option DomainSet)} {d : DomainSet}
    (hd : s.domainsWith follow = .ok (some d)) (h : s.HasKey hooks v) : d v.domain = true := by
  induction h generalizing d with
  | keyword h =>
    obtain rfl := Option.some.inj (Except.ok.inj hd)
    exact Keyword.domains_of_holds h
  | literal h =>
    obtain rfl := Option.some.inj (Except.ok.inj hd)
    simp [DomainSet.of, h.1]
  | constrained _ _ ih => exact ih hd
  | union hs _ ih =>
    obtain ⟨e, he, hle⟩ := unionDomains_branch hd hs
    exact hle _ (ih he)
  | intersection _ ih =>
    obtain ⟨ds, hds, hmeet⟩ := bind_ok hd
    refine meetKnown_holds (fun e he => ?_) d (Except.ok.inj hmeet)
    obtain ⟨s, hs, hdomains⟩ := mem_memberDomains hds he
    exact ih s hs hdomains

/-- Equal keys and constraints aside, schemas that nothing tells apart have the same keys. -/
theorem hasKey_alike {env : Env} (hv : v.IsKey) (hst : Alike (.keys False) s t) :
    s.HasKey env.hooks v ↔ t.HasKey env.hooks v := by
  have suits : (Likeness.keys False).Suits env .default .default fun v w => v = w ∧ v.IsKey :=
    Likeness.keys_suits env .default .default
  have passes : ∀ c d, (Likeness.keys False).constraint c d → (c.Passes env.hooks v ↔ d.Passes env.hooks v) := by
    intro c d hcd
    have h := suits.constraint c d hcd v v ⟨rfl, hv⟩
    unfold Constraint.Passes
    cases hc : c.check env.hooks v <;> cases hd : d.check env.hooks v <;> simp [hc, hd, Agree] at h ⊢
    rw [h]
  refine Alike.induct (P := fun s t => s.HasKey env.hooks v ↔ t.HasKey env.hooks v) (fun s t hform hparts => ?_) hst
  cases s <;> cases t <;> simp only [Form] at hform
  case keyword.keyword => rw [hform]
  case literal.literal => simpa using suits.literal _ _ hform v v ⟨rfl, hv⟩
  case constrained.constrained s cs t ds =>
    obtain ⟨-, hbase⟩ := (List.forall₂_cons.mp hparts).1
    rw [hasKey_constrained, hasKey_constrained, hbase]
    exact and_congr_right fun _ => forall₂_all_iff hform fun c _ d _ => passes c d
  case union.union bs cs =>
    rw [hasKey_union, hasKey_union]
    exact forall₂_any_iff hparts fun _ _ _ _ h => h.2
  case intersection.intersection ms ns =>
    rw [hasKey_intersection, hasKey_intersection]
    exact forall₂_all_iff hparts fun _ _ _ _ h => h.2
  case ref.ref => exact hform.2.elim
  case object.object => exact iff_of_false (by rintro ⟨⟩) (by rintro ⟨⟩)
  case tuple.tuple => exact iff_of_false (by rintro ⟨⟩) (by rintro ⟨⟩)

end Rules

end Schema

/-- Where every member leaves the value as it is, the conjunction does too, and accepts it when all members do. -/
theorem Check.conjunction_unchanged {f : Schema → Check} {P : Schema → Prop} {ms : List Schema} {v : Value}
    (h : ∀ s ∈ ms, ∀ visit o, f s visit v = .ok o →
      o.output = v ∧ o.rebuilt = false ∧ (o.isOk = true ↔ P s))
    {visit : Visit} {o : Outcome} (hrun : conjunction (ms.map f) visit v = .ok o) :
    o.output = v ∧ o.rebuilt = false ∧ (o.isOk = true ↔ ∀ s ∈ ms, P s) := by
  induction ms generalizing visit o with
  | nil =>
    obtain rfl := Except.ok.inj hrun
    exact ⟨rfl, rfl, by simp [Outcome.isOk, Outcome.pass]⟩
  | cons s ms ih =>
    rw [List.forall_mem_cons] at h
    obtain ⟨p, hp, hrun⟩ := bind_ok hrun
    obtain ⟨hout, hrebuilt, hok⟩ := h.1 visit p hp
    obtain ⟨rest, hrest, hrun⟩ := bind_ok hrun
    rw [hout] at hrest
    obtain ⟨hrestout, hrestrebuilt, hrestok⟩ := ih h.2 hrest
    obtain rfl := Except.ok.inj hrun
    refine ⟨hrestout, by simp [hrebuilt, hrestrebuilt], ?_⟩
    rw [List.forall_mem_cons, ← hok, ← hrestok]
    simp [Outcome.isOk_iff]

namespace Schema

/-- What a check answers on a scalar: it puts the value out as it is, and accepts it when it belongs to the schema. -/
theorem outcome_of_scalar {env : Env} {config : Config} {follow : Ref → Check} {s : Schema} {visit : Visit} {v : Value}
    (hs : s.Every fun t => t.isRef = false) (hv : v.isScalar = true) {o : Outcome}
    (h : s.checkWith env config follow visit v = .ok o) :
    o.output = v ∧ o.rebuilt = false ∧ (o.isOk = true ↔ s.HasKey env.hooks v) := by
  induction s using induction_on_parts generalizing visit o with
  | _ s ih =>
    cases s with
    | keyword k =>
      obtain rfl := Except.ok.inj h
      exact ⟨rfl, rfl, Check.keyword_isOk.trans hasKey_keyword.symm⟩
    | literal w =>
      unfold checkWith Check.literal at h
      split_ifs at h with hequal <;> obtain rfl := Except.ok.inj h
      · exact ⟨rfl, rfl, iff_of_true rfl (.literal hequal)⟩
      · exact ⟨rfl, rfl, iff_of_false (by simp [Outcome.isOk, Outcome.fail]) fun h => hequal (hasKey_literal.mp h)⟩
    | constrained s cs =>
      obtain ⟨p, hp, h⟩ := bind_ok h
      obtain ⟨hout, hrebuilt, hok⟩ := ih s (by simp [parts]) hs.base hp
      rw [hasKey_constrained, ← hok]
      cases hpok : p.isOk with
      | false =>
        rw [hpok] at h
        obtain rfl := Except.ok.inj h
        exact ⟨hout, hrebuilt, by simp [hpok]⟩
      | true =>
        rw [hpok] at h
        obtain ⟨fs, hfs, h⟩ := bind_ok h
        obtain rfl := Except.ok.inj h
        refine ⟨hout, hrebuilt, ?_⟩
        rw [← hout, ← Check.constraintFailures_clean, hfs]
        simp [Outcome.isOk]
    | union bs =>
      rw [checkWith, branchChecks_eq] at h
      rw [hasKey_union]
      cases hok : o.isOk with
      | true =>
        obtain ⟨b, hb, hrun⟩ := Check.union_ok h hok
        obtain ⟨s, hmem, rfl⟩ := List.mem_map.mp hb
        obtain ⟨hout, hrebuilt, hiff⟩ := ih s hmem (hs.branch hmem) hrun
        exact ⟨hout, hrebuilt, iff_of_true rfl ⟨s, hmem, hiff.mp hok⟩⟩
      | false =>
        obtain ⟨hout, hrebuilt, hno⟩ := Check.union_refuses h hok
        refine ⟨hout, hrebuilt, iff_of_false Bool.false_ne_true ?_⟩
        rintro ⟨s, hmem, hkey⟩
        obtain ⟨p, hp, hpok⟩ := hno _ (List.mem_map_of_mem hmem)
        rw [(ih s hmem (hs.branch hmem) hp).2.2.mpr hkey] at hpok
        exact Bool.noConfusion hpok
    | intersection ms =>
      rw [checkWith, memberChecks_eq] at h
      rw [hasKey_intersection]
      exact Check.conjunction_unchanged (fun s hmem _ _ hrun => ih s hmem (hs.member hmem) hrun) h
    | ref r => exact Bool.noConfusion hs.root
    | object shape =>
      unfold checkWith Check.object at h
      rw [Value.entries_of_scalar hv] at h
      obtain rfl := Except.ok.inj h
      exact ⟨rfl, rfl, iff_of_false (by simp [Outcome.isOk, Outcome.fail]) (by rintro ⟨⟩)⟩
    | tuple es =>
      unfold checkWith Check.tuple at h
      rw [Value.items_of_scalar hv] at h
      obtain rfl := Except.ok.inj h
      exact ⟨rfl, rfl, iff_of_false (by simp [Outcome.isOk, Outcome.fail]) (by rintro ⟨⟩)⟩

end Schema

namespace Constraint

variable {hooks : Hooks} {v : Value} {c : Constraint} {cs : List Constraint}

/-- A constraint that others imply passes on every key on which they pass. -/
theorem passes_of_impliedBy (hv : v.IsKey) (hc : c.Written) (hcs : ∀ d ∈ cs, d.Written)
    (himplied : c.impliedBy cs = .ok true) (hpass : ∀ d ∈ cs, d.Passes hooks v) : c.Passes hooks v := by
  obtain ⟨d, hd, h⟩ := anyM_ok_true himplied
  clear himplied
  obtain ⟨verdict, hcheck, hvalid⟩ := hpass d hd
  split_ifs at h with hsame
  · have hlike : d.Like hooks (fun v w => v = w ∧ v.IsKey) c := Likeness.keys_constraint (hcs d hd) hc hsame
    have hlike := hlike v v ⟨rfl, hv⟩
    unfold Passes
    cases hrun : c.check hooks v <;> simp [hcheck, hrun, Agree] at hlike ⊢
    rw [← hlike, hvalid]
  · cases c <;> cases d <;> simp only [covers, Except.mapError, Except.ok.injEq, Bool.false_eq_true] at h
    case range.range r s =>
      obtain ⟨k, rfl⟩ := hv
      cases k <;>
        exact absurd hvalid (by rw [← Except.ok.inj hcheck]; simp [Range.wrongType, Verdict.isValid, Verdict.refuse])
    case length.length l m =>
      obtain rfl := Except.ok.inj hcheck
      obtain ⟨n, hn, hcontains⟩ := (m.check_isValid v).mp hvalid
      exact ⟨_, rfl, (l.check_isValid v).mpr ⟨n, hn, Length.contains_of_covers h hcontains⟩⟩

theorem passes_of_allAccept (h : allAccept hooks v cs = .ok true) : ∀ c ∈ cs, c.Passes hooks v := by
  intro c hc
  have hrun := allM_ok_true h c hc
  unfold Passes
  cases hcheck : c.check hooks v <;> simp [hcheck, Except.mapError, bind, Except.bind, pure, Except.pure] at hrun ⊢
  exact hrun

end Constraint

namespace Env

open Schema (HasKey)

variable {env : Env} {config : Config} {v : Value} {a b s u : Schema} {ss : List Schema}

section Subset

variable (hv : v.IsKey)
include hv

/-- The test on schemas that are no references and no unions is sound on keys when the test on their parts is. -/
theorem hasKey_of_plainWithin {sub : Schema → Schema → Except Fault Bool}
    (hsub : ∀ s t : Schema, s.Every (Schema.KeyNode False) → t.Every (Schema.KeyNode False) → sub s t = .ok true →
      s.HasKey env.hooks v → t.HasKey env.hooks v)
    (ha : a.Every (Schema.KeyNode False)) (hb : b.Every (Schema.KeyNode False)) (h : env.PlainGrounds sub a b)
    (hkey : a.HasKey env.hooks v) : b.HasKey env.hooks v := by
  cases h with
  | constrained hbase hall =>
    obtain ⟨hkey, hpass⟩ := Schema.hasKey_constrained.mp hkey
    refine .constrained (hsub _ _ ha.base hb.base hbase hkey) fun d hd => ?_
    exact Constraint.passes_of_impliedBy hv (hb.root d hd) ha.root (hall d hd) hpass
  | base hbase => exact hsub _ _ ha.base hb hbase (Schema.hasKey_constrained.mp hkey).1
  | accepted htarget hall =>
    obtain rfl := (hv.literalEqual_iff ha.root).mp (Schema.hasKey_literal.mp hkey).2
    exact .constrained (hsub _ _ ha hb.base htarget hkey) (Constraint.passes_of_allAccept hall)
  | integer hholds =>
    obtain rfl := (hv.literalEqual_iff ha.root).mp (Schema.hasKey_literal.mp hkey).2
    exact .keyword hholds
  | @domains _ k d hne hds hsubset =>
    have hd := DomainSet.subset_iff.mp hsubset _ (Schema.domain_of_hasKey hds hkey)
    refine .keyword ?_
    cases k with
    | integer => exact absurd rfl hne
    | _ => exact hd
  | literal _ hequal =>
    obtain rfl := (hv.literalEqual_iff ha.root).mp (Schema.hasKey_literal.mp hkey).2
    obtain rfl := hv.eq_of_literalEqual hequal
    exact hkey
  | object => cases hkey
  | tuple => cases hkey

theorem hasKey_of_subsetWithin {fuel : Nat} {seen : List (Schema × Schema)} (ha : a.Every (Schema.KeyNode False))
    (hb : b.Every (Schema.KeyNode False)) (h : env.subsetWithin fuel seen a b = .ok true)
    (hkey : a.HasKey env.hooks v) : b.HasKey env.hooks v := by
  induction fuel generalizing seen a b with
  | zero => simp [subsetWithin] at h
  | succ fuel ih =>
    have noRef : (a.isRef || b.isRef) = false := by rw [ha.root.not_isRef, hb.root.not_isRef, Bool.or_self]
    cases subsetWithin_grounds h with
    | same hsame => exact (Schema.hasKey_alike hv (Schema.keys_of_same ha hb hsame)).mp hkey
    | unknown => exact .keyword rfl
    | never => simp [Schema.never] at hkey
    | met href => simp [noRef] at href
    | behind href => simp [noRef] at href
    | branches hall =>
      obtain ⟨s, hs, hkey⟩ := Schema.hasKey_union.mp hkey
      exact ih (ha.branch hs) hb (hall s hs) hkey
    | members hall => exact .intersection fun t ht => ih ha (hb.member ht) (hall t ht) hkey
    | member hs hsub => exact ih (ha.member hs) hb hsub (Schema.hasKey_intersection.mp hkey _ hs)
    | branch ht hsub => exact .union ht (ih ha (hb.branch ht) hsub hkey)
    | plain hplain => exact hasKey_of_plainWithin hv (fun s t hs ht => ih hs ht) ha hb hplain hkey

/-- What is provably a subset has no keys of its own. -/
theorem hasKey_of_isSubset (ha : a.Every (Schema.KeyNode False)) (hb : b.Every (Schema.KeyNode False))
    (h : env.isSubset a b = .ok true) (hkey : a.HasKey env.hooks v) : b.HasKey env.hooks v :=
  hasKey_of_subsetWithin hv ha hb h hkey

/-- What has a key among the branches of a union comes from its operands. -/
theorem mem_of_mem_flat {t : Schema} (ht : t ∈ Schema.flat ss) (hkey : t.HasKey env.hooks v) :
    ∃ s ∈ ss, t ∈ s.branches := by
  refine (Schema.mem_flat ht).resolve_right ?_
  rintro ⟨rfl, -⟩
  obtain ⟨k, rfl⟩ := hv
  cases k <;> simp [Keyword.holds, Keyword.domains, DomainSet.of, Key.toValue, Value.domain] at hkey

/-- A union gains no keys. -/
theorem hasKey_of_union (h : env.union ss = .ok u) (hkey : u.HasKey env.hooks v) : ∃ s ∈ ss, s.HasKey env.hooks v := by
  obtain ⟨kept, hkept, h⟩ := bind_ok h
  obtain rfl := Except.ok.inj h
  obtain ⟨t, ht, hkey⟩ := Schema.hasKey_ofBranches.mp hkey
  obtain ⟨s, hs, hbranch⟩ := mem_of_mem_flat hv (pruned_subset hkept ht) hkey
  exact ⟨s, hs, Schema.hasKey_branches.mp ⟨t, hbranch, hkey⟩⟩

end Subset

/-- An answer on a key says whether it belongs to the schema. -/
theorem hasKey_of_accepts {b : Bool} (hs : s.Every (Schema.KeyNode False)) (hv : v.isScalar = true)
    (h : env.accepts config s v = .ok b) : b = true ↔ s.HasKey env.hooks v := by
  unfold accepts run at h
  rw [check_eq] at h
  cases hrun : s.checkWith env config (env.follow config) .root v with
  | error e => simp [hrun, Except.map] at h
  | ok o =>
    rw [hrun] at h
    rw [← Except.ok.inj h]
    exact (Schema.outcome_of_scalar (hs.mono fun _ => Schema.KeyNode.not_isRef) hv hrun).2.2

/-- A key that belongs to the schema is not refused in a trial. -/
theorem admits_of_hasKey (hs : s.Every (Schema.KeyNode False)) (hv : v.isScalar = true) (hkey : s.HasKey env.hooks v)
    {b : Bool} (h : env.admits s v = .ok b) : b = true := by
  obtain ⟨config, -, h⟩ := bind_ok h
  exact (hasKey_of_accepts hs hv h).mpr hkey

end Env

namespace ObjectShape

variable {o : ObjectShape Schema} {hooks : Hooks} {k : Key}

theorem mem_keySchemas {s : Schema} (hs : s ∈ o.keySchemas) :
    (∃ k ∈ o.keys, s = .literal k.toValue) ∨ ∃ i, o.index = some i ∧ s ∈ i.key.branches := by
  have literal : ∀ {indexed : List Schema} {keyword keep},
      s ∈ (if indexed.any (Schema.isKeyword keyword) then []
        else (o.keys.filter keep).map fun k => Schema.literal k.toValue) → ∃ k ∈ o.keys, s = .literal k.toValue := by
    intro indexed keyword keep hs
    split at hs
    · simp at hs
    · obtain ⟨k, hk, rfl⟩ := List.mem_map.mp hs
      exact ⟨k, List.mem_of_mem_filter hk, rfl⟩
  unfold keySchemas at hs
  simp only [List.mem_append] at hs
  rcases hs with (hs | hs) | hs
  · exact Or.inl (literal hs)
  · exact Or.inl (literal hs)
  · cases hi : o.index with
    | none => simp [hi] at hs
    | some i => exact Or.inr ⟨i, rfl, by simpa [hi] using hs⟩

theorem every_keySchemas (ho : (Schema.object o).Every (Schema.KeyNode False)) :
    ∀ s ∈ o.keySchemas, s.Every (Schema.KeyNode False) := by
  intro s hs
  rcases mem_keySchemas hs with ⟨k, -, rfl⟩ | ⟨i, hi, hs⟩
  · exact .intro (Value.IsKey.tied ⟨k, rfl⟩) (by simp [Schema.parts])
  · refine Schema.every_branches (ho.part ?_) s hs
    simp [Schema.parts, IndexSignature.parts, hi]

/-- A key of the object is declared, or the index signature takes it. -/
theorem declares_of_hasKey {s : Schema} (hs : s ∈ o.keySchemas) (h : s.HasKey hooks k.toValue) :
    o.declares k = true ∨ ∃ i, o.index = some i ∧ i.key.HasKey hooks k.toValue := by
  rcases mem_keySchemas hs with ⟨l, hl, rfl⟩ | ⟨i, hi, hs⟩
  · have hkey : (l.toValue).IsKey := ⟨l, rfl⟩
    have heq := hkey.eq_of_literalEqual (Schema.hasKey_literal.mp h).2
    obtain ⟨p, hp, rfl⟩ := List.mem_map.mp hl
    refine Or.inl (List.any_eq_true.mpr ⟨p, hp, ?_⟩)
    simpa using Key.toValue_injective heq
  · exact Or.inr ⟨i, hi, Schema.hasKey_branches.mp ⟨s, hs, h⟩⟩

end ObjectShape

namespace Schema

variable {env : Env} {follow : Ref → Except Fault Schema} {s keys : Schema} {v : Value}

theorem keyOfEach_ok {ss kss : List Schema} (h : keyOfEach env follow ss = .ok kss) :
    List.Forall₂ (fun s keys => s.keyOfWith env follow = .ok keys) ss kss := by
  induction ss generalizing kss with
  | nil =>
    obtain rfl := Except.ok.inj h
    exact .nil
  | cons s ss ih =>
    obtain ⟨keys, rest, hkeys, hrest, rfl⟩ := combine_ok h
    exact .cons hkeys (ih hrest)

/-- Common keys are keys of which all the other schemas are provably supersets. -/
theorem mem_commonKeys {others ks common : List Schema} (h : env.commonKeys others ks = .ok common) {k : Schema}
    (hk : k ∈ common) : k ∈ ks ∧ ∀ other ∈ others, env.isSubset k other = .ok true := by
  induction ks generalizing common with
  | nil =>
    obtain rfl := Except.ok.inj h
    simp at hk
  | cons l ks ih =>
    obtain ⟨all, kept, hall, hkept, rfl⟩ := combine_ok h
    cases all with
    | false => exact (ih hkept hk).imp_left (List.mem_cons_of_mem _)
    | true =>
      rcases List.mem_cons.mp hk with rfl | hk
      · exact ⟨by simp, allM_ok_true hall⟩
      · exact (ih hkept hk).imp_left (List.mem_cons_of_mem _)

theorem every_keyOf (hs : s.Every (KeyNode False)) (h : s.keyOfWith env follow = .ok keys) :
    keys.Every (KeyNode False) := by
  induction s using induction_on_parts generalizing keys with
  | _ s ih =>
    have each : ∀ {ss kss : List Schema}, ss ⊆ s.parts → keyOfEach env follow ss = .ok kss →
        ∀ k ∈ kss, k.Every (KeyNode False) := by
      intro ss kss hss h k hk
      obtain ⟨t, ht, hkeys⟩ := forall₂_exists_right (keyOfEach_ok h) hk
      exact ih t (hss ht) (hs.part (hss ht)) hkeys
    cases s with
    | ref r => exact hs.root.elim
    | object o => exact Env.every_union trivial (fun _ => trivial) (ObjectShape.every_keySchemas hs) h
    | union bs =>
      cases bs with
      | nil => cases h
      | cons b bs =>
        obtain ⟨first, hfirst, h⟩ := bind_ok h
        obtain ⟨others, hothers, h⟩ := bind_ok h
        obtain ⟨common, hcommon, h⟩ := bind_ok h
        refine Env.every_union trivial (fun _ => trivial) (fun k hk => ?_) h
        exact every_branches (ih b (by simp [parts]) (hs.branch (by simp)) hfirst) k (mem_commonKeys hcommon hk).1
    | intersection ms =>
      obtain ⟨kss, hkss, h⟩ := bind_ok h
      exact Env.every_union trivial (fun _ => trivial) (each (List.Subset.refl _) hkss) h
    | constrained s cs => exact ih s (by simp [parts]) hs.base h
    | keyword k => cases h
    | literal w => cases h
    | tuple es => cases h

/-- A key of a union is a key of every branch. -/
theorem keys_of_branch {bs : List Schema} (hv : v.IsKey) (hs : (union bs).Every (KeyNode False))
    (h : (union bs).keyOfWith env follow = .ok keys) (hkey : keys.HasKey env.hooks v) :
    bs ≠ [] ∧ ∀ b ∈ bs, ∃ own, b.keyOfWith env follow = .ok own ∧ own.HasKey env.hooks v := by
  cases bs with
  | nil => cases h
  | cons b bs =>
    refine ⟨List.cons_ne_nil _ _, ?_⟩
    obtain ⟨first, hfirst, h⟩ := bind_ok h
    obtain ⟨others, hothers, h⟩ := bind_ok h
    obtain ⟨common, hcommon, h⟩ := bind_ok h
    obtain ⟨k, hk, hkey⟩ := Env.hasKey_of_union hv h hkey
    obtain ⟨hmem, hsub⟩ := mem_commonKeys hcommon hk
    have hsubset := every_keyOf (hs.branch (List.mem_cons_self)) hfirst
    have hothers := keyOfEach_ok hothers
    refine List.forall_mem_cons.mpr ⟨⟨first, hfirst, hasKey_branches.mp ⟨k, hmem, hkey⟩⟩, fun c hc => ?_⟩
    obtain ⟨other, hother, hkeys⟩ := forall₂_exists_left hothers hc
    refine ⟨other, hkeys, ?_⟩
    exact Env.hasKey_of_isSubset hv (every_branches hsubset k hmem)
      (every_keyOf (hs.branch (List.mem_cons_of_mem _ hc)) hkeys) (hsub other hother) hkey

/-- A key of an intersection is a key of some member. -/
theorem keys_of_member {ms : List Schema} (hv : v.IsKey) (h : (intersection ms).keyOfWith env follow = .ok keys)
    (hkey : keys.HasKey env.hooks v) :
    ∃ m ∈ ms, ∃ own, m.keyOfWith env follow = .ok own ∧ own.HasKey env.hooks v := by
  obtain ⟨kss, hkss, h⟩ := bind_ok h
  obtain ⟨own, hown, hkey⟩ := Env.hasKey_of_union hv h hkey
  obtain ⟨m, hm, hkeys⟩ := forall₂_exists_right (keyOfEach_ok hkss) hown
  exact ⟨m, hm, own, hkeys, hkey⟩

end Schema
end Schemata
