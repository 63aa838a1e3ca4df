import Schemata.Proofs.Algebra.UnionOutputs

/-! Unions that keep what their branches accept. A branch that accepts a value stays in the normal form, or one that
contains it does; the union as a whole may still stop at a branch before it. -/
namespace Schemata

namespace Schema

variable {maker : Token → Producer} {s : Schema}

/-- The node is a keyword, a scalar literal, a union, an object or a legal tuple, and `maker` names the one producer
that a token stands for. -/
def Concrete (maker : Token → Producer) : Schema → Prop
  | .constrained _ _ => False
  | .intersection _ => False
  | .tuple es => Role.shapeError? (es.map (·.role)) = none ∧ (Schema.tuple es).Sharp maker
  | s => s.Sharp maker

theorem Concrete.sharp (h : s.Concrete maker) : s.Sharp maker := by
  cases s <;> first | exact h.elim | exact h.2 | exact h

theorem keyword_concrete (k : Keyword) : (keyword k).Every (Concrete maker) := .intro nofun (by simp [parts])

theorem Concrete.keyNode (h : s.Concrete maker) : s.KeyNode False := by
  cases s with
  | literal v =>
    have hv : v.isScalar = true := h
    cases v <;> trivial
  | constrained _ _ => exact h.elim
  | ref _ => exact h.elim
  | _ => trivial

/-- A plain schema without constraints: its values are those of a keyword or a scalar. -/
theorem Concrete.leaf (h : s.Concrete maker) (hplain : s.isPlain = true) :
    (∃ k, s = .keyword k) ∨ ∃ v, s = .literal v ∧ v.isScalar = true := by
  cases s with
  | keyword k => exact Or.inl ⟨k, rfl⟩
  | literal v => exact Or.inr ⟨v, rfl, h⟩
  | constrained _ _ => exact h.elim
  | _ => simp [isPlain] at hplain

theorem Concrete.orderly (h : s.Concrete maker) (hplain : s.isPlain = true) : s.Orderly .plain := by
  rcases h.leaf hplain with ⟨k, rfl⟩ | ⟨v, rfl, hv⟩
  · exact .intro ⟨trivial, trivial⟩ nofun
  · exact .intro ⟨hv, trivial⟩ nofun

theorem not_isUnion_of_plain (h : s.isPlain = true) : s.isUnion = false := by
  cases s <;> first | rfl | simp [isPlain] at h

end Schema

namespace Env

variable {env env' : Env} {config : Config} {maker : Token → Producer} {s t u : Schema} {ss bs : List Schema}
  {v : Value}

/-- The schema accepts the value, or a branch does, however deep in unions it stands. -/
inductive Offers (env : Env) (config : Config) (v : Value) : Schema → Prop
  | accepts {s : Schema} : env.accepts config s v = .ok true → Offers env config v s
  | branch {bs : List Schema} {s : Schema} : s ∈ bs → Offers env config v s → Offers env config v (.union bs)

theorem offers_union : env.Offers config v (.union bs) ↔ ∃ s ∈ bs, env.Offers config v s := by
  constructor
  · intro h
    cases h with
    | accepts h =>
      obtain ⟨s, hs, h⟩ := accepts_of_union h
      exact ⟨s, hs, .accepts h⟩
    | branch hs h => exact ⟨_, hs, h⟩
  · rintro ⟨s, hs, h⟩
    exact .branch hs h

theorem offers_iff (hs : s.isUnion = false) : env.Offers config v s ↔ env.accepts config s v = .ok true := by
  refine ⟨fun h => ?_, .accepts⟩
  cases h with
  | accepts h => exact h
  | branch _ _ => simp [Schema.isUnion] at hs

theorem offers_branches : (∃ t ∈ s.branches, env.Offers config v t) ↔ env.Offers config v s := by
  cases s with
  | union bs => exact offers_union.symm
  | _ => simp [Schema.branches]

theorem offers_ofBranches : env.Offers config v (Schema.ofBranches ss) ↔ ∃ s ∈ ss, env.Offers config v s := by
  unfold Schema.ofBranches
  split
  · simp
  · exact offers_union

/-- What a branch accepts the whole does not refuse. -/
theorem not_refused (h : env.Offers config v s) : env.accepts config s v ≠ .ok false := by
  induction h with
  | accepts h => simp [h]
  | @branch bs s hs _ ih =>
    intro hno
    obtain ⟨o, ho, hok⟩ := accepts_eq_false.mp hno
    rw [check_union] at ho
    have hrefused := (Check.union_refuses ho hok).2.2 _ (List.mem_map_of_mem hs)
    exact ih (accepts_eq_false.mpr hrefused)

/-- Schemas that answer alike offer the same. -/
theorem offers_alike (h : Schema.Alike (.answers env.hooks) s t) : env.Offers config v s ↔ env.Offers config v t := by
  refine Schema.Alike.induct (P := fun s t => env.Offers config v s ↔ env.Offers config v t) ?_ h
  intro s t hform hparts
  have halike : Schema.Alike (.answers env.hooks) s t := .of_parts hform (hparts.imp fun _ _ h => h.1)
  have leaf : s.isUnion = false → t.isUnion = false → (env.Offers config v s ↔ env.Offers config v t) := by
    intro hs ht
    rw [offers_iff hs, offers_iff ht]
    exact (accepts_alike (Likeness.answers_suits env config) (fun _ => False.elim) halike rfl).ok_iff true
  cases s with
  | union bs =>
    cases t with
    | union ts =>
      rw [offers_union, offers_union]
      exact forall₂_any_iff hparts fun _ _ _ _ h => h.2
    | _ => exact hform.elim
  | _ => cases t <;> first | exact hform.elim | exact leaf rfl rfl

theorem offers_of_same (hs : s.Every (Schema.Concrete maker)) (ht : t.Every (Schema.Concrete maker))
    (h : s.same t = true) : env.Offers config v s ↔ env.Offers config v t :=
  offers_alike (Schema.answers_of_same env.hooks (hs.mono fun _ => Schema.Concrete.sharp)
    (ht.mono fun _ => Schema.Concrete.sharp) h)

section Containment

/-- Keywords and scalar literals accept their members. -/
theorem accepts_iff_member {exact : Bool} (hs : s.Concrete maker) (hplain : s.isPlain = true) :
    env.accepts config s v = .ok true ↔ s.Member env' exact v := by
  rcases hs.leaf hplain with ⟨k, rfl⟩ | ⟨w, rfl, -⟩
  · rw [accepts_keyword, Except.ok.injEq, Schema.member_keyword]
  · rw [accepts_literal, Schema.member_literal]

theorem accepts_of_isSubset_plain {fuel : Nat} (hs : s.Concrete maker) (hsp : s.isPlain = true) (ht : t.Concrete maker)
    (htp : t.isPlain = true) (h : env'.subsetWithin fuel [] s t = .ok true) (haccepts : env.accepts config s v = .ok true) :
    env.accepts config t v = .ok true := by
  have hmem : s.Member env' true v := (accepts_iff_member hs hsp).mp haccepts
  have hfits : ∀ {s : Schema}, s.Orderly .plain → s.Every (Schema.Fits .plain) := fun h => h.mono fun _ h => h.1
  have hmem : t.Member env' true v := subsetWithin_sound (Env.grounded_closed .plain) 0 fuel [] s t
    (hfits (hs.orderly hsp)) (hfits (ht.orderly htp)) .nil h v (fun hd => hd.elim nofun) hmem
  exact (accepts_iff_member ht htp).mpr hmem

/-- A keyword or a literal is provably inside another schema only if that has a branch for all its values. -/
theorem offers_of_subsetWithin {fuel : Nat} (hs : s.Concrete maker) (hplain : s.isPlain = true)
    (ht : t.Every (Schema.Concrete maker)) (h : env'.subsetWithin fuel [] s t = .ok true)
    (haccepts : env.accepts config s v = .ok true) : env.Offers config v t := by
  induction fuel generalizing t with
  | zero => simp [subsetWithin] at h
  | succ fuel ih =>
    cases htp : t.isPlain with
    | true => exact .accepts (accepts_of_isSubset_plain hs hplain ht.root htp h haccepts)
    | false =>
      have hsame : s.Every (Schema.Concrete maker) := by
        rcases hs.leaf hplain with ⟨k, rfl⟩ | ⟨w, rfl, -⟩ <;> exact .intro hs (by simp [Schema.parts])
      have noRef : (s.isRef || t.isRef) = false := by
        rw [hs.sharp.not_isRef, ht.root.sharp.not_isRef, Bool.or_self]
      cases subsetWithin_grounds h with
      | same hequal => exact (offers_of_same hsame ht hequal).mp (.accepts haccepts)
      | unknown => simp [Schema.isPlain, Schema.unknown] at htp
      | never => simp [Schema.isPlain, Schema.never] at hplain
      | met href => simp [noRef] at href
      | behind href => simp [noRef] at href
      | branches => simp [Schema.isPlain] at hplain
      | members => exact ht.root.elim
      | member => simp [Schema.isPlain] at hplain
      | branch hb hsub => exact .branch hb (ih (ht.branch hb) hsub)
      | plain hgrounds =>
        cases hgrounds with
        | constrained | base => exact hs.elim
        | accepted => exact ht.root.elim
        | integer | domains | literal => simp [Schema.isPlain] at htp
        | object | tuple => simp [Schema.isPlain] at hplain

theorem isSubset_trans_plain (hs : s.Concrete maker) (hsp : s.isPlain = true) (ht : t.Concrete maker)
    (htp : t.isPlain = true) (hu : u.Concrete maker) (hup : u.isPlain = true) (hst : env.isSubset s t = .ok true)
    (htu : env.isSubset t u = .ok true) : env.isSubset s u = .ok true := by
  have hs := hs.orderly hsp
  have ht := ht.orderly htp
  have hu := hu.orderly hup
  refine (isSubset_decides hs hu).eq_true ?_
  exact Schema.Below.trans hs ht hu ((isSubset_decides hs ht).iff.mp hst) ((isSubset_decides ht hu).iff.mp htu)

end Containment

section Union

theorem offers_flat (hss : ∀ s ∈ ss, s.Every (Schema.Concrete maker)) (hs : s ∈ ss) (h : env.Offers config v s) :
    ∃ t ∈ Schema.flat ss, env.Offers config v t := by
  obtain ⟨b, hb, h⟩ := offers_branches.mpr h
  have hbranches : ∀ t ∈ ss.flatMap Schema.branches, t.Every (Schema.Concrete maker) := by
    intro t ht
    obtain ⟨s, hs, ht⟩ := List.mem_flatMap.mp ht
    exact Schema.every_branches (hss s hs) t ht
  have hb : b ∈ ss.flatMap Schema.branches := List.mem_flatMap.mpr ⟨s, hs, hb⟩
  obtain ⟨r, hr, h⟩ : ∃ r ∈ Schema.distinct (ss.flatMap Schema.branches), env.Offers config v r := by
    obtain ⟨r, hr, rfl | hsame⟩ := Schema.distinct_covers hb
    · exact ⟨_, hr, h⟩
    · have hrb : env.Offers config v r ↔ env.Offers config v b :=
        offers_of_same (hbranches r (Schema.mem_of_mem_distinct hr)) (hbranches b hb) hsame
      exact ⟨r, hr, hrb.mpr h⟩
  by_cases hboth : (Schema.trueLiteral.isIn (Schema.distinct (ss.flatMap Schema.branches)) &&
      Schema.falseLiteral.isIn (Schema.distinct (ss.flatMap Schema.branches))) = true
  swap
  · exact ⟨r, by rwa [Schema.flat, Schema.collapseBooleans_of_not hboth], h⟩
  have truth : ∀ b, r.same (.literal (.bool b)) = true → ∃ t ∈ Schema.flat ss, env.Offers config v t := by
    intro b hsame
    have hconcrete : (Schema.literal (.bool b)).Every (Schema.Concrete maker) := .intro rfl (by simp [Schema.parts])
    have hliteral : env.Offers config v (.literal (.bool b)) :=
      (offers_of_same (hbranches r (Schema.mem_of_mem_distinct hr)) hconcrete hsame).mp h
    have hdomain : v.domain = .boolean := (accepts_literal.mp ((offers_iff rfl).mp hliteral)).1
    refine ⟨_, (Schema.mem_collapseBooleans hboth).mpr (Or.inl rfl), .accepts ?_⟩
    rw [accepts_keyword]
    simp [Keyword.holds, Keyword.domains, DomainSet.of, hdomain]
  cases htrue : r.same Schema.trueLiteral with
  | true => exact truth true htrue
  | false =>
    cases hfalse : r.same Schema.falseLiteral with
    | true => exact truth false hfalse
    | false => exact ⟨r, (Schema.mem_collapseBooleans hboth).mpr (Or.inr ⟨hr, htrue, hfalse⟩), h⟩

/-- What one of the schemas offers their union offers. -/
theorem offers_of_union (hss : ∀ s ∈ ss, s.Every (Schema.Concrete maker)) (hu : env'.union ss = .ok u) (hs : s ∈ ss)
    (h : env.Offers config v s) : env.Offers config v u := by
  obtain ⟨kept, hkept, hu⟩ := bind_ok hu
  obtain rfl := Except.ok.inj hu
  obtain ⟨t, ht, h⟩ := offers_flat hss hs h
  have hflat : ∀ t ∈ Schema.flat ss, t.Every (Schema.Concrete maker) := Schema.every_flat nofun hss
  obtain ⟨r, ⟨before, behind, heq, hno⟩, h⟩ := Schema.remains_of_plain (P := fun t => env.Offers config v t)
    (R := fun a b => env'.isSubset a b = .ok true)
    (fun a ha b hb c hc hap hbp hcp => isSubset_trans_plain (hflat a ha).root hap (hflat b hb).root hbp (hflat c hc).root
      hcp)
    (fun a ha b hb hap hab hoffers => offers_of_subsetWithin (hflat a ha).root hap (hflat b hb) hab
      ((offers_iff (Schema.not_isUnion_of_plain hap)).mp hoffers)) ht h
  exact offers_ofBranches.mpr ⟨r, mem_pruned hkept heq (by simpa using hno), h⟩

end Union

end Env
end Schemata
