import Schemata.Proofs.Algebra.KeyOf
import Schemata.Proofs.Validation.Recapture
import Schemata.Proofs.Validation.Spelling

/-! What a union puts out in its normal form. Flattening, dropping repetitions and collapsing the truth values leave
the first accepting schema as it is. Pruning may drop it: a plain branch is judged by its outermost node, and what it
puts out may differ from what the branch that contains it puts out. -/
namespace Schemata

namespace Constraint

/-- The constraint has an equality that tells apart what the constraint tells apart: its bounds are numbers, and it
asks for no literal. -/
def Sharp : Constraint → Prop
  | .range r => (∀ v ∈ r.least, v.asNumber?.isSome = true) ∧ ∀ v ∈ r.greatest, v.asNumber?.isSome = true
  | .equals _ => False
  | _ => True

end Constraint

theorem Constraint.Sharp.like {hooks : Hooks} {c d : Constraint} (hc : c.Sharp) (h : c.same d = true) :
    c.Like hooks (· = ·) d := by
  cases c <;> cases d <;> simp only [same, Bool.false_eq_true] at h
  case range.range r s =>
    have scalar : ∀ {v : Value}, v.asNumber?.isSome = true → v.isScalar = true := by
      intro v hv
      cases v <;> first | rfl | simp [Value.asNumber?] at hv
    have bound : ∀ {o p : Option Value}, (∀ v ∈ o, v.asNumber?.isSome = true) → sameBound o p = true →
        Option.Rel Value.Weighs o p := by
      intro o p ho h
      cases o <;> cases p <;> simp only [sameBound, Bool.false_eq_true] at h
      · exact .none
      · exact .some (Value.weighs_of_same (scalar (ho _ rfl)) h)
    simp only [Range.same, Bool.and_eq_true, beq_iff_eq] at h
    obtain ⟨⟨⟨hleast, hgreatest⟩, habove⟩, hbelow⟩ := h
    have hrespells : Respells False (.range r) (.range s) :=
      .range ⟨bound hc.1 hleast, bound hc.2 hgreatest, habove, hbelow⟩
    exact hrespells.like fun _ _ h => Or.inl h
  case equals.equals => exact hc.elim
  all_goals
    rw [eq_of_beq h]
    exact Likeness.like_of_eq (fun _ _ h => h) _

namespace Schema

/-- Equality of schemas tells apart what stands in the node. Literals are no containers, and `maker` names the one
producer that a token stands for; there are no references. -/
def Sharp (maker : Token → Producer) : Schema → Prop
  | .literal v => v.isScalar = true
  | .constrained _ cs => ∀ c ∈ cs, c.Sharp
  | .ref _ => False
  | s => ∀ p ∈ s.defaults, maker p.token = p

end Schema

/-- What answers alike on every value. -/
def Likeness.answers (hooks : Hooks) : Likeness where
  literal v w := v = w ∨ v.isScalar = true ∧ w.isScalar = true ∧ v.Twin w
  constraint c d := c.Like hooks (· = ·) d
  default := (· = ·)
  named _ := False

theorem Likeness.answers_suits (env : Env) (config : Config) :
    (answers env.hooks).Suits env config config (· = ·) where
  keyword := by
    rintro v _ rfl k
    rfl
  domain := by
    rintro v _ rfl
    rfl
  literal := by
    rintro a b (rfl | ⟨ha, hb, hab⟩) v _ rfl
    · rfl
    · rw [Value.twin_iff ha, Value.twin_iff hb]
      exact ⟨hab.symm.trans, hab.trans⟩
  literals := by
    rintro a b (rfl | ⟨ha, -, hab⟩)
    · rfl
    · exact ((Value.twin_iff ha).mpr hab).1.symm
  constraint := fun _ _ h => h
  containers := Or.inr ⟨rfl, rfl, fun _ _ h => h⟩

namespace Schema

variable {maker : Token → Producer} {s t : Schema}

theorem Sharp.not_isRef (h : s.Sharp maker) : s.isRef = false := by
  cases s <;> first | rfl | exact h.elim

theorem producer_of_sharp (h : s.Sharp maker) : ∀ p ∈ s.defaults, maker p.token = p := by
  cases s <;> first | exact h | simp [defaults]

theorem answers_of_same (hooks : Hooks) (hs : s.Every (Sharp maker)) (ht : t.Every (Sharp maker))
    (h : s.same t = true) : Alike (.answers hooks) s t := by
  refine (alike_of_same h).change hs ht fun s t hs ht hform => ?_
  refine hform.change ?_ ?_ ?_ ?_
  · rintro v w rfl rfl ⟨hsame, hdomain⟩
    exact ((Value.same_scalar_iff hs hdomain).mp hsame).symm.imp_right fun htwin => ⟨hs, ht, htwin⟩
  · intro c hc d hd hcd
    cases s with
    | constrained base cs => exact (hs c hc).like hcd
    | _ => simp [split] at hc
  · intro p hp q hq hpq
    have hp' := producer_of_sharp hs p hp
    rw [eq_of_beq hpq, producer_of_sharp ht q hq] at hp'
    exact hp'.symm
  · rintro r rfl -
    exact hs

end Schema

namespace Check

/-- Where every member leaves the value as it is, the conjunction stops with what one of them stops with. -/
theorem conjunction_ends {cs : List Check} {v : Value} {Q : Fault → Prop}
    (h : ∀ c ∈ cs, ∀ visit, Ends (c visit v) (fun o => o.output = v) Q) (visit : Visit) :
    Ends (conjunction cs visit v) (fun _ => True) Q := by
  induction cs generalizing visit with
  | nil => trivial
  | cons c cs ih =>
    rw [List.forall_mem_cons] at h
    refine (h.1 visit).bind fun o hout => ?_
    rw [hout]
    exact (ih h.2 _).bind fun _ _ => trivial

end Check

namespace Schema

variable {env : Env} {config : Config} {s : Schema}

/-- Of a schema without references the domains can be told. -/
theorem domainsWith_answers {follow : Ref → Except Fault (Option DomainSet)} {Q : Fault → Prop}
    (hs : s.Every fun t => t.isRef = false) :
    Ends (s.domainsWith follow) (fun _ => True) Q := by
  refine domainsWith_ends (hs.mono fun t ht r hr => ?_)
  rw [hr] at ht
  exact Bool.noConfusion ht

/-- Whatever is written in a schema without references, its check answers on a truth value. -/
theorem checkWith_bool {follow : Ref → Check} {Q : Fault → Prop} (hs : s.Every fun t => t.isRef = false) (visit : Visit)
    (b : Bool) : Ends (s.checkWith env config follow visit (.bool b)) (fun _ => True) Q := by
  induction s using induction_on_parts generalizing visit with
  | _ s ih =>
    have unchanged : ∀ t ∈ s.parts, ∀ visit,
        Ends (t.checkWith env config follow visit (.bool b)) (fun o => o.output = .bool b) Q := fun t ht visit =>
      (ih t ht (hs.part ht) visit).self.mono (fun _ ho => (outcome_of_scalar (hs.part ht) rfl ho).1) fun _ h => h
    cases s with
    | ref r => exact Bool.noConfusion hs.root
    | keyword k => trivial
    | literal w =>
      unfold checkWith Check.literal
      split_ifs <;> trivial
    | object o => trivial
    | tuple es => trivial
    | constrained base cs =>
      have failures : ∀ cs : List Constraint, Ends (Check.constraintFailures env.hooks (.bool b) cs) (fun _ => True) Q := by
        intro cs
        induction cs with
        | nil => trivial
        | cons c cs ihc =>
          have hcheck : Ends (c.check env.hooks (.bool b)) (fun _ => True) fun _ => False := by
            cases c <;> trivial
          obtain ⟨d, hd, -⟩ := hcheck.succeeds
          unfold Check.constraintFailures
          rw [hd]
          exact ihc.bind fun _ _ => trivial
      refine (unchanged base (by simp [parts]) visit).bind fun o hout => ?_
      split_ifs
      · rw [hout]
        exact (failures cs).bind fun _ _ => trivial
      · trivial
    | union bs =>
      rw [checkWith, branchChecks_eq]
      exact Check.union_ends (List.forall_mem_map.mpr fun t ht => domainsWith_answers (hs.branch ht))
        (List.forall_mem_map.mpr fun t ht => ih t ht (hs.branch ht) visit)
    | intersection ms =>
      rw [checkWith, memberChecks_eq]
      exact Check.conjunction_ends (List.forall_mem_map.mpr unchanged) visit

end Schema

namespace Env

variable {env : Env} {config : Config} {maker : Token → Producer} {s t u : Schema} {ss bs : List Schema} {v o : Value}

/-- A union puts out what its first branch puts out, or refuses the value there and goes on with the others. -/
theorem validate_union_cons : env.validate config (.union (s :: ss)) v = .ok (.ok o) ↔
    env.validate config s v = .ok (.ok o) ∨
      env.accepts config s v = .ok false ∧ env.validate config (.union ss) v = .ok (.ok o) := by
  rw [validate_union, validate_union]
  constructor
  · rintro ⟨before, t, ⟨after, heq⟩, hbefore, hput⟩
    cases before with
    | nil =>
      obtain ⟨rfl, -⟩ := List.cons.inj heq
      exact Or.inl hput
    | cons r before =>
      obtain ⟨rfl, rfl⟩ := List.cons.inj heq
      rw [List.forall_mem_cons] at hbefore
      exact Or.inr ⟨hbefore.1, before, t, ⟨after, rfl⟩, hbefore.2, hput⟩
  · rintro (hput | ⟨hs, before, t, ⟨after, rfl⟩, hbefore, hput⟩)
    · exact ⟨[], s, ⟨ss, rfl⟩, by simp, hput⟩
    · exact ⟨s :: before, t, ⟨after, rfl⟩, List.forall_mem_cons.mpr ⟨hs, hbefore⟩, hput⟩

theorem not_validate_nil : ¬ env.validate config (.union []) v = .ok (.ok o) := by
  rw [validate_union]
  rintro ⟨before, t, ⟨after, heq⟩, -⟩
  simp at heq

theorem validate_union_append : env.validate config (.union (bs ++ ss)) v = .ok (.ok o) ↔
    env.validate config (.union bs) v = .ok (.ok o) ∨
      (∀ s ∈ bs, env.accepts config s v = .ok false) ∧ env.validate config (.union ss) v = .ok (.ok o) := by
  induction bs with
  | nil => simp [not_validate_nil]
  | cons s bs ih =>
    rw [List.cons_append, validate_union_cons, validate_union_cons, ih, List.forall_mem_cons]
    tauto

theorem validate_union_singleton :
    env.validate config (.union [s]) v = .ok (.ok o) ↔ env.validate config s v = .ok (.ok o) := by
  rw [validate_union_cons, or_iff_left fun h => not_validate_nil h.2]

theorem validate_ofBranches : env.validate config (Schema.ofBranches ss) v = .ok (.ok o) ↔
    env.validate config (.union ss) v = .ok (.ok o) := by
  unfold Schema.ofBranches
  split
  · exact validate_union_singleton.symm
  · rfl

/-- Equal schemas refuse the same. -/
theorem refuses_of_same (hs : s.Every (Schema.Sharp maker)) (ht : t.Every (Schema.Sharp maker)) (h : s.same t = true) :
    env.accepts config s v = .ok false ↔ env.accepts config t v = .ok false :=
  (accepts_alike (Likeness.answers_suits env config) (fun _ => False.elim) (Schema.answers_of_same env.hooks hs ht h)
    rfl).ok_iff false

/-- Repetitions are refused where what they repeat is refused. -/
theorem validate_distinct (hss : ∀ s ∈ ss, s.Every (Schema.Sharp maker))
    (h : env.validate config (.union (Schema.distinct ss)) v = .ok (.ok o)) :
    env.validate config (.union ss) v = .ok (.ok o) := by
  induction ss using List.reverseRecOn with
  | nil => exact h
  | append_singleton ss s ih =>
    rw [List.forall_mem_append, List.forall_mem_singleton] at hss
    obtain ⟨hss, hs⟩ := hss
    rw [Schema.distinct_append] at h
    rw [validate_union_append]
    split at h
    · exact Or.inl (ih hss h)
    · rw [validate_union_append] at h
      refine h.imp (ih hss) (And.imp_left fun hrefused t ht => ?_)
      obtain ⟨r, hr, rfl | hsame⟩ := Schema.distinct_covers ht
      · exact hrefused r hr
      · exact (refuses_of_same (hss r (Schema.mem_of_mem_distinct hr)) (hss t ht) hsame).mp (hrefused r hr)

section Flattening

/-- A schema refuses what all its branches refuse. -/
theorem refuses_of_branches (hs : s.Every fun t => t.isRef = false)
    (h : ∀ t ∈ s.branches, env.accepts config t v = .ok false) : env.accepts config s v = .ok false := by
  cases s with
  | union bs =>
    simp only [accepts_eq_false] at h ⊢
    rw [check_union]
    have hrun : Ends (Check.union env.domains? (bs.map fun t => (t, env.check config t)) .root v) (fun _ => True)
        fun _ => False :=
      Check.union_ends (List.forall_mem_map.mpr fun t ht => Schema.domainsWith_answers (hs.branch ht))
        (List.forall_mem_map.mpr fun t ht => .of_succeeds ((h t ht).imp fun _ h => ⟨h.1, trivial⟩))
    obtain ⟨o, ho, -⟩ := hrun.succeeds
    refine ⟨o, ho, ?_⟩
    show o.isOk = false
    rw [Bool.eq_false_iff]
    intro hok
    obtain ⟨b, hb, hrun⟩ := Check.union_ok ho hok
    obtain ⟨t, ht, rfl⟩ := List.mem_map.mp hb
    obtain ⟨p, hp, hno⟩ := h t ht
    obtain rfl := Except.ok.inj (hp.symm.trans hrun)
    simp [hok] at hno
  | _ => exact h _ (List.mem_singleton_self _)

theorem validate_branches : env.validate config (.union s.branches) v = .ok (.ok o) ↔
    env.validate config s v = .ok (.ok o) := by
  cases s <;> first | exact Iff.rfl | exact validate_union_singleton

theorem validate_flatMap (hss : ∀ s ∈ ss, s.Every fun t => t.isRef = false)
    (h : env.validate config (.union (ss.flatMap Schema.branches)) v = .ok (.ok o)) :
    env.validate config (.union ss) v = .ok (.ok o) := by
  induction ss with
  | nil => exact h
  | cons s ss ih =>
    rw [List.forall_mem_cons] at hss
    rw [List.flatMap_cons, validate_union_append, validate_branches] at h
    exact validate_union_cons.mpr (h.imp_right (And.imp (refuses_of_branches hss.1) (ih hss.2)))

end Flattening

section Truth

theorem validate_of_filter {p : Schema → Bool} (h : ∀ s ∈ ss, p s = false → env.accepts config s v = .ok false)
    (hput : env.validate config (.union (ss.filter p)) v = .ok (.ok o)) :
    env.validate config (.union ss) v = .ok (.ok o) := by
  induction ss with
  | nil => exact hput
  | cons s ss ih =>
    rw [List.forall_mem_cons] at h
    rw [validate_union_cons]
    cases hp : p s with
    | false =>
      rw [List.filter_cons_of_neg (by simp [hp])] at hput
      exact Or.inr ⟨h.1 hp, ih h.2 hput⟩
    | true =>
      rw [List.filter_cons_of_pos hp, validate_union_cons] at hput
      exact hput.imp_right (And.imp_right (ih h.2))

/-- A truth value that a schema accepts is put out as it is by every union with that schema. -/
theorem validate_bool (hss : ∀ s ∈ ss, s.Every fun t => t.isRef = false) {b : Bool}
    (hmem : ∃ s ∈ ss, env.accepts config s (.bool b) = .ok true) :
    env.validate config (.union ss) (.bool b) = .ok (.ok (.bool b)) := by
  have hunion : (Schema.union ss).Every fun t => t.isRef = false := .intro rfl hss
  have hrun : Ends ((Schema.union ss).checkWith env config (env.follow config) .root (.bool b)) (fun _ => True)
      fun _ => False := Schema.checkWith_bool hunion .root b
  obtain ⟨o, ho, -⟩ := hrun.succeeds
  have hout : o.output = .bool b := (Schema.outcome_of_scalar hunion rfl ho).1
  rw [← check_eq] at ho
  have hok : o.isOk = true := by
    rw [← Bool.not_eq_false]
    intro hno
    obtain ⟨s, hs, htakes⟩ := hmem
    rw [check_union] at ho
    obtain ⟨p, hp, hpno⟩ := (Check.union_refuses ho hno).2.2 _ (List.mem_map_of_mem hs)
    obtain ⟨q, hq, hqok⟩ := accepts_iff.mp htakes
    obtain rfl := Except.ok.inj (hp.symm.trans hq)
    exact absurd hqok (by simp [hpno])
  rw [validate, run, ho]
  simp [Except.map, hok, hout]

theorem refuses_boolLiteral {b : Bool} (hv : v.domain ≠ .boolean) :
    env.accepts config (.literal (.bool b)) v = .ok false := by
  rw [accepts_eq_false, check_eq, Schema.checkWith]
  unfold Check.literal
  rw [if_neg fun h => hv h.1]
  exact ⟨_, rfl, rfl⟩

theorem boolLiteral_sharp {b : Bool} : (Schema.literal (.bool b)).Every (Schema.Sharp maker) :=
  .intro rfl (by simp [Schema.parts])

/-- The keyword takes a truth value as one of the two literals does. -/
theorem validate_collapsed_bool {b : Bool} (hss : ∀ s ∈ ss, s.Every (Schema.Sharp maker))
    (hboth : (Schema.trueLiteral.isIn ss && Schema.falseLiteral.isIn ss) = true)
    (h : env.validate config (.union (Schema.collapseBooleans ss)) (.bool b) = .ok (.ok o)) :
    env.validate config (.union ss) (.bool b) = .ok (.ok o) := by
  have no_refs : ∀ s ∈ ss, s.Every fun t => t.isRef = false := fun s hs =>
    (hss s hs).mono fun _ => Schema.Sharp.not_isRef
  obtain rfl : o = .bool b := by
    obtain ⟨r, hr, -, hout⟩ := validate_iff.mp h
    have hrefs : (Schema.union (Schema.collapseBooleans ss)).Every fun t => t.isRef = false :=
      .intro rfl (Schema.every_collapseBooleans rfl no_refs)
    rw [check_eq] at hr
    exact hout.symm.trans (Schema.outcome_of_scalar hrefs rfl hr).1
  rw [Bool.and_eq_true] at hboth
  obtain ⟨s, hs, hsame⟩ : ∃ s ∈ ss, s.same (.literal (.bool b)) = true := by
    cases b
    · exact List.any_eq_true.mp hboth.2
    · exact List.any_eq_true.mp hboth.1
  refine validate_bool no_refs ⟨s, hs, ?_⟩
  refine ((accepts_alike (Likeness.answers_suits env config) (fun _ => False.elim)
    (Schema.answers_of_same env.hooks (hss s hs) boolLiteral_sharp hsame) rfl).ok_iff true).mpr ?_
  exact accepts_literal.mpr ⟨rfl, by simp [Value.literalEqual]⟩

/-- Neither the keyword nor the literals take what is no truth value. -/
theorem validate_collapsed_other (hss : ∀ s ∈ ss, s.Every (Schema.Sharp maker)) (hv : v.domain ≠ .boolean)
    (hboth : (Schema.trueLiteral.isIn ss && Schema.falseLiteral.isIn ss) = true)
    (h : env.validate config (.union (Schema.collapseBooleans ss)) v = .ok (.ok o)) :
    env.validate config (.union ss) v = .ok (.ok o) := by
  have truth_refuses : ∀ s ∈ ss, (!(s.same Schema.trueLiteral || s.same Schema.falseLiteral)) = false →
      env.accepts config s v = .ok false := by
    intro s hs h
    rw [Bool.not_eq_false', Bool.or_eq_true] at h
    rcases h with hsame | hsame <;>
      exact (refuses_of_same (hss s hs) boolLiteral_sharp hsame).mpr (refuses_boolLiteral hv)
  have keyword_refuses : ¬ env.validate config (.keyword .boolean) v = .ok (.ok o) := by
    intro hput
    obtain ⟨r, hr, hok, -⟩ := validate_iff.mp hput
    have hholds := accepts_keyword.symm.trans (accepts_iff.mpr ⟨r, hr, hok⟩)
    simp [Keyword.holds, Keyword.domains, DomainSet.of, hv] at hholds
  unfold Schema.collapseBooleans at h
  rw [if_pos hboth, validate_union_append, validate_union_cons] at h
  rw [← List.takeWhile_append_dropWhile (p := fun s => !(s.same Schema.trueLiteral || s.same Schema.falseLiteral))
    (l := ss), validate_union_append]
  refine h.imp_right (And.imp_right fun h => ?_)
  refine validate_of_filter (fun s hs => truth_refuses s (List.dropWhile_sublist _ |>.subset hs)) ?_
  exact (h.resolve_left keyword_refuses).2

/-- The keyword puts out what the two literals it stands for put out, and what it jumps over refuses a truth value or
puts out the same. -/
theorem validate_collapseBooleans (hss : ∀ s ∈ ss, s.Every (Schema.Sharp maker)) (hv : v.Tied)
    (h : env.validate config (.union (Schema.collapseBooleans ss)) v = .ok (.ok o)) :
    env.validate config (.union ss) v = .ok (.ok o) := by
  by_cases hboth : (Schema.trueLiteral.isIn ss && Schema.falseLiteral.isIn ss) = true
  · by_cases hbool : v.domain = .boolean
    · obtain ⟨b, rfl⟩ := Value.bool_of_domain hv hbool
      exact validate_collapsed_bool hss hboth h
    · exact validate_collapsed_other hss hbool hboth h
  · rwa [Schema.collapseBooleans_of_not hboth] at h

end Truth

/-- The first branch of a flat list that does not refuse a value is dropped beside another branch, one of those passed
before or one of the list, and it does not put out `o`. -/
def Displaces (env : Env) (config : Config) (passed flat : List Schema) (v o : Value) : Prop :=
  ∃ before s behind, flat = before ++ s :: behind ∧ env.isRedundant (passed ++ before) s behind = .ok true ∧
    (∀ r ∈ before, env.accepts config r v = .ok false) ∧
      env.accepts config s v ≠ .ok false ∧ env.validate config s v ≠ .ok (.ok o)

theorem Displaces.cons {passed : List Schema} (hs : env.accepts config s v = .ok false)
    (h : env.Displaces config (passed ++ [s]) ss v o) : env.Displaces config passed (s :: ss) v o := by
  obtain ⟨before, t, behind, rfl, hdropped, hbefore, ht⟩ := h
  exact ⟨s :: before, t, behind, rfl, by simpa using hdropped, List.forall_mem_cons.mpr ⟨hs, hbefore⟩, ht⟩

/-- Pruning keeps an output unless it drops the branch that decides it. -/
theorem validate_pruned {passed kept : List Schema} (hkept : env.pruned passed ss = .ok kept)
    (h : env.validate config (.union kept) v = .ok (.ok o)) :
    env.validate config (.union ss) v = .ok (.ok o) ∨ env.Displaces config passed ss v o := by
  induction ss generalizing passed kept with
  | nil =>
    obtain rfl := Except.ok.inj hkept
    exact Or.inl h
  | cons s ss ih =>
    obtain ⟨redundant, rest, hredundant, hrest, rfl⟩ := combine_ok hkept
    rw [validate_union_cons, or_assoc]
    cases redundant with
    | false =>
      rcases validate_union_cons.mp h with hput | ⟨hs, h⟩
      · exact Or.inl hput
      · exact Or.inr ((ih hrest h).imp (And.intro hs) (Displaces.cons hs))
    | true =>
      by_cases hs : env.accepts config s v = .ok false
      · exact Or.inr ((ih hrest h).imp (And.intro hs) (Displaces.cons hs))
      by_cases hput : env.validate config s v = .ok (.ok o)
      · exact Or.inl hput
      · exact Or.inr (Or.inr ⟨[], s, ss, rfl, by simpa using hredundant, by simp, hs, hput⟩)

/-- A union in normal form puts out what the first of its schemas that takes a value puts out for it, unless the flat
branch that decides the output is dropped beside a branch that contains it. -/
theorem union_chooses (hbs : ∀ s ∈ bs, s.Every (Schema.Sharp maker)) (hu : env.union bs = .ok u) (hv : v.Tied)
    (h : env.validate config u v = .ok (.ok o)) :
    (∃ before s, env.Chooses config bs v before s o) ∨ env.Displaces config [] (Schema.flat bs) v o := by
  obtain ⟨kept, hkept, hu⟩ := bind_ok hu
  obtain rfl := Except.ok.inj hu
  have hbranches : ∀ s ∈ bs.flatMap Schema.branches, s.Every (Schema.Sharp maker) := by
    intro t ht
    obtain ⟨s, hs, ht⟩ := List.mem_flatMap.mp ht
    exact Schema.every_branches (hbs s hs) t ht
  refine (validate_pruned hkept (validate_ofBranches.mp h)).imp_left fun h => validate_union.mp ?_
  have hdistinct := validate_collapseBooleans (Schema.every_distinct hbranches) hv h
  exact validate_flatMap (fun s hs => (hbs s hs).mono fun _ => Schema.Sharp.not_isRef)
    (validate_distinct hbranches hdistinct)

/-- At most two numbers, the first of them 1 unless it is given; or anything. -/
def pairs : List Schema :=
  [.constrained (.tuple [⟨.defaultable one, .keyword .number⟩]) [.length ⟨none, some 2⟩], .keyword .unknown]

/-- The constrained tuple goes, with the default that it would put out. -/
theorem union_chooses_pairs :
    bare.union pairs = .ok (.keyword .unknown) ∧
      bare.validate Config.default (.keyword .unknown) (.list []) = .ok (.ok (.list [])) ∧
      bare.Displaces Config.default [] (Schema.flat pairs) (.list []) (.list []) := by
  have hunion : bare.union pairs = .ok (.keyword .unknown) := rfl
  have hput : bare.validate Config.default (.keyword .unknown) (.list []) = .ok (.ok (.list [])) := rfl
  have hsharp : ∀ s ∈ pairs, s.Every (Schema.Sharp fun _ => one) := by
    simp only [pairs, List.forall_mem_cons, List.not_mem_nil, false_implies, implies_true, and_true]
    have keyword_sharp : ∀ k, (Schema.keyword k).Every (Schema.Sharp fun _ => one) := fun k =>
      .intro nofun (by simp [Schema.parts])
    refine ⟨.intro ?_ ?_, keyword_sharp _⟩
    · exact fun c hc => List.mem_singleton.mp hc ▸ trivial
    · simp only [Schema.parts, List.forall_mem_singleton]
      refine .intro ?_ ?_
      · exact fun p hp => (List.mem_singleton.mp hp).symm
      · simpa [Schema.parts] using keyword_sharp _
  have htied : (Value.list []).Tied := trivial
  refine ⟨hunion, hput, (union_chooses hsharp hunion htied hput).resolve_left ?_⟩
  intro hchooses
  have hfirst : bare.validate Config.default (.union pairs) (.list []) = .ok (.ok (.list [.int 1])) := rfl
  exact absurd (hfirst.symm.trans (validate_union.mpr hchooses)) (by simp)

end Env

end Schemata
