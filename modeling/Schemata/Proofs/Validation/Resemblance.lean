import Schemata.Proofs.Validation.Keeping
import Schemata.Proofs.Value.Labels

/-! Checks that answer alike: on values that are the same but for the names of symbols and the labels of tuples they stop
with one error, or put out values of which that holds too, or refuse for the same reasons in the same places. What
surrounds the value may differ, and the schema may name only symbols that keep their names. -/
namespace Schemata

namespace Failure

/-- Where a value was refused and under which code. -/
def place (f : Failure) : Path × Code := (f.path, f.code)

/-- Failures in the same places under the same codes, in one order. -/
def SamePlaces (fs gs : List Failure) : Prop := fs.map place = gs.map place

/-- The place in a value whose symbols are renamed. -/
def recastPlace (f : Token → Token) (x : Failure) : Path × Code := (x.path.map (Segment.recast f), x.code)

/-- The second failures are in the places of the first under the same codes, in one order. -/
def RecastPlaces (f : Token → Token) (xs ys : List Failure) : Prop := xs.map (recastPlace f) = ys.map place

theorem recastPlaces_id : RecastPlaces id = SamePlaces := by
  have hplace : recastPlace id = place := by
    funext x
    simp [recastPlace, place]
  funext xs ys
  rw [RecastPlaces, SamePlaces, hplace]

theorem RecastPlaces.append {f : Token → Token} {xs xs' ys ys' : List Failure} (h : RecastPlaces f xs ys)
    (h' : RecastPlaces f xs' ys') : RecastPlaces f (xs ++ xs') (ys ++ ys') := by
  unfold RecastPlaces
  rw [List.map_append, List.map_append, h, h']

end Failure

/-- The code under which an answer refuses a value, if it does. -/
def Answer.code? : Answer → Option Code
  | .value v => if v.truthy then none else some .constraintViolation
  | .verdict .valid => none
  | .verdict (.invalid r) => some (r.code.getD .validationGeneric)
  | .raised _ => some .constraintViolation

/-- Narrowing functions do not look at the names of symbols that are renamed, nor at the labels of tuples. -/
def Hooks.Ignores (hooks : Hooks) (f : Token → Token) : Prop :=
  ∀ g v w, v.Recasts f w → (hooks.judge g v).code? = (hooks.judge g w).code?

/-- Narrowing functions do not look at the labels of tuples. -/
def Hooks.Unlabelled (hooks : Hooks) : Prop :=
  ∀ f v w, v.Resembles w → (hooks.judge f v).code? = (hooks.judge f w).code?

theorem Hooks.Unlabelled.ignores {hooks : Hooks} (h : hooks.Unlabelled) : hooks.Ignores id := fun g v w hvw =>
  h g v w (Value.recasts_id ▸ hvw)

namespace Producer

/-- Everything that the producer makes is the same but for the labels of tuples. -/
def Nameless (p : Producer) : Prop := p.isFactory = true ∨ p.source.isNameless = true

/-- What the producer makes keeps its names. -/
def Keeps (hooks : Hooks) (f : Token → Token) (m n : Nat) (p : Producer) : Prop :=
  Agree (· = ·) (Value.Recasts f) (p.produce hooks m) (p.produce hooks n)

theorem Nameless.keeps {p : Producer} (hp : p.Nameless) (hooks : Hooks) (m n : Nat) : p.Keeps hooks id m n := by
  unfold Keeps produce
  rw [Value.recasts_id]
  rcases hp with hfactory | hsource
  · simp only [hfactory, if_true]
    exact .refl (fun _ _ => rfl) fun _ => rfl
  · split_ifs
    · exact .refl (fun _ _ => rfl) fun _ => rfl
    · exact (Value.unlabelled_copied m hsource).trans (Value.unlabelled_copied n hsource).symm
    · rfl

end Producer

structure Outcome.Recasts (f : Token → Token) (o p : Outcome) : Prop where
  output : o.output.Recasts f p.output
  failures : Failure.RecastPlaces f o.failures p.failures

namespace Outcome.Recasts

variable {f : Token → Token} {o p : Outcome}

theorem isOk (h : o.Recasts f p) : o.isOk = p.isOk := by
  have hlength : o.failures.length = p.failures.length := by simpa using congrArg List.length h.failures
  rw [Bool.eq_iff_iff, isOk_iff, isOk_iff, ← List.length_eq_zero_iff, ← List.length_eq_zero_iff, hlength]

theorem within (h : o.Recasts f p) (s : Segment) : (o.within s).Recasts f (p.within (s.recast f)) := by
  refine ⟨h.output, ?_⟩
  have hplace : (o.failures.map (Failure.within s)).map (Failure.recastPlace f) =
      (o.failures.map (Failure.recastPlace f)).map fun q => (s.recast f :: q.1, q.2) := by
    simp [Failure.recastPlace, Failure.within, Function.comp_def]
  have hplace' : (p.failures.map (Failure.within (s.recast f))).map Failure.place =
      (p.failures.map Failure.place).map fun q => (s.recast f :: q.1, q.2) := by
    simp [Failure.place, Failure.within, Function.comp_def]
  exact hplace.trans ((congrArg _ h.failures).trans hplace'.symm)

theorem fail {v w : Value} (h : v.Recasts f w) (m m' c c' : String) (k : Code) (a a' : Value) :
    (Outcome.fail v m c k a).Recasts f (.fail w m' c' k a') := ⟨h, rfl⟩

end Outcome.Recasts

namespace Value

variable {v w : Value}

/-- Two values that only a predicate or a literal can tell apart, and no keyword. -/
structure Lookalike (v w : Value) : Prop where
  domain : v.domain = w.domain
  typeName : v.typeName = w.typeName
  isForeign : v.isForeign = w.isForeign
  length? : v.length? = w.length?
  number : ∀ n, v = .number n ↔ w = .number n
  string : ∀ s, v = .string s ↔ w = .string s

theorem Recasts.lookalike {f : Token → Token} (h : v.Recasts f w) : v.Lookalike w :=
  ⟨h.domain, h.typeName, h.isForeign, h.length?, h.number, h.string⟩

theorem Lookalike.holds (h : v.Lookalike w) (k : Keyword) : k.holds v = k.holds w := by
  cases k with
  | integer =>
    by_cases hn : ∃ n, v = .number n
    · obtain ⟨n, rfl⟩ := hn
      rw [(h.number n).mp rfl]
    · have other : ∀ {x : Value}, (∀ n, x ≠ .number n) → Keyword.integer.holds x = false := by
        intro x hx
        cases x with
        | number n => exact absurd rfl (hx n)
        | _ => rfl
      rw [other fun n hv => hn ⟨n, hv⟩, other fun n hw => hn ⟨n, (h.number n).mpr hw⟩]
  | _ => simp only [Keyword.holds, h.domain]

end Value

namespace Constraint

variable {hooks : Hooks} {v w : Value}

/-- Two verdicts that accept, or refuse under one code. -/
def SameVerdict (d e : Verdict) : Prop :=
  Failure.SamePlaces (Failure.ofVerdict "" d) (Failure.ofVerdict "" e)

/-- Of two lookalikes a constraint says the same, unless it is a literal or a predicate that tells them apart. -/
theorem check_lookalike (h : v.Lookalike w) (c : Constraint)
    (ha : ∀ a, c = .equals a → a.literalEqual v = a.literalEqual w)
    (hc : ∀ p, c = .predicate p → SameVerdict (p.check hooks v) (p.check hooks w)) :
    Agree (· = ·) SameVerdict (c.check hooks v) (c.check hooks w) := by
  cases c with
  | range r =>
    refine Agree.mapError (E := (· = ·)) ?_ fun _ _ he => congrArg _ he
    by_cases hn : ∃ n, v = .number n
    · obtain ⟨n, rfl⟩ := hn
      rw [(h.number n).mp rfl]
      exact .refl (fun _ _ => rfl) fun _ => rfl
    · have other : ∀ {x : Value}, (∀ n, x ≠ .number n) → r.check x = .ok (r.wrongType x) := by
        intro x hx
        cases x with
        | number n => exact absurd rfl (hx n)
        | _ => rfl
      rw [other fun n hv => hn ⟨n, hv⟩, other fun n hw => hn ⟨n, (h.number n).mpr hw⟩]
      rfl
  | length l =>
    simp only [check, Length.check, h.length?]
    cases w.length? <;> rfl
  | pattern p =>
    refine Agree.mapError (E := (· = ·)) ?_ fun _ _ he => congrArg _ he
    by_cases hs : ∃ s, v = .string s
    · obtain ⟨s, rfl⟩ := hs
      rw [(h.string s).mp rfl]
      exact .refl (fun _ _ => rfl) fun _ => rfl
    · have other : ∀ {x : Value}, (∀ s, x ≠ .string s) → ∃ m e, p.check x =
          .ok (.refuse m .invalidType p.description e x) := by
        intro x hx
        cases x with
        | string s => exact absurd rfl (hx s)
        | _ => exact ⟨_, _, rfl⟩
      obtain ⟨m, e, hv⟩ := other fun s hv => hs ⟨s, hv⟩
      obtain ⟨m', e', hw⟩ := other fun s hw => hs ⟨s, (h.string s).mpr hw⟩
      rw [hv, hw]
      rfl
  | equals a =>
    simp only [check, Value.checkLiteral, ha a rfl]
    split_ifs <;> rfl
  | type t =>
    have hholds : t.holds v = t.holds w := by
      cases t <;> simp only [TypeTag.holds, h.typeName, h.isForeign]
    simp only [check, TypeTag.check, hholds]
    split_ifs <;> rfl
  | predicate p => exact hc p rfl

/-- A literal that the constraint compares with names only symbols that keep their names. -/
def Keeps (f : Token → Token) : Constraint → Prop
  | .equals a => a.Keeps f
  | _ => True

theorem check_recasts {f : Token → Token} (hf : f.Injective) (hhooks : hooks.Ignores f) (h : v.Recasts f w)
    {c : Constraint} (hc : c.Keeps f) : Agree (· = ·) SameVerdict (c.check hooks v) (c.check hooks w) := by
  refine check_lookalike h.lookalike c (fun a ha => ?_) fun p _ => ?_
  · subst ha
    exact h.literalEqual hf hc
  have code : ∀ x : Value, (Failure.ofVerdict "" (p.check hooks x)).map Failure.place =
      (hooks.judge p.function x).code?.toList.map fun k => ([], k) := by
    intro x
    unfold Predicate.check
    cases hooks.judge p.function x with
    | value a =>
      simp only [Answer.code?]
      split_ifs <;> rfl
    | verdict d => cases d <;> rfl
    | raised e => rfl
  have hcode := code v
  rw [hhooks p.function v w h, ← code w] at hcode
  exact hcode

end Constraint

/-- Pairs of surroundings that stay related inside of a value, on either side. -/
structure Visit.Settled (A : Visit → Visit → Prop) : Prop where
  left : ∀ {visit visit'}, A visit visit' → A visit.renewed visit'
  right : ∀ {visit visit'}, A visit visit' → A visit visit'.renewed

theorem Visit.Settled.both {A : Visit → Visit → Prop} (hA : Settled A) {visit visit' : Visit} (h : A visit visit') :
    A visit.renewed visit'.renewed := hA.left (hA.right h)

namespace Check

/-- The two checks answer alike on a value and the value with its symbols renamed, in surroundings that satisfy `A`. -/
def Recasts (f : Token → Token) (A : Visit → Visit → Prop) (c d : Check) : Prop :=
  ∀ visit visit' v w, A visit visit' → v.Recasts f w → Agree (· = ·) (Outcome.Recasts f) (c visit v) (d visit' w)

variable {f : Token → Token} {A : Visit → Visit → Prop} {hooks : Hooks} {config : Config} {v w : Value}
  {visit visit' : Visit}

theorem keyword_recasts (k : Keyword) : Recasts f A (keyword k) (keyword k) := by
  intro visit visit' v w _ h
  refine ⟨h, ?_⟩
  simp only [Keyword.check, h.lookalike.holds k]
  split_ifs <;> rfl

theorem literal_recasts (hf : f.Injective) {a : Value} (ha : a.Keeps f) : Recasts f A (literal a) (literal a) := by
  intro visit visit' v w _ h
  unfold literal
  rw [h.domain, h.literalEqual hf ha]
  split_ifs
  · exact ⟨h, rfl⟩
  · exact .fail h _ _ _ _ _ _ _

theorem constraintFailures_recasts (hf : f.Injective) (hhooks : hooks.Ignores f) (h : v.Recasts f w)
    {cs : List Constraint} (hcs : ∀ c ∈ cs, c.Keeps f) :
    Agree (· = ·) (Failure.RecastPlaces f) (constraintFailures hooks v cs) (constraintFailures hooks w cs) := by
  induction cs with
  | nil => rfl
  | cons c cs ih =>
    rw [List.forall_mem_cons] at hcs
    have hcheck := (Constraint.check_recasts hf hhooks h hcs.1).mapError fun _ _ he => congrArg Fault.check he
    refine hcheck.bind fun d e hde => (ih hcs.2).bind fun xs ys hxs => ?_
    have hplace : (Failure.ofVerdict c.description d).map (Failure.recastPlace f) =
        (Failure.ofVerdict "" d).map Failure.place := by cases d <;> rfl
    have hplace' : (Failure.ofVerdict c.description e).map Failure.place =
        (Failure.ofVerdict "" e).map Failure.place := by cases e <;> rfl
    exact Failure.RecastPlaces.append (hplace.trans (hde.trans hplace'.symm)) hxs

theorem Recasts.constrained (hf : f.Injective) (hhooks : hooks.Ignores f) {c d : Check} (h : c.Recasts f A d)
    {cs : List Constraint} (hcs : ∀ c ∈ cs, c.Keeps f) :
    (Check.constrained hooks c cs).Recasts f A (.constrained hooks d cs) := by
  intro visit visit' v w hA hv
  refine (h visit visit' v w hA hv).bind fun o p ho => ?_
  rw [← ho.isOk]
  split_ifs
  · exact (constraintFailures_recasts hf hhooks ho.output hcs).bind fun _ _ hxs => ⟨ho.output, hxs⟩
  · exact ho

section Lists

variable {k k' : Schema → Check} {ss : List Schema}

theorem conjunction_recasts (hA : Visit.Settled A) (h : ∀ s ∈ ss, (k s).Recasts f A (k' s)) :
    (conjunction (ss.map k)).Recasts f A (conjunction (ss.map k')) := by
  induction ss with
  | nil => exact fun _ _ _ _ _ hv => ⟨hv, rfl⟩
  | cons s ss ih =>
    rw [List.forall_mem_cons] at h
    intro visit visit' v w hvisit hv
    refine (h.1 visit visit' v w hvisit hv).bind fun o p ho => ?_
    have hnext : A (if o.rebuilt then visit.renewed else visit) (if p.rebuilt then visit'.renewed else visit') := by
      split_ifs
      · exact hA.both hvisit
      · exact hA.left hvisit
      · exact hA.right hvisit
      · exact hvisit
    exact (ih h.2 _ _ _ _ hnext ho.output).bind fun o' p' ho' => ⟨ho'.output, ho.failures.append ho'.failures⟩

variable {domains : Schema → Except Fault (Option DomainSet)} {g : Schema → Schema}

/-- What two branches of the same domains were refused for. -/
def SameAttempt (f : Token → Token) (domains : Schema → Except Fault (Option DomainSet))
    (a b : Schema × List Failure) : Prop :=
  domains a.1 = domains b.1 ∧ Failure.RecastPlaces f a.2 b.2

theorem firstAccepting_recasts (h : ∀ s ∈ ss, (k s).Recasts f A (k' s))
    (hdomains : ∀ s ∈ ss, domains s = domains (g s)) (hvisit : A visit visit') (hv : v.Recasts f w) :
    Agree (· = ·) (Sum.LiftRel (Outcome.Recasts f) (List.Forall₂ (SameAttempt f domains)))
      (firstAccepting visit v (ss.map fun s => (s, k s))) (firstAccepting visit' w (ss.map fun s => (g s, k' s))) := by
  induction ss with
  | nil => exact .inr .nil
  | cons s ss ih =>
    rw [List.forall_mem_cons] at h hdomains
    refine (h.1 visit visit' v w hvisit hv).bind fun o p ho => ?_
    rw [← ho.isOk]
    split_ifs
    · exact .inl ho
    · refine (ih h.2 hdomains.2).bind fun a b hab => ?_
      cases hab with
      | inl hop => exact .inl hop
      | inr hall => exact .inr (.cons ⟨hdomains.1, ho.failures⟩ hall)

theorem matching_recasts (d : Domain) {as bs : List (Schema × List Failure)}
    (h : List.Forall₂ (SameAttempt f domains) as bs) :
    Agree (· = ·) (List.Forall₂ (Failure.RecastPlaces f)) (matching domains d as) (matching domains d bs) := by
  induction h with
  | nil => exact .nil
  | @cons a b as bs hab _ ih =>
    obtain ⟨s, fs⟩ := a
    obtain ⟨t, gs⟩ := b
    unfold matching
    rw [← show domains s = domains t from hab.1]
    refine Agree.bind (R := (· = ·)) (.refl (fun _ _ => rfl) fun _ => rfl) fun ds _ hds => ?_
    subst hds
    refine ih.bind fun fss gss hfss => ?_
    show List.Forall₂ _ (if _ then _ else _) (if _ then _ else _)
    split_ifs
    · exact .cons hab.2 hfss
    · exact hfss

theorem union_recasts (h : ∀ s ∈ ss, (k s).Recasts f A (k' s)) (hdomains : ∀ s ∈ ss, domains s = domains (g s)) :
    (union domains (ss.map fun s => (s, k s))).Recasts f A (union domains (ss.map fun s => (g s, k' s))) := by
  intro visit visit' v w hvisit hv
  refine (firstAccepting_recasts h hdomains hvisit hv).bind fun a b hab => ?_
  cases hab with
  | inl hop => exact hop
  | inr hall =>
    dsimp only
    rw [hv.domain]
    refine (matching_recasts _ hall).bind fun fss gss hfss => ?_
    cases hfss with
    | nil => exact .fail hv _ _ _ _ _ _ _
    | cons hfg hrest =>
      cases hrest with
      | nil => exact ⟨hv, hfg⟩
      | cons _ _ => exact .fail hv _ _ _ _ _ _ _

end Lists

section Containers

/-- Two entries of which the second is the first with its symbols renamed, but for the labels of tuples. -/
structure SameEntry (f : Token → Token) (e e' : Entry) : Prop where
  key : e'.key = e.key.recast f
  item : e.item.Recasts f e'.item

variable {es es' : List Entry}

theorem find?_recasts (hf : f.Injective) (h : List.Forall₂ (SameEntry f) es es') (key : Key) :
    Option.Rel (SameEntry f) (Entry.find? es key) (Entry.find? es' (key.recast f)) := by
  induction h with
  | nil => exact .none
  | @cons e e' es es' he _ ih =>
    have hkey : (e'.key == key.recast f) = (e.key == key) := by
      rw [he.key, beq_eq_beq, (Key.recast_injective hf).eq_iff]
    unfold Entry.find? at ih ⊢
    rw [List.find?_cons, List.find?_cons, hkey]
    split
    · exact .some he
    · exact ih

theorem collect_recasts (hf : f.Injective) {raw raw' : List (Value × Value)}
    (h : List.Forall₂ (fun d e => d.1.Recasts f e.1 ∧ d.2.Recasts f e.2) raw raw')
    (hes : List.Forall₂ (SameEntry f) es es') :
    List.Forall₂ (SameEntry f) (Entry.collect es raw).1 (Entry.collect es' raw').1 ∧
      Failure.RecastPlaces f (Entry.collect es raw).2 (Entry.collect es' raw').2 := by
  induction h generalizing es es' with
  | nil => exact ⟨hes, rfl⟩
  | @cons d e raw raw' hde _ ih =>
    obtain ⟨k, item⟩ := d
    obtain ⟨k', item'⟩ := e
    have step : List.Forall₂ (SameEntry f) (Entry.add es k item).1 (Entry.add es' k' item').1 ∧
        Failure.RecastPlaces f (Entry.add es k item).2 (Entry.add es' k' item').2 := by
      obtain ⟨hk, hitem⟩ : k.Recasts f k' ∧ item.Recasts f item' := hde
      unfold Entry.add
      rw [hk.key]
      cases hkey : Key.ofValue? k with
      | none =>
        exact ⟨hes, by simp [Failure.RecastPlaces, Failure.recastPlace, Failure.place, Segment.recast, hk.bareText]⟩
      | some key =>
        have hfind := find?_recasts hf hes key
        dsimp only [Option.map_some]
        generalize Entry.find? es key = e at hfind ⊢
        generalize Entry.find? es' (key.recast f) = e' at hfind ⊢
        cases hfind with
        | some _ =>
          exact ⟨hes, by simp [Failure.RecastPlaces, Failure.recastPlace, Failure.place, Segment.recast_ofKey]⟩
        | none => exact ⟨List.rel_append hes (.cons ⟨rfl, hitem⟩ .nil), rfl⟩
    obtain ⟨hrest, hfailures⟩ := ih step.1
    exact ⟨hrest, step.2.append hfailures⟩

/-- Two outputs under construction of which the second has the first's symbols renamed, with failures in the same
places. -/
structure SameRebuild (f : Token → Token) (r s : Rebuilt) : Prop where
  entries : List.Forall₂ (fun d e => d.1.Recasts f e.1 ∧ d.2.Recasts f e.2) r.entries s.entries
  failures : Failure.RecastPlaces f r.failures s.failures

theorem SameRebuild.append {r r' s s' : Rebuilt} (h : SameRebuild f r s) (h' : SameRebuild f r' s') :
    SameRebuild f (r.append r') (s.append s') :=
  ⟨List.rel_append h.entries h'.entries, h.failures.append h'.failures⟩

theorem sameRebuild_empty : SameRebuild f .empty .empty := ⟨.nil, rfl⟩

theorem recasts_toValue (key : Key) : key.toValue.Recasts f (key.recast f).toValue := by cases key <;> rfl

theorem sameRebuild_item (key : Key) {o p : Outcome} (h : o.Recasts f p) :
    SameRebuild f (.item key o) (.item (key.recast f) p) := ⟨.cons ⟨recasts_toValue key, h.output⟩ .nil, h.failures⟩

theorem sameRebuild_failure (key : Key) (m m' c c' : String) (k : Code) (a a' : Value) :
    SameRebuild f (.failure key m c k a) (.failure (key.recast f) m' c' k a') := by
  refine ⟨.nil, ?_⟩
  simp [Failure.RecastPlaces, Failure.recastPlace, Failure.place, Rebuilt.failure, Segment.recast_ofKey]

variable (hf : f.Injective) (hA : Visit.Settled A)

section Defaults

include hA

theorem Recasts.inside {c d : Check} (h : c.Recasts f A d) (s : Segment) (hvisit : A visit visit')
    (hv : v.Recasts f w) :
    Agree (· = ·) (Outcome.Recasts f) (c.inside s visit v) (d.inside (s.recast f) visit' w) :=
  (h visit.renewed visit'.renewed v w (hA.both hvisit) hv).map fun _ _ ho => ho.within s

theorem default_recasts {c d : Check} (h : c.Recasts f A d) {p : Producer}
    (hp : p.Keeps hooks f (visit.depth + 1) (visit'.depth + 1)) (s : Segment) (hvisit : A visit visit') :
    Agree (· = ·) (Outcome.Recasts f) (c.default config hooks p s visit)
      (d.default config hooks p (s.recast f) visit') := by
  refine Agree.bind hp fun v w hv => ?_
  split_ifs
  · exact h.inside hA s hvisit hv
  · exact ⟨hv, rfl⟩

end Defaults

variable {k k' : Schema → Check}

section Objects

include hf hA

theorem property_recasts {p : Property Schema} (h : (k p.value).Recasts f A (k' p.value))
    (hkey : p.key.recast f = p.key)
    (hp : ∀ d, p.presence = .defaultable d → d.Keeps hooks f (visit.depth + 1) (visit'.depth + 1))
    (hes : List.Forall₂ (SameEntry f) es es') (hvisit : A visit visit') :
    Agree (· = ·) (SameRebuild f) (property config hooks visit es ⟨p.key, k p.value, p.presence⟩)
      (property config hooks visit' es' ⟨p.key, k' p.value, p.presence⟩) := by
  obtain ⟨key, s, presence⟩ := p
  have hgiven : Option.Rel (SameEntry f) (given? config es ⟨key, k s, presence⟩)
      (given? config es' ⟨key, k' s, presence⟩) := by
    have hfind := find?_recasts hf hes key
    rw [show key.recast f = key from hkey] at hfind
    unfold given?
    dsimp only
    generalize Entry.find? es key = e at hfind ⊢
    generalize Entry.find? es' key = e' at hfind ⊢
    cases hfind with
    | none => exact .none
    | some he =>
      simp only [Option.filter_some, he.item.isUndefined]
      split_ifs
      · exact .some he
      · exact .none
  have hsegment : (Segment.ofKey key).recast f = .ofKey key := by rw [Segment.recast_ofKey, hkey]
  have hitem : ∀ {o p : Outcome}, o.Recasts f p → SameRebuild f (.item key o) (.item key p) := fun ho => by
    have hrebuild := sameRebuild_item key ho
    rwa [show key.recast f = key from hkey] at hrebuild
  unfold property
  dsimp only at h ⊢
  generalize given? config es ⟨key, k s, presence⟩ = e at hgiven ⊢
  generalize given? config es' ⟨key, k' s, presence⟩ = e' at hgiven ⊢
  cases hgiven with
  | some he =>
    have hinside := h.inside hA (.ofKey key) hvisit he.item
    rw [hsegment] at hinside
    exact hinside.map fun _ _ => hitem
  | none =>
    cases presence with
    | required =>
      have hfailure := sameRebuild_failure (f := f) key "must be present" "must be present"
        ("required[" ++ key.text ++ "]") ("required[" ++ key.text ++ "]") .requiredKeyMissing .null .null
      rwa [show key.recast f = key from hkey] at hfailure
    | optional => exact sameRebuild_empty
    | defaultable d =>
      have hdefault : Agree (· = ·) (Outcome.Recasts f) ((k s).default config hooks d (.ofKey key) visit) _ :=
        default_recasts hA h (hp d rfl) (.ofKey key) hvisit
      rw [hsegment] at hdefault
      exact hdefault.map fun _ _ => hitem

theorem properties_recasts {ps : List (Property Schema)} (h : ∀ p ∈ ps, (k p.value).Recasts f A (k' p.value))
    (hkeys : ∀ p ∈ ps, p.key.recast f = p.key)
    (hps : ∀ p ∈ ps, ∀ d, p.presence = .defaultable d → d.Keeps hooks f (visit.depth + 1) (visit'.depth + 1))
    (hes : List.Forall₂ (SameEntry f) es es') (hvisit : A visit visit') :
    Agree (· = ·) (SameRebuild f) (properties config hooks visit es (ps.map fun p => ⟨p.key, k p.value, p.presence⟩))
      (properties config hooks visit' es' (ps.map fun p => ⟨p.key, k' p.value, p.presence⟩)) := by
  induction ps with
  | nil => exact sameRebuild_empty
  | cons p ps ih =>
    rw [List.forall_mem_cons] at h hkeys hps
    exact (property_recasts hf hA h.1 hkeys.1 hps.1 hes hvisit).bind fun _ _ hr =>
      (ih h.2 hkeys.2 hps.2).bind fun _ _ hs => hr.append hs

variable {o : ObjectShape Schema}

omit hf in
theorem undeclared_recasts (h : ∀ i, o.index = some i → (k i.key).Recasts f A (k' i.key) ∧
      (k i.value).Recasts f A (k' i.value)) {e e' : Entry} (he : SameEntry f e e') (hvisit : A visit visit') :
    Agree (· = ·) (SameRebuild f) (undeclared (ofShape k o) visit e) (undeclared (ofShape k' o) visit' e') := by
  obtain ⟨key, raw, item⟩ := e
  obtain ⟨_, raw', item'⟩ := e'
  obtain ⟨rfl, hitem⟩ := he
  have policy : Agree (· = ·) (SameRebuild f) (undeclared ⟨[], none, o.undeclared⟩ visit ⟨key, raw, item⟩)
      (undeclared ⟨[], none, o.undeclared⟩ visit' ⟨key.recast f, raw', item'⟩) := by
    unfold undeclared indexTakes
    cases o.undeclared with
    | reject => exact sameRebuild_failure _ _ _ _ _ _ _ _
    | ignore => exact sameRebuild_item _ ⟨hitem, rfl⟩
    | delete => exact sameRebuild_empty
  rw [undeclared_eq (ofShape k o), undeclared_eq (ofShape k' o)]
  obtain ⟨properties, index, u⟩ := o
  cases index with
  | none => exact policy
  | some i =>
    obtain ⟨hkey, hvalue⟩ := h i rfl
    dsimp only [ofShape, Option.map_some]
    refine (hkey visit.renewed visit'.renewed _ _ (hA.both hvisit) (recasts_toValue key)).bind fun p q hpq => ?_
    rw [← hpq.isOk]
    split_ifs
    · have hinside := hvalue.inside hA (.ofKey key) hvisit hitem
      rw [Segment.recast_ofKey] at hinside
      exact hinside.map fun _ _ ho => sameRebuild_item key ho
    · exact policy

theorem undeclaredAll_recasts (hkeys : ∀ p ∈ o.properties, p.key.recast f = p.key)
    (h : ∀ i, o.index = some i → (k i.key).Recasts f A (k' i.key) ∧ (k i.value).Recasts f A (k' i.value))
    (hes : List.Forall₂ (SameEntry f) es es') (hvisit : A visit visit') :
    Agree (· = ·) (SameRebuild f) (undeclaredAll (ofShape k o) visit es) (undeclaredAll (ofShape k' o) visit' es') := by
  have hdeclares : ∀ key : Key, o.declares (key.recast f) = o.declares key := fun key => by
    rw [Bool.eq_iff_iff, ObjectShape.declares, ObjectShape.declares, List.any_eq_true, List.any_eq_true]
    refine exists_congr fun p => and_congr_right fun hp => ?_
    conv_lhs => rw [← hkeys p hp]
    rw [beq_iff_eq, beq_iff_eq, (Key.recast_injective hf).eq_iff]
  induction hes with
  | nil => exact sameRebuild_empty
  | cons he _ ih =>
    unfold undeclaredAll
    rw [ofShape_declares, ofShape_declares, he.key, hdeclares]
    split_ifs
    · exact ih.bind fun _ _ hs => sameRebuild_empty.append hs
    · exact (undeclared_recasts hA h he hvisit).bind fun _ _ hr => ih.bind fun _ _ hs => hr.append hs

theorem object_recasts (hkeys : ∀ p ∈ o.properties, p.key.recast f = p.key)
    (hproperties : ∀ p ∈ o.properties, (k p.value).Recasts f A (k' p.value))
    (hdefaults : ∀ p ∈ o.properties, ∀ d, p.presence = .defaultable d → ∀ visit visit', A visit visit' →
      d.Keeps hooks f (visit.depth + 1) (visit'.depth + 1))
    (hindex : ∀ i, o.index = some i → (k i.key).Recasts f A (k' i.key) ∧ (k i.value).Recasts f A (k' i.value)) :
    (object config hooks (ofShape k o)).Recasts f A (object config hooks (ofShape k' o)) := by
  intro visit visit' v w hvisit hv
  have hentries := hv.entries
  unfold object
  generalize v.entries? = raw at hentries ⊢
  generalize w.entries? = raw' at hentries ⊢
  cases hentries with
  | none => exact .fail hv _ _ _ _ _ _ _
  | some hraw =>
    obtain ⟨hes, hcollected⟩ := collect_recasts hf hraw .nil
    refine (properties_recasts hf hA hproperties hkeys (fun p hp d hd => hdefaults p hp d hd _ _ hvisit) hes
      hvisit).bind fun r s hrs => ?_
    refine (undeclaredAll_recasts hf hA hkeys hindex hes hvisit).bind fun r' s' hrs' => ?_
    have hall := hrs.append hrs'
    refine ⟨?_, hcollected.append hall.failures⟩
    show (Value.mapping _).recast f = (Value.mapping _).recast id
    simp only [Value.recast, Value.recastEntries_eq]
    rw [Value.mapping.injEq, ← List.forall₂_eq_eq_eq, List.forall₂_map_left_iff, List.forall₂_map_right_iff]
    exact hall.entries.imp fun d e hde => Prod.ext hde.1 hde.2

end Objects

section Tuples

variable {ts : List (Element Schema)} {vs ws : List Value}
include hA

theorem fixedElements_recasts (h : ∀ e ∈ ts, (k e.value).Recasts f A (k' e.value))
    (hdefaults : ∀ e ∈ ts, ∀ d, e.role = .defaultable d → d.Keeps hooks f (visit.depth + 1) (visit'.depth + 1))
    (hvs : List.Forall₂ (Value.Recasts f) vs ws) (hvisit : A visit visit') (i : Nat) :
    Agree (· = ·) (List.Forall₂ (Outcome.Recasts f)) (fixedElements config hooks visit i (ofElements k ts) vs)
      (fixedElements config hooks visit' i (ofElements k' ts) ws) := by
  induction ts generalizing i vs ws with
  | nil => cases hvs <;> exact .nil
  | cons e ts ih =>
    rw [List.forall_mem_cons] at h hdefaults
    cases hvs with
    | cons hv hvs =>
      exact (h.1.inside hA (.position i) hvisit hv).bind fun _ _ ho =>
        (ih h.2 hdefaults.2 hvs (i + 1)).bind fun _ _ hos => .cons ho hos
    | nil =>
      obtain ⟨role, s⟩ := e
      cases role with
      | defaultable d =>
        exact (default_recasts hA h.1 (hdefaults.1 d rfl) (.position i) hvisit).bind fun _ _ ho =>
          (ih h.2 hdefaults.2 .nil (i + 1)).bind fun _ _ hos => .cons ho hos
      | _ => exact .nil

theorem repeatedElement_recasts {c d : Check} (h : c.Recasts f A d) (hvs : List.Forall₂ (Value.Recasts f) vs ws)
    (hvisit : A visit visit') (i : Nat) :
    Agree (· = ·) (List.Forall₂ (Outcome.Recasts f)) (repeatedElement c visit i vs) (repeatedElement d visit' i ws) := by
  induction hvs generalizing i with
  | nil => exact .nil
  | cons hv _ ih =>
    exact (h.inside hA (.position i) hvisit hv).bind fun _ _ ho => (ih (i + 1)).bind fun _ _ hos => .cons ho hos

theorem trailingElements_recasts (h : ∀ e ∈ ts, (k e.value).Recasts f A (k' e.value))
    (hvs : List.Forall₂ (Value.Recasts f) vs ws) (hvisit : A visit visit') (i : Nat) :
    Agree (· = ·) (List.Forall₂ (Outcome.Recasts f)) (trailingElements visit i (ofElements k ts) vs)
      (trailingElements visit' i (ofElements k' ts) ws) := by
  induction ts generalizing i vs ws with
  | nil => cases hvs <;> exact .nil
  | cons e ts ih =>
    rw [List.forall_mem_cons] at h
    cases hvs with
    | nil => exact .nil
    | cons hv hvs =>
      exact (h.1.inside hA (.position i) hvisit hv).bind fun _ _ ho =>
        (ih h.2 hvs (i + 1)).bind fun _ _ hos => .cons ho hos

theorem elements_recasts (h : ∀ e ∈ ts, (k e.value).Recasts f A (k' e.value))
    (hdefaults : ∀ e ∈ ts, ∀ d, e.role = .defaultable d → d.Keeps hooks f (visit.depth + 1) (visit'.depth + 1))
    (hvs : List.Forall₂ (Value.Recasts f) vs ws) (hvisit : A visit visit') :
    Agree (· = ·) (List.Forall₂ (Outcome.Recasts f)) (elements config hooks (ofElements k ts) visit vs)
      (elements config hooks (ofElements k' ts) visit' ws) := by
  have hlength := hvs.length_eq
  unfold elements
  simp only [fixed_ofElements, trailing_ofElements, variadic_ofElements, length_ofElements, ← hlength]
  have hfront := List.forall₂_take (vs.length - (Element.trailing ts).length) hvs
  refine (fixedElements_recasts hA (fun e he => h e (List.mem_filter.mp he).1)
    (fun e he => hdefaults e (List.mem_filter.mp he).1) hfront hvisit 0).bind fun head head' hhead => ?_
  cases hvariadic : Element.variadic? ts with
  | none => exact hhead
  | some e =>
    have he := h e (List.mem_of_find?_eq_some hvariadic)
    refine (repeatedElement_recasts hA he (List.forall₂_drop _ hfront) hvisit _).bind fun middle middle' hmiddle => ?_
    rw [← hfront.length_eq]
    exact (trailingElements_recasts hA (fun e he => h e (List.mem_filter.mp he).1) (List.forall₂_drop _ hvs) hvisit
      _).bind fun tail tail' htail => List.rel_append (List.rel_append hhead hmiddle) htail

omit hA in
theorem lengthFits_ofElements (k k' : Schema → Check) (n : Nat) :
    lengthFits (ofElements k ts) n = lengthFits (ofElements k' ts) n := by
  simp only [lengthFits, Element.leastLength, Element.greatestLength?, ofElements, List.countP_map, List.any_map,
    List.length_map, Function.comp_def]

theorem tuple_recasts (shape shape' : List (Element Schema)) (h : ∀ e ∈ ts, (k e.value).Recasts f A (k' e.value))
    (hdefaults : ∀ e ∈ ts, ∀ d, e.role = .defaultable d → ∀ visit visit', A visit visit' →
      d.Keeps hooks f (visit.depth + 1) (visit'.depth + 1)) :
    (tuple config hooks shape (ofElements k ts)).Recasts f A (tuple config hooks shape' (ofElements k' ts)) := by
  intro visit visit' v w hvisit hv
  have hitems := hv.items
  unfold tuple
  generalize v.items? = p at hitems ⊢
  generalize w.items? = p' at hitems ⊢
  cases hitems with
  | none => exact .fail hv _ _ _ _ _ _ _
  | @some p p' hpp =>
    obtain ⟨q, items⟩ := p
    obtain ⟨q', items'⟩ := p'
    obtain ⟨rfl, hall⟩ : q = q' ∧ List.Forall₂ (Value.Recasts f) items items' := hpp
    dsimp only
    rw [lengthFits_ofElements k k', hall.length_eq]
    split_ifs
    · refine (elements_recasts hA h (fun e he d hd => hdefaults e he d hd _ _ hvisit) hall hvisit).bind
        fun os ps hos => ⟨?_, ?_⟩
      · have houtputs : (Outcome.outputs os).map (Value.recast f) = (Outcome.outputs ps).map (Value.recast id) := by
          rw [← List.forall₂_eq_eq_eq]
          simp only [Outcome.outputs, List.forall₂_map_left_iff, List.forall₂_map_right_iff]
          exact hos.imp fun _ _ ho => ho.output
        show (q.make _).recast f = (q.make _).recast id
        cases q <;> simp only [Value.Sequence.make, Value.recast, Value.recastAll_eq, houtputs]
      · show Failure.RecastPlaces f (Outcome.allFailures os) (Outcome.allFailures ps)
        unfold Outcome.allFailures
        clear hall
        induction hos with
        | nil => rfl
        | cons ho _ ih => exact ho.failures.append ih
    · exact .fail hv _ _ _ _ _ _ _

end Tuples

end Containers

end Check
end Schemata
