import Schemata.Proofs.Algebra.Stops
import Schemata.Proofs.Schema.Usable

/-! What operations on usable schemas stop with: with errors of schemas, and with data that may change and so cannot be
part of a key, where such data was quoted. What they put together can be used in turn. -/
namespace Schemata

/-- The error is about a name that was not looked behind. Only of names that lead back to themselves one is left. -/
def SchemaError.isUnended : SchemaError → Bool
  | .definition (.spread (.ref _) _) => true
  | .keyNotFound _ (.ref _) => true
  | _ => false

theorem SchemaError.isUnended_of_isMismatch {e : SchemaError} (h : e.isMismatch = true) : e.isUnended = false := by
  cases e <;> first | rfl | cases h

/-- Among the errors `Q` are those of schemas, and that data cannot be part of a key if some was quoted that may change. -/
structure Expected (quoted : Prop) (Q : Fault → Prop) : Prop where
  schema : ∀ e, e.isUnended = false → Q (.schema e)
  unhashable : quoted → ∀ typeName, Q (.unhashable typeName)

variable {quoted : Prop} {Q : Fault → Prop}

theorem Schema.hashable_ends (hQ : Expected quoted Q) {a b : Schema} (ha : a.Usable quoted) (hb : b.Usable quoted) :
    Ends (a.hashable b) (fun _ => True) Q := by
  unfold hashable
  rcases ha.changeable? with hquoted | ha
  · cases a.changeable?.or b.changeable? with
    | none => trivial
    | some typeName => exact hQ.unhashable hquoted typeName
  · rcases hb.changeable? with hquoted | hb
    · cases a.changeable?.or b.changeable? with
      | none => trivial
      | some typeName => exact hQ.unhashable hquoted typeName
    · simp [ha, hb, Ends]

namespace Env

/-- Names lead to usable schemas, and trial runs have a configuration or are refused one with an error of `Q`. -/
structure Usable (quoted : Prop) (Q : Fault → Prop) (env : Env) : Prop where
  stored : ∀ r t, env.target r = .filled t → t.Usable quoted
  trial : Ends env.trial (fun _ => True) Q

variable {env : Env} {a b s : Schema}

section Operations

variable (hQ : Expected quoted Q) (henv : env.Usable quoted Q)
include hQ henv

theorem resolve_ends (r : Ref) : Ends (env.resolve r) (Schema.Usable quoted) Q := by
  unfold resolve
  cases ht : env.target r with
  | filled t => exact henv.stored r t ht
  | _ => exact hQ.schema _ rfl

theorem resolve?_ends (r : Ref) : Ends (env.resolve? r) (fun o => ∀ t, o = some t → t.Usable quoted) Q := by
  unfold resolve?
  cases ht : env.target r with
  | filled t =>
    rintro _ ⟨⟩
    exact henv.stored r t ht
  | pending => exact nofun
  | lost => exact hQ.schema _ rfl

theorem deref_ends (hs : s.Usable quoted) : Ends (env.deref s) (Schema.Usable quoted) Q := by
  have through : ∀ fuel s, s.Usable quoted → Ends (env.throughRefs fuel s) (Schema.Usable quoted) Q := by
    intro fuel
    induction fuel with
    | zero => exact fun s hs => hs
    | succ fuel ih =>
      intro s hs
      cases s with
      | ref r => exact (resolve_ends hQ henv r).bind ih
      | _ => exact hs
  exact through _ s hs

theorem domains?_stops (s : Schema) : Ends (env.domains? s) (fun _ => True) Q :=
  domains?_ends (fun r => (resolve?_ends hQ henv r).mono (fun _ _ => trivial) fun _ h => h) s

theorem admits_ends (hs : s.Usable quoted) (v : Value) : Ends (env.admits s v) (fun _ => True) Q := by
  refine henv.trial.bind fun config _ => Ends.map (P := fun _ => True) ?_ fun _ _ => trivial
  refine checkWithin_stops (fun follow t ht hfollow => ?_) (fun r _ => resolve_ends hQ henv r) config.maxDepth hs .root v
  have defaults : t.DefaultsEnd env.hooks Q := fun p hp copy =>
    Producer.produce_ends.mono (fun _ h => h) fun e he => by
      rcases he with ⟨x, rfl⟩ | ⟨-, hfactory, hno⟩
      · exact hQ.schema _ rfl
      · simp [ht.copyable p hp hfactory] at hno
  cases t with
  | ref r => exact hfollow r rfl
  | constrained t cs =>
    intro c hc v
    obtain ⟨d, hd⟩ := (ht.sound c hc).check env.hooks v
    rw [hd]
    trivial
  | union bs => exact fun b _ => domains?_stops hQ henv b
  | _ => exact defaults

theorem stopsOn : env.StopsOn (Schema.Usable quoted) Q where
  part _ _ hs ht := hs.part ht
  behind s hs := by
    cases s with
    | ref r => exact resolve?_ends hQ henv r
    | _ =>
      rintro _ ⟨⟩
      exact hs
  hashable _ _ hs ht _ := Schema.hashable_ends hQ hs ht
  domains s _ := domains?_stops hQ henv s
  admits _ v hs := admits_ends hQ henv hs v
  implied s t cs ds hs ht d hd :=
    Constraint.impliedBy_ends (ht.root.sound d hd) fun c hc => hs.root.sound c hc
  accepted t ds v ht := Constraint.allAccept_ends env.hooks v fun d hd => ht.root.sound d hd

theorem isSubset_ends (ha : a.Usable quoted) (hb : b.Usable quoted) : Ends (env.isSubset a b) (fun _ => True) Q :=
  (stopsOn hQ henv).isSubset ha hb

theorem union_ends {ss : List Schema} (hss : ∀ s ∈ ss, s.Usable quoted) :
    Ends (env.union ss) (Schema.Usable quoted) Q := by
  have bare : ∀ bs, (Schema.union bs).UsableNode quoted := fun bs => Schema.usableNode_of_bare ⟨trivial, rfl, trivial⟩
  have boolean : (Schema.keyword .boolean).UsableNode quoted := Schema.usableNode_of_bare ⟨trivial, rfl, trivial⟩
  exact ((stopsOn hQ henv).union (Schema.every_flat boolean hss)).self.mono
    (fun _ h => every_union boolean bare hss h) fun _ h => h

theorem makeObject_usable {o : ObjectShape Schema} (ho : (Schema.object o).Usable quoted) :
    Ends (env.makeObject o) (Schema.Usable quoted) Q := by
  refine (makeObject_stops (fun i _ => domains?_stops hQ henv i.key) fun e => hQ.schema _ rfl).mono ?_ fun _ h => h
  rintro _ rfl
  exact ho

end Operations

section Intersection

variable {meet : Schema → Schema → Compose Schema} {o u : ObjectShape Schema} {es fs : List (Element Schema)}

/-- Usable schemas meet in one. -/
def Upholds (quoted : Prop) (Q : Fault → Prop) (meet : Schema → Schema → Compose Schema) : Prop :=
  ∀ s t, s.Usable quoted → t.Usable quoted → (meet s t).Yields (Schema.Usable quoted) Q

variable (hQ : Expected quoted Q) (hmeet : Upholds quoted Q meet)
include hQ hmeet

theorem meetShapes_usable {admits : Schema → Value → Except Fault Bool}
    (hadmits : ∀ s v, s.Usable quoted → Ends (admits s v) (fun _ => True) Q) (ho : (Schema.object o).Usable quoted)
    (hu : (Schema.object u).Usable quoted) :
    (ObjectShape.meetShapes admits meet o u).Yields (fun r => (Schema.object r).Usable quoted) Q := by
  have mismatch : ∀ e : SchemaError, e.isMismatch = true → Q (.schema e) := fun e he =>
    hQ.schema e (SchemaError.isUnended_of_isMismatch he)
  obtain ⟨hops, hoi⟩ := Schema.usable_object.mp ho
  obtain ⟨hups, hui⟩ := Schema.usable_object.mp hu
  refine (ObjectShape.meetShapes_made
    (I := fun i => ∀ k, i = some k → k.key.Usable quoted ∧ k.value.Usable quoted) mismatch Schema.usable_never
    (ObjectShape.meetIndex_made (I := fun i => i.key.Usable quoted ∧ i.value.Usable quoted) mismatch hoi hui
      fun i j hi hj => ?_) hops hups (fun i hi v => hadmits i.key v ?_)
    (fun p hp q hq => hmeet _ _ (hops p hp).value (hups q hq).value)
    (fun p hp i hi => hmeet _ _ (hops p hp).value (hui i hi).2)
    fun q hq i hi => hmeet _ _ (hups q hq).value (hoi i hi).2).mono
      (fun r hr => Schema.usable_object.mpr ⟨hr.2.1, hr.1⟩) fun _ h => h
  · exact (hmeet _ _ (hoi i hi).2 (hui j hj).2).mono (fun s hs => ⟨(hoi i hi).1, hs⟩) fun _ h => h
  · rcases hi with hi | hi
    · exact (hoi i hi).1
    · exact (hui i hi).1

theorem meetTuples_usable (hes : (Schema.tuple es).Usable quoted) (hfs : (Schema.tuple fs).Usable quoted) :
    (Element.meetTuples meet es fs).Yields (Schema.Usable quoted) Q := by
  have left := Schema.usable_tuple.mp hes
  have right := Schema.usable_tuple.mp hfs
  refine (Element.meetTuples_made (D := Producer.Copyable)
    (fun e he => hQ.schema e (SchemaError.isUnended_of_isMismatch he)) Schema.usable_never (fun e he => (left e he).default)
    (fun f hf => (right f hf).default) fun e he f hf => hmeet _ _ (left e he).value (right f hf).value).mono ?_ fun _ h => h
  rintro c (rfl | ⟨gs, rfl, hgs, -⟩)
  · simp [hes, hfs]
  · exact Schema.usable_tuple.mpr hgs

theorem meetConstrained_usable (ha : a.Usable quoted) (hb : b.Usable quoted) :
    (meetConstrained meet a b).Yields (Schema.Usable quoted) Q := by
  obtain ⟨hleft, hcs⟩ := Schema.usable_split ha
  obtain ⟨hright, hds⟩ := Schema.usable_split hb
  unfold meetConstrained
  refine (hmeet _ _ hleft hright).bind fun base hbase => ?_
  refine Compose.Yields.bind (.lift (Constraint.gatherAll_ends (fun _ _ => hQ.schema _ rfl)
    (List.forall_mem_append.mpr ⟨hcs, hds⟩))) fun cs hcs => .pure ?_
  exact Schema.usable_constrain hbase hcs

end Intersection

variable (hQ : Expected quoted Q) (henv : env.Usable quoted Q)
include hQ henv

theorem meetBranches_usable {bs : List Schema} {one : Schema → Compose Schema}
    (h : ∀ s ∈ bs, (one s).Yields (Schema.Usable quoted) Q) :
    (env.meetBranches a b bs one).Yields (Schema.Usable quoted) Q := by
  unfold meetBranches
  refine (Compose.Yields.compatible (R := fun _ => Schema.Usable quoted) (N := fun _ => True) fun s hs =>
    (h s hs).mono (fun _ h => h) fun _ he => ⟨fun _ => trivial, fun _ => he⟩).bind fun cs hcs => ?_
  split_ifs
  · exact .throw (hQ.schema _ rfl)
  · refine .lift (union_ends hQ henv fun c hc => ?_)
    obtain ⟨s, -, h⟩ := hcs.1 c hc
    exact h

theorem meetWithin_usable (fuel : Nat) (expanding : List (Schema × Schema)) :
    Upholds quoted Q (env.meetWithin fuel expanding) := by
  induction fuel generalizing expanding with
  | zero => exact fun a b ha hb => .pure (by simp [ha, hb])
  | succ fuel ih =>
    intro a b ha hb
    have lazy : Compose.Yields (pure (.intersection [a, b])) (Schema.Usable quoted) Q := .pure (by simp [ha, hb])
    have stops := stopsOn hQ henv
    unfold meetWithin
    dsimp only
    split_ifs
    · exact .pure ha
    · exact .pure hb
    · exact .pure ha
    · exact .throw (hQ.schema _ rfl)
    · exact Compose.Yields.bind (.lift (Schema.hashable_ends hQ ha hb)) fun _ _ => lazy
    · refine Compose.Yields.bind (.lift (Schema.hashable_ends hQ ha hb)) fun _ _ => ?_
      refine Compose.Yields.bind (.lift (stops.behind a ha)) fun left hleft => ?_
      refine Compose.Yields.bind (.lift (stops.behind b hb)) fun right hright => ?_
      have pending : Compose.Yields (do Compose.defer; pure (.intersection [a, b])) (Schema.Usable quoted) Q :=
        (Compose.Yields.defer (R := fun _ => True) trivial).bind fun _ _ => lazy
      cases left with
      | none => exact pending
      | some s =>
        cases right with
        | none => exact pending
        | some t => exact ih _ s t (hleft s rfl) (hright t rfl)
    · have plain : (env.meetPlain (env.meetWithin fuel expanding) a b).Yields (Schema.Usable quoted) Q := by
        refine meetPlain_made (fun e he => hQ.schema e (SchemaError.isUnended_of_isMismatch he)) ha hb (by simp [ha, hb])
          ?_ (domains?_stops hQ henv) (fun v => ⟨admits_ends hQ henv ha v, admits_ends hQ henv hb v⟩)
          (fun k j => isSubset_ends hQ henv (by simp) (by simp)) (meetConstrained_usable hQ (ih expanding) ha hb) ?_ ?_
        · exact Schema.usable_intersection.mpr (Schema.every_distinct
            (List.forall_mem_append.mpr ⟨Schema.every_members ha, Schema.every_members hb⟩))
        · rintro o u rfl rfl
          exact (meetShapes_usable hQ (ih expanding) (fun s v hs => admits_ends hQ henv hs v) ha hb).bind fun r hr =>
            .lift (makeObject_usable hQ henv hr)
        · rintro es fs rfl rfl
          exact meetTuples_usable hQ (ih expanding) ha hb
      cases a with
      | union bs => exact meetBranches_usable hQ henv fun s hs => ih expanding s b (ha.branch hs) hb
      | _ =>
        cases b with
        | union bs => exact meetBranches_usable hQ henv fun s hs => ih expanding _ s ha (hb.branch hs)
        | _ => exact plain

theorem intersect_ends (ha : a.Usable quoted) (hb : b.Usable quoted) :
    Ends (env.intersect a b).1 (Schema.Usable quoted) Q := meetWithin_usable hQ henv _ _ a b ha hb false

end Env
end Schemata
