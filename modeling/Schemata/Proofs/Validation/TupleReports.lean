import Schemata.Proofs.Algebra.Paths
import Schemata.Proofs.Validation.Idempotence
import Schemata.Proofs.Validation.Keeping
import Schemata.Proofs.Validation.Reports
import Schemata.Proofs.Validation.Totality

/-! Reports on tuples. Every item stands in one place and is reported on there; the defaults of the slots that no item
reaches come behind. -/
namespace Schemata

namespace Element

variable {S : Type} {es fs : List (Element S)} {items : List Value} {n : Nat}

/-- The defaults among elements with their positions. -/
def defaults (slots : List (Element S × Nat)) : List (Producer × S × Nat) :=
  slots.filterMap fun t => t.1.role.default?.map fun d => (d, t.1.value, t.2)

theorem defaults_append (ss ts : List (Element S × Nat)) : defaults (ss ++ ts) = defaults ss ++ defaults ts :=
  List.filterMap_append

theorem defaults_eq_nil {slots : List (Element S × Nat)} (h : ∀ t ∈ slots, t.1.role.rank ≠ 1) : defaults slots = [] := by
  refine List.filterMap_eq_nil_iff.mpr fun t ht => ?_
  have := h t ht
  cases hr : t.1.role <;> simp_all [Role.default?, Role.rank]

theorem rank_lt_of_fixed {e : Element S} (he : e ∈ fixed es) : e.role.rank < 3 := by
  simpa using (List.mem_filter.mp he).2

/-- Elements in the order of their ranks come apart at every rank. -/
theorem filter_rank_append (hsorted : (es.map (·.role)).Pairwise fun a b => a.rank ≤ b.rank) (k : Nat) :
    (es.filter fun e => e.role.rank < k) ++ es.filter (fun e => k ≤ e.role.rank) = es := by
  rw [List.pairwise_map] at hsorted
  induction es with
  | nil => rfl
  | cons e es ih =>
    obtain ⟨hfirst, hrest⟩ := List.pairwise_cons.mp hsorted
    by_cases he : e.role.rank < k
    · rw [List.filter_cons_of_pos (by simpa using he), List.filter_cons_of_neg (by simpa using he), List.cons_append,
        ih hrest]
    · have hall : ∀ f ∈ e :: es, k ≤ f.role.rank :=
        List.forall_mem_cons.mpr ⟨not_lt.mp he, fun f hf => (not_lt.mp he).trans (hfirst f hf)⟩
      rw [List.filter_eq_nil_iff.mpr fun f hf => by simpa using hall f hf, List.nil_append,
        List.filter_eq_self.mpr fun f hf => by simpa using hall f hf]

/-- The fixed elements of a legal tuple stand in front of all others. -/
theorem fixed_append (h : Role.shapeError? (es.map (·.role)) = none) :
    ∃ behind, fixed es ++ behind = es ∧ ∀ e ∈ behind, 3 ≤ e.role.rank :=
  ⟨es.filter fun e => 3 ≤ e.role.rank, filter_rank_append (ranks_of_shape h) 3, fun _ he => by
    simpa using (List.mem_filter.mp he).2⟩

/-- Only fixed elements have defaults. -/
theorem defaults_fixed (h : Role.shapeError? (es.map (·.role)) = none) (n : Nat) :
    defaults (es.zipIdx.drop n) = defaults ((fixed es).zipIdx.drop n) := by
  obtain ⟨behind, heq, hbehind⟩ := fixed_append h
  have hnone : ∀ k l, defaults ((behind.zipIdx k).drop l) = [] := fun k l => defaults_eq_nil fun t ht => by
    have := hbehind t.1 (List.fst_mem_of_mem_zipIdx (List.mem_of_mem_drop ht))
    omega
  conv_lhs => rw [← heq, List.zipIdx_append, List.drop_append, defaults_append, hnone, List.append_nil]

/-- With trailing elements the items reach all fixed elements. -/
theorem length_le_front (h : Role.shapeError? (es.map (·.role)) = none) (hn : leastLength es ≤ n)
    (htrailing : trailing es ≠ []) : (fixed es).length ≤ n - (trailing es).length := by
  have := length_of_trailing h htrailing
  omega

theorem drop_front {α : Type} (as : List α) (h : Role.shapeError? (es.map (·.role)) = none) (hn : leastLength es ≤ n)
    (hlength : as.length = (fixed es).length) : as.drop (n - (trailing es).length) = as.drop n := by
  by_cases htrailing : trailing es = []
  · rw [htrailing, List.length_nil, Nat.sub_zero]
  · have := length_le_front h hn htrailing
    rw [List.drop_eq_nil_of_le (by omega), List.drop_eq_nil_of_le (by omega)]

/-- A leading element has an item. -/
theorem rank_pos_of_open (h : Role.shapeError? (es.map (·.role)) = none) (hn : leastLength es ≤ n) {e : Element S}
    (he : e ∈ (fixed es).drop n) : 0 < e.role.rank := by
  obtain ⟨behind, heq, -⟩ := fixed_append h
  obtain ⟨i, hi⟩ := List.mem_iff_getElem?.mp he
  have hget : es[n + i]? = some e := by
    rw [List.getElem?_drop] at hi
    rw [← heq, List.getElem?_append_left (List.getElem?_eq_some_iff.mp hi).1, hi]
  obtain ⟨hlt, rfl⟩ := List.getElem?_eq_some_iff.mp hget
  by_contra hrank
  have := lt_leastLength h hlt (by simpa [Role.isLeading] using hrank)
  omega

theorem length_fixed (es : List (Element S)) : (fixed es).length =
    (es.countP fun e => e.role.isLeading) + (es.countP fun e => e.role.default?.isSome) +
      es.countP fun e => e.role.isOptional := by
  rw [fixed, ← List.countP_eq_length_filter]
  induction es with
  | nil => rfl
  | cons e es ih =>
    simp only [List.countP_cons, ih]
    cases e.role <;> simp [Role.isLeading, Role.isOptional, Role.rank, Role.default?] <;> omega

theorem length_trailing (es : List (Element S)) : (trailing es).length = es.countP fun e => e.role.isTrailing := by
  rw [trailing, List.countP_eq_length_filter]

theorem leastLength_eq_add (es : List (Element S)) :
    leastLength es = (es.countP fun e => e.role.isLeading) + es.countP fun e => e.role.isTrailing := by
  unfold leastLength
  induction es with
  | nil => rfl
  | cons e es ih =>
    simp only [List.countP_cons, ih]
    cases e.role <;> simp [Role.isLeading, Role.isTrailing, Role.rank] <;> omega

theorem variadic_eq_none : variadic? es = none ↔ (es.countP fun e => e.role.isVariadic) = 0 := by
  simp [variadic?, List.countP_eq_zero]

/-- Without a variadic element the fixed ones limit the number of items. -/
theorem admits_iff (hs : Settled es) :
    Admits es n ↔ leastLength es ≤ n ∧ (variadic? es = none → n ≤ (fixed es).length) := by
  refine and_congr_right fun _ => ?_
  unfold greatestLength?
  cases hv : variadic? es with
  | none =>
    have hno : ¬ es.any (fun e => e.role.isVariadic) = true := by simpa [variadic?, List.find?_eq_none] using hv
    simp [hno, length_of_not_variadic hv (hs hv)]
  | some e =>
    have hany : es.any (fun e => e.role.isVariadic) = true :=
      List.any_eq_true.mpr ⟨e, List.mem_of_find?_eq_some hv, by simpa using List.find?_some hv⟩
    simp [hany]

/-- The place of an item: fixed elements count from the front, trailing ones from the end, and the variadic one has all
between. -/
theorem places_getElem? (hs : Settled es) (hadmits : Admits es items.length) {i : Nat} {x : Value}
    (hx : items[i]? = some x) : ∃ e,
      (if i < min (fixed es).length (items.length - (trailing es).length) then (fixed es)[i]?
        else if items.length - (trailing es).length ≤ i then (trailing es)[i - (items.length - (trailing es).length)]?
        else variadic? es) = some e ∧ (places es items)[i]? = some (e.value, x) := by
  obtain ⟨hi, hx⟩ := List.getElem?_eq_some_iff.mp hx
  have hleast := (trailing_le_least es).trans hadmits.1
  have hbound := ((admits_iff hs).mp hadmits).2
  unfold places
  split_ifs with hfront hend
  · have hlt : i < (fixed es).length := by omega
    refine ⟨(fixed es)[i], List.getElem?_eq_getElem hlt, ?_⟩
    rw [List.getElem?_append_left (by simp; omega), List.getElem?_eq_getElem (by simp; omega)]
    simp [hx]
  · cases hv : variadic? es with
    | none => simp [hs hv] at hend; omega
    | some e =>
      have hlt : i - (items.length - (trailing es).length) < (trailing es).length := by omega
      refine ⟨(trailing es)[i - (items.length - (trailing es).length)], List.getElem?_eq_getElem hlt, ?_⟩
      rw [List.getElem?_append_right (by simp; omega), List.getElem?_append_right (by simp; omega),
        List.getElem?_eq_getElem (by simp; omega)]
      have hat : i - min (fixed es).length (items.length - (trailing es).length) -
          (items.length - (trailing es).length - (fixed es).length) = i - (items.length - (trailing es).length) := by
        omega
      have hback : items.length - (trailing es).length + (i - (items.length - (trailing es).length)) = i := by omega
      simp [hat, hback, hx]
  · cases hv : variadic? es with
    | none => have := hbound hv; omega
    | some e =>
      refine ⟨e, rfl, ?_⟩
      rw [List.getElem?_append_right (by simp; omega), List.getElem?_append_left (by simp; omega)]
      have hat : (fixed es).length + (i - min (fixed es).length (items.length - (trailing es).length)) = i := by omega
      have hlt : i < items.length - (trailing es).length := not_le.mp hend
      simp [hat, hx, hlt]

end Element

namespace Env

variable {env : Env} {config : Config} {es fs : List (Element Schema)} {items vs : List Value} {n : Nat}

/-- What an item adds in its place: the report on it, under its position. -/
def placed (env : Env) (config : Config) (t : (Schema × Value) × Nat) : Except Fault (Part Value) :=
  (env.validate config t.1.1 t.1.2).map (.under (.position t.2) id)

/-- What a default adds that takes the place of an item. -/
def filled (env : Env) (config : Config) (t : Producer × Schema × Nat) : Except Fault (Part Value) :=
  env.byDefault config t.1 t.2.1 (.position t.2.2) id

/-- Behind the last item defaults come up to the first element without one. As the elements are in the order of their
ranks, these are all of them. -/
theorem defaults_tell (hsorted : (fs.map (·.role)).Pairwise fun a b => a.rank ≤ b.rank)
    (hopen : ∀ e ∈ fs, 0 < e.role.rank) (i : Nat) :
    Agree (· = ·) (List.Forall₂ (Part.Tells id))
      (Check.fixedElements config env.hooks .root i (Check.ofElements (env.check config) fs) [])
      ((Element.defaults (fs.zipIdx i)).mapM (env.filled config)) := by
  induction fs generalizing i with
  | nil => exact .nil
  | cons e fs ih =>
    obtain ⟨role, value⟩ := e
    obtain ⟨hfirst, hrest⟩ := List.pairwise_cons.mp hsorted
    have hstop : 2 ≤ role.rank → Element.defaults (((⟨role, value⟩ : Element Schema) :: fs).zipIdx i) = [] := by
      intro hrank
      refine Element.defaults_eq_nil fun t ht => ?_
      rcases List.mem_cons.mp (List.fst_mem_of_mem_zipIdx ht) with heq | hmem
      · rw [heq]
        exact Nat.ne_of_gt hrank
      · exact Nat.ne_of_gt (hrank.trans (hfirst _ (List.mem_map_of_mem hmem)))
    cases role with
    | leading => exact absurd (hopen _ List.mem_cons_self) (Nat.lt_irrefl 0)
    | defaultable d =>
      rw [show Element.defaults (((⟨.defaultable d, value⟩ : Element Schema) :: fs).zipIdx i) =
        (d, value, i) :: Element.defaults (fs.zipIdx (i + 1)) from rfl, List.mapM_cons]
      exact (default_tells d (.position i)).bind fun _ _ ho =>
        (ih hrest (fun e he => hopen e (List.mem_cons_of_mem _ he)) (i + 1)).bind fun _ _ hos => .cons ho hos
    | _ =>
      rw [hstop (by decide)]
      exact .nil

theorem fixed_tells (hsorted : (fs.map (·.role)).Pairwise fun a b => a.rank ≤ b.rank) (i : Nat) (vs : List Value)
    (hopen : ∀ e ∈ fs.drop vs.length, 0 < e.role.rank) :
    Agree (· = ·) (List.Forall₂ (Part.Tells id))
      (Check.fixedElements config env.hooks .root i (Check.ofElements (env.check config) fs) vs)
      (do
        let given ← (((fs.map (·.value)).zip vs).zipIdx i).mapM (env.placed config)
        let produced ← (Element.defaults ((fs.zipIdx i).drop vs.length)).mapM (env.filled config)
        pure (given ++ produced)) := by
  induction fs generalizing i vs with
  | nil => cases vs <;> exact .nil
  | cons e fs ih =>
    cases vs with
    | nil =>
      rw [List.zip_nil_right, List.zipIdx_nil, List.mapM_nil, pure_bind, List.length_nil, List.drop_zero]
      simpa using defaults_tell hsorted hopen i
    | cons v vs =>
      rw [List.map_cons, List.zip_cons_cons, List.zipIdx_cons, List.mapM_cons]
      simp only [bind_assoc, pure_bind]
      refine (inside_tells (.position i) v).bind fun o part ho => ?_
      have hrest := ih (List.pairwise_cons.mp hsorted).2 (i + 1) vs hopen
      have hput := hrest.bind (f := fun os => pure (o :: os)) (g := fun parts => pure (part :: parts))
        (S := List.Forall₂ (Part.Tells id)) fun _ _ hos => .cons ho hos
      simpa [Check.ofElements] using hput

theorem repeated_tells (s : Schema) (i : Nat) (vs : List Value) :
    Agree (· = ·) (List.Forall₂ (Part.Tells id)) (Check.repeatedElement (env.check config s) .root i vs)
      (((vs.map fun x => (s, x)).zipIdx i).mapM (env.placed config)) := by
  induction vs generalizing i with
  | nil => exact .nil
  | cons v vs ih =>
    rw [List.map_cons, List.zipIdx_cons, List.mapM_cons]
    exact (inside_tells (.position i) v).bind fun _ _ ho => (ih (i + 1)).bind fun _ _ hos => .cons ho hos

theorem trailing_tells (i : Nat) (vs : List Value) :
    Agree (· = ·) (List.Forall₂ (Part.Tells id))
      (Check.trailingElements .root i (Check.ofElements (env.check config) fs) vs)
      ((((fs.map (·.value)).zip vs).zipIdx i).mapM (env.placed config)) := by
  induction fs generalizing i vs with
  | nil => exact .nil
  | cons e fs ih =>
    cases vs with
    | nil => exact .nil
    | cons v vs =>
      rw [List.map_cons, List.zip_cons_cons, List.zipIdx_cons, List.mapM_cons]
      exact (inside_tells (.position i) v).bind fun _ _ ho => (ih (i + 1) vs).bind fun _ _ hos => .cons ho hos

theorem elements_tell (h : Role.shapeError? (es.map (·.role)) = none) (hn : Element.leastLength es ≤ items.length) :
    Agree (· = ·) (List.Forall₂ (Part.Tells id))
      (Check.elements config env.hooks (Check.ofElements (env.check config) es) .root items)
      (do
        let given ← (Element.places es items).zipIdx.mapM (env.placed config)
        let produced ← (Element.defaults (es.zipIdx.drop items.length)).mapM (env.filled config)
        pure (given ++ produced)) := by
  have hsorted : ((Element.fixed es).map (·.role)).Pairwise fun a b => a.rank ≤ b.rank :=
    (Element.ranks_of_shape h).sublist (List.filter_sublist.map _)
  have hlength : (items.take (items.length - (Element.trailing es).length)).length =
      items.length - (Element.trailing es).length := by simp
  have hhead := @fixed_tells env config _ hsorted 0
    (items.take (items.length - (Element.trailing es).length)) (by
      rw [hlength, Element.drop_front _ h hn rfl]
      exact fun e => Element.rank_pos_of_open h hn)
  rw [hlength, Element.drop_front _ h hn (by simp), ← Element.defaults_fixed h] at hhead
  unfold Check.elements Element.places
  simp only [Check.fixed_ofElements, Check.trailing_ofElements, Check.variadic_ofElements, Check.length_ofElements]
  have hfront : (items.take (items.length - (Element.trailing es).length)).length ≤ items.length :=
    List.length_take_le' _ _
  generalize items.take (items.length - (Element.trailing es).length) = front at hhead hlength hfront
  cases hv : Element.variadic? es with
  | none => simpa using hhead
  | some e =>
    by_cases hreach : (Element.fixed es).length ≤ front.length
    · -- Every fixed element has an item, and no default is filled in.
      have hnone : Element.defaults (es.zipIdx.drop items.length) = [] := by
        rw [Element.defaults_fixed h, List.drop_eq_nil_of_le (by simpa using hreach.trans hfront)]
        rfl
      have hzip : (((Element.fixed es).map (·.value)).zip front).length = (Element.fixed es).length := by
        simpa using hreach
      have hdrop : (Element.fixed es).length + (front.drop (Element.fixed es).length).length = front.length := by
        rw [List.length_drop]
        omega
      rw [hnone, List.mapM_nil] at hhead ⊢
      simp only [pure_bind, List.append_nil, bind_pure, bind_assoc, List.zipIdx_append, hzip, List.length_map,
        Nat.zero_add, hdrop, List.mapM_append, List.append_assoc] at hhead ⊢
      exact hhead.bind fun _ _ hfixed => (repeated_tells e.value _ _).bind fun _ _ hmiddle =>
        (trailing_tells _ _).bind fun _ _ htail => List.rel_append hfixed (List.rel_append hmiddle htail)
    · -- Then no element trails, and nothing is left for the variadic one.
      have htrailing : Element.trailing es = [] := by
        by_contra hne
        exact hreach (hlength ▸ Element.length_le_front h hn hne)
      have hmiddle : Check.repeatedElement (env.check config e.value) .root (Element.fixed es).length [] = pure [] := rfl
      have htail : Check.trailingElements .root front.length (Check.ofElements (env.check config) [])
        (items.drop front.length) = pure [] := rfl
      rw [htrailing, List.drop_eq_nil_of_le (by omega)]
      simpa [hmiddle, htail] using hhead

theorem describedLength_ofElements (k : Schema → Check) :
    Element.describedLength (Check.ofElements k es) = Element.describedLength es := by
  simp [Element.describedLength, Element.leastLength, Element.greatestLength?, Check.ofElements, Function.comp_def]

theorem run_tuple (v : Value) : env.run config (.tuple es) v =
    Check.tuple config env.hooks es (Check.ofElements (env.check config) es) .root v := by
  rw [run, check_tuple]
  rfl

theorem lengthFits_elements :
    Check.lengthFits (Check.ofElements (env.check config) es) n = true ↔ Element.Admits es n := by
  have hlike : List.Forall₂ (Element.Like fun _ _ => True) es (Check.ofElements (env.check config) es) :=
    forall₂_self_map fun _ _ => ⟨rfl, trivial⟩
  exact Check.lengthFits_iff.trans (Element.admits_like hlike).symm

/-- A legal tuple accepts a legal number of items that are accepted in their places, if no default is filled in. -/
theorem accepts_of_places {v : Value} {q : Value.Sequence} (h : Role.shapeError? (es.map (·.role)) = none)
    (hitems : v.items? = some (q, items)) (hadmits : Element.Admits es items.length)
    (hnone : Element.defaults (es.zipIdx.drop items.length) = [])
    (hall : ∀ t ∈ Element.places es items, env.accepts config t.1 t.2 = .ok true) :
    env.accepts config (.tuple es) v = .ok true := by
  have clean : ∀ t ∈ (Element.places es items).zipIdx, Succeeds (env.placed config t) fun part => part.failures = [] := by
    intro t ht
    obtain ⟨o, ho, hok⟩ := accepts_iff.mp (hall t.1 (List.fst_mem_of_mem_zipIdx ht))
    exact ⟨.output o.output, by simp [placed, validate, run, ho, hok, Except.map, Part.under], rfl⟩
  obtain ⟨parts, hparts, hclean⟩ := Succeeds.mapM clean
  have htells := @elements_tell env config _ _ h hadmits.1
  rw [hnone, hparts, List.mapM_nil] at htells
  rw [accepts, run_tuple, Check.tuple, hitems]
  dsimp only
  rw [if_pos (lengthFits_elements.mpr hadmits)]
  generalize Check.elements config env.hooks (Check.ofElements (env.check config) es) .root items = ran at htells ⊢
  cases ran with
  | error e => exact False.elim htells
  | ok os =>
    have hnone : Outcome.allFailures os = [] := by
      rw [← Part.failures_of_tells (show List.Forall₂ (Part.Tells id) os (parts ++ []) from htells), List.append_nil]
      exact List.flatMap_eq_nil_iff.mpr hclean
    exact congrArg Except.ok (by simp [Outcome.isOk, hnone])

/-- Validation of a sequence against a tuple reports on every item in its place, then on the defaults of the slots that
no item reaches. A wrong length is all that is reported otherwise. It answers when all constraints are sound and all
defaults can be made. -/
theorem validate_tuple {v : Value} {q : Value.Sequence} (hshape : Role.shapeError? (es.map (·.role)) = none)
    (hitems : v.items? = some (q, items)) :
    let n := items.length
    let leading := es.countP fun e => e.role.isLeading
    let fixed := leading + (es.countP fun e => e.role.default?.isSome) + es.countP fun e => e.role.isOptional
    let variadic := es.countP fun e => e.role.isVariadic
    let trailing := es.countP fun e => e.role.isTrailing
    (n < leading + trailing ∨ variadic = 0 ∧ fixed < n → env.validate config (.tuple es) v = .ok (.error
      [⟨[], "must be " ++ Element.describedLength es ++ " (was " ++ toString n ++ ")", (Schema.tuple es).expression,
        .invalidLength, .int n⟩])) ∧
    (¬ (n < leading + trailing ∨ variadic = 0 ∧ fixed < n) →
      (∀ i x, items[i]? = some x → ∃ e,
        (if i < min fixed (n - trailing) then (Element.fixed es)[i]?
          else if n - trailing ≤ i then (Element.trailing es)[i - (n - trailing)]?
          else Element.variadic? es) = some e ∧ (Element.places es items)[i]? = some (e.value, x)) ∧
      (Element.places es items).map (·.2) = items ∧
      env.validate config (.tuple es) v = do
        let given ← (Element.places es items).zipIdx.mapM (env.placed config)
        let produced ← (Element.defaults (es.zipIdx.drop n)).mapM (env.filled config)
        pure (Part.report q.make (given ++ produced))) ∧
    ((Schema.tuple es).Every (fun s => s.isRef = false ∧ s.Sound ∧ s.Supplied env.hooks) →
      ∃ report, env.validate config (.tuple es) v = .ok report) := by
  intro n leading fixed variadic trailing
  have hs := Element.settled_of_shape hshape
  have hadmits : Element.Admits es n ↔ ¬ (n < leading + trailing ∨ variadic = 0 ∧ fixed < n) := by
    rw [Element.admits_iff hs, Element.leastLength_eq_add, Element.variadic_eq_none, Element.length_fixed]
    omega
  refine ⟨fun hwrong => ?_, fun hright => ⟨?_, Element.places_items hs (hadmits.mpr hright), ?_⟩, fun hevery => ?_⟩
  · have hmisfit : ¬ Check.lengthFits (Check.ofElements (env.check config) es) items.length = true := by
      rw [lengthFits_elements, hadmits]
      exact not_not_intro hwrong
    rw [validate, run_tuple, Check.tuple, hitems]
    dsimp only
    rw [if_neg hmisfit, describedLength_ofElements]
    rfl
  · intro i x hx
    have hplace := Element.places_getElem? hs (hadmits.mpr hright) hx
    rwa [Element.length_fixed, Element.length_trailing] at hplace
  · refine validate_of_run ?_
    rw [run_tuple, Check.tuple, hitems]
    dsimp only
    rw [if_pos (lengthFits_elements.mpr (hadmits.mpr hright))]
    have hparts := (@elements_tell env config _ _ hshape (hadmits.mpr hright).1).bind
      (S := fun o report => (if o.isOk then .ok o.output else .error o.failures) = report)
      (f := fun os => pure (⟨q.make (Outcome.outputs os), !(q == .tuple && os.isEmpty), Outcome.allFailures os⟩ : Outcome))
      (g := fun parts => pure (Part.report q.make parts)) fun os parts h => (Part.report_of_tells h q.make).symm
    simpa only [bind_assoc, pure_bind] using hparts
  · exact validate_reports hevery

/-- A series of readings: a name, then numbers, then two flags. -/
def series : List (Element Schema) :=
  [⟨.leading, .keyword .string⟩, ⟨.variadic, .keyword .number⟩, ⟨.trailing, .keyword .boolean⟩,
    ⟨.trailing, .keyword .boolean⟩]

/-- A point with defaults for two of its parts, one of which is none. -/
def point : List (Element Schema) :=
  [⟨.leading, .keyword .integer⟩, ⟨.defaultable ⟨⟨0, 0⟩, .int 0, false⟩, .keyword .integer⟩,
    ⟨.defaultable ⟨⟨1, 0⟩, .string "origin", false⟩, .keyword .symbol⟩, ⟨.optional, .keyword .string⟩]

theorem validate_tuple_series :
    let config : Config := { Config.default with defensiveDefaults := true }
    (Role.shapeError? (series.map (·.role)) = none ∧
      bare.validate config (.tuple series) (.list [.int 1, .int 2, .null, .int 3, .bool true]) = .ok (.error
        [⟨[.position 0], "must be a string (was 1)", "string", .invalidType, .int 1⟩,
          ⟨[.position 2], "must be a number (was null)", "number", .invalidType, .null⟩,
          ⟨[.position 3], "must be a boolean (was 3)", "boolean", .invalidType, .int 3⟩]) ∧
      bare.validate config (.tuple series) (.list [.null, .null]) = .ok (.error
        [⟨[], "must be at least length 3 (was 2)", (Schema.tuple series).expression, .invalidLength, .int 2⟩])) ∧
    Role.shapeError? (point.map (·.role)) = none ∧
      (Schema.tuple point).Every (fun s => s.isRef = false ∧ s.Sound ∧ s.Supplied bare.hooks) ∧
      bare.validate config (.tuple point) (.tuple none [.null]) = .ok (.error
        [⟨[.position 0], "must be an integer (was null)", "integer", .invalidType, .null⟩,
          ⟨[.position 2], "must be a symbol (was \"origin\")", "symbol", .invalidType, .string "origin"⟩]) ∧
      bare.validate Config.default (.tuple point) (.tuple none [.int 5]) =
        .ok (.ok (.tuple none [.int 5, .int 0, .string "origin"])) ∧
      ∃ report, bare.validate config (.tuple point) (.tuple none [.null]) = .ok report := by
  intro config
  have hseries : Role.shapeError? (series.map (·.role)) = none := rfl
  have hpoint : Role.shapeError? (point.map (·.role)) = none := rfl
  have hevery : (Schema.tuple point).Every fun s => s.isRef = false ∧ s.Sound ∧ s.Supplied bare.hooks := by
    refine .intro ⟨rfl, trivial, ?_⟩ ?_
    · intro p hp copy
      have hp : p = ⟨⟨0, 0⟩, .int 0, false⟩ ∨ p = ⟨⟨1, 0⟩, .string "origin", false⟩ := by
        simpa [point, Schema.defaults, Role.default?] using hp
      rcases hp with rfl | rfl <;> exact ⟨_, rfl⟩
    · simp only [point, Schema.parts, List.map_cons, List.map_nil, List.forall_mem_cons, List.not_mem_nil,
        IsEmpty.forall_iff, implies_true, and_true]
      exact ⟨every_keyword .integer, every_keyword .integer, every_keyword .symbol, every_keyword .string⟩
  obtain ⟨-, hchecked, hanswers⟩ := @validate_tuple bare config _ _ (.tuple none [.null]) _ hpoint rfl
  refine ⟨⟨hseries, ?_, ?_⟩, hpoint, hevery, (hchecked (by decide)).2.2.trans rfl, ?_, hanswers hevery⟩
  · exact ((@validate_tuple bare config _ _ _ _ hseries rfl).2.1 (by decide)).2.2.trans rfl
  · exact ((@validate_tuple bare config _ _ _ _ hseries rfl).1 (by decide)).trans rfl
  · exact ((@validate_tuple bare .default _ _ _ _ hpoint rfl).2.1 (by decide)).2.2.trans rfl

end Env
end Schemata
