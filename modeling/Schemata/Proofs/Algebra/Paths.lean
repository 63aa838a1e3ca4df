import Schemata.Proofs.Algebra.KeyLookup
import Schemata.Proofs.Algebra.Offers
import Schemata.Proofs.Algebra.TupleMeets
import Schemata.Proofs.Validation.Faults

/-! Lookup describes what is found: along every path of an accepted value the schema that is looked up accepts what
the path leads to, or a default on the way fails. -/
namespace Schemata

namespace Value

/-- A key as it is given: a text, a symbol or a number. -/
def Raw : Value → Prop
  | .string _ => True
  | .symbol _ => True
  | .number _ => True
  | _ => False

/-- What a value has at a key: an item at its position, an item of a mapping under its key. -/
inductive Has (v : Value) : Value → Value → Prop
  | item {q : Sequence} {items : List Value} {n : Nat} {w : Value} : v.items? = some (q, items) →
      items[n]? = some w → Has v (.int n) w
  | entry {entries : List (Value × Value)} {raw key w : Value} {k : Key} : v.entries? = some entries →
      (raw, w) ∈ entries → Key.ofValue? raw = some k → Key.ofValue? key = some k → key.Raw → Has v key w

/-- What a path leads to, from one value to a value that stands in it. -/
inductive Leads : Value → List Value → Value → Prop
  | here {v : Value} : Leads v [] v
  | step {v u w key : Value} {path : List Value} : v.Has key u → Leads u path w → Leads v (key :: path) w

variable {v w key : Value} {es : List Entry} {q : Sequence} {items : List Value} {n : Nat}

theorem entries_of_items (h : v.items? = some (q, items)) : v.entries? = none := by
  unfold items? at h
  unfold entries?
  split at h <;> simp_all

theorem Has.raw (h : v.Has key w) : key.Raw := by
  cases h with
  | item _ _ => trivial
  | entry _ _ _ _ hkey => exact hkey

theorem entry_of_has (hes : v.fields? = some es) (h : v.Has key w) :
    ∃ e ∈ es, Key.ofValue? key = some e.key ∧ e.item = w := by
  obtain ⟨raw, hraw, hall, -⟩ := fields?_eq_some.mp hes
  cases h with
  | item hi _ => simp [entries_of_items hi] at hraw
  | entry hentries hmem hk hkey _ =>
    obtain rfl := Option.some.inj (hraw.symm.trans hentries)
    obtain ⟨e, he, hof, -, hitem⟩ := forall₂_exists_right hall hmem
    exact ⟨e, he, hkey.trans (hk.symm.trans hof), hitem⟩

theorem item_of_has (hi : v.items? = some (q, items)) (hn : Engine.position? key = .ok (some n)) (h : v.Has key w) :
    items[n]? = some w := by
  cases h with
  | item hi' hw =>
    obtain ⟨rfl, rfl⟩ := Prod.mk.inj (Option.some.inj (hi.symm.trans hi'))
    have hn' : some _ = some n := Except.ok.inj hn
    simpa [← Option.some.inj hn'] using hw
  | entry hentries _ _ _ _ => simp [entries_of_items hi] at hentries

end Value

namespace Element

variable {S : Type} {es : List (Element S)} {items : List Value} {n : Nat} {w : Value} {e : Element S}

/-- Beside trailing elements all fixed ones are leading. -/
theorem length_of_trailing (h : Role.shapeError? (es.map (·.role)) = none) (ht : trailing es ≠ []) :
    (fixed es).length + (trailing es).length = leastLength es := by
  have hany : (es.map (·.role)).any Role.isTrailing = true := by
    obtain ⟨e, he⟩ := List.exists_mem_of_ne_nil _ ht
    obtain ⟨he, htrailing⟩ := List.mem_filter.mp he
    exact List.any_eq_true.mpr ⟨e.role, List.mem_map_of_mem he, htrailing⟩
  have homissible : Role.omissible? (es.map (·.role)) = none := by
    have hbeside : Role.besideTrailing? (es.map (·.role)) = none := by
      unfold Role.shapeError? at h
      split at h <;> simp_all
    rwa [Role.besideTrailing?, if_pos hany] at hbeside
  have hranks : ∀ e ∈ es, e.role.rank ≠ 1 ∧ e.role.rank ≠ 2 := by
    intro e he
    obtain ⟨i, hi⟩ := List.mem_iff_getElem?.mp (List.mem_map_of_mem (f := (·.role)) he)
    have hno := List.find?_eq_none.mp homissible _ (List.mk_mem_zipIdx_iff_getElem?.mpr hi)
    simpa using hno
  clear h ht hany homissible
  unfold fixed trailing leastLength
  rw [← List.countP_eq_length_filter, ← List.countP_eq_length_filter]
  induction es with
  | nil => rfl
  | cons e es ih =>
    rw [List.forall_mem_cons] at hranks
    have hrest := ih hranks.2
    obtain ⟨hone, htwo⟩ := hranks.1
    cases hrole : e.role <;> simp [hrole, Role.rank, Role.isLeading, Role.isTrailing] at hone htwo hrest ⊢ <;> omega

/-- In a legal tuple the item at the position of a fixed element stands in its place. -/
theorem place_of_fixed (h : Role.shapeError? (es.map (·.role)) = none) (hadmits : Admits es items.length)
    (he : (fixed es)[n]? = some e) (hw : items[n]? = some w) : (e.value, w) ∈ places es items := by
  obtain ⟨hn, he⟩ := List.getElem?_eq_some_iff.mp he
  obtain ⟨hlen, hw⟩ := List.getElem?_eq_some_iff.mp hw
  have hfront : n < items.length - (trailing es).length := by
    by_cases ht : trailing es = []
    · simpa [ht] using hlen
    · have := length_of_trailing h ht
      have := hadmits.1
      omega
  refine List.mem_append_left _ (List.mem_iff_getElem.mpr ⟨n, ?_, ?_⟩)
  · simp only [List.length_zip, List.length_map, List.length_take]
    omega
  · simp [he, hw]

/-- Behind the fixed elements an item stands in the place of the variadic element or of a trailing one. -/
theorem place_behind (hs : Settled es) (hadmits : Admits es items.length) (hn : (fixed es)[n]? = none)
    (hw : items[n]? = some w) (hv : variadic? es = some e) :
    ∃ s ∈ e.value :: (trailing es).map (·.value), (s, w) ∈ places es items := by
  have hplace : ((places es items)[n]?).map (·.2) = some w := by
    rw [← List.getElem?_map, places_items hs hadmits, hw]
  obtain ⟨t, ht, rfl⟩ := Option.map_eq_some_iff.mp hplace
  refine ⟨t.1, ?_, List.mem_of_getElem? ht⟩
  unfold places at ht
  rw [hv, List.getElem?_append_right (by simp at hn ⊢; omega)] at ht
  rcases List.mem_append.mp (List.mem_of_getElem? ht) with ht | ht
  · obtain ⟨x, -, rfl⟩ := List.mem_map.mp ht
    exact List.mem_cons_self
  · exact List.mem_cons_of_mem _ (List.of_mem_zip ht).1

end Element

namespace Env

variable {env : Env} {config : Config} {o : ObjectShape Schema} {es : List Entry} {e : Entry} {v : Value}

/-- An accepted item of a property, unless it is undefined where the property is optional. -/
theorem accepts_property {p : Property Schema} (h : env.accepts config (.object o) v = .ok true)
    (hes : v.fields? = some es) (he : e ∈ es) (hp : o.property? e.key = some p) :
    env.accepts config p.value e.item = .ok true ∨ p.presence.isOptional = true ∧ e.item = .undefined := by
  obtain ⟨_, hes', hproperties, -⟩ := accepts_object.mp h
  obtain rfl := Option.some.inj (hes.symm.trans hes')
  obtain ⟨hmem, hkey⟩ := ObjectShape.property?_mem hp
  have hfind : Entry.find? es p.key = some e := (Entry.find?_eq_some (Value.nodup_of_fields hes)).mpr ⟨he, hkey.symm⟩
  have hgiven := hproperties p hmem
  unfold Fulfils Check.Given Check.given? at hgiven
  rw [hfind, Option.filter_some] at hgiven
  split_ifs at hgiven with habsent
  · exact Or.inl (accepts_iff.mpr hgiven)
  · refine Or.inr ?_
    rw [Bool.not_eq_true', Bool.not_eq_false, Bool.and_eq_true, Bool.and_eq_true] at habsent
    exact ⟨habsent.1.2, Check.isUndefined_iff.mp habsent.1.1⟩

/-- An item under a key that the index signature takes, in a trial as in the check. -/
theorem accepts_indexed {i : IndexSignature Schema} (h : env.accepts config (.object o) v = .ok true)
    (hes : v.fields? = some es) (he : e ∈ es) (hp : o.property? e.key = none) (hi : o.index = some i)
    (hkey : i.key.Every (Schema.KeyNode False)) (htrial : env.admits i.key e.key.toValue = .ok true) :
    env.accepts config i.value e.item = .ok true := by
  obtain ⟨_, hes', -, hrest⟩ := accepts_object.mp h
  obtain rfl := Option.some.inj (hes.symm.trans hes')
  have hspares := hrest e he (ObjectShape.declares_eq_false.mpr hp)
  unfold Spares at hspares
  rw [hi] at hspares
  obtain ⟨taken, htaken, hspares⟩ := hspares
  have hscalar : e.key.toValue.isScalar = true := Value.IsKey.isScalar ⟨e.key, rfl⟩
  obtain ⟨trial, -, htrial⟩ := bind_ok htrial
  have hhas := (hasKey_of_accepts hkey hscalar htrial).mp rfl
  rwa [if_pos ((hasKey_of_accepts hkey hscalar htaken).mpr hhas)] at hspares

/-- What stands at a key of an offered object is the item of an entry. -/
theorem entry_of_offers {k : Key} {key w : Value} (h : env.Offers config v (.object o)) (hk : Key.ofValue? key = some k)
    (hhas : v.Has key w) : ∃ es, v.fields? = some es ∧ ∃ e ∈ es, e.key = k ∧ e.item = w ∧
      env.accepts config (.object o) v = .ok true := by
  have haccepts := (offers_iff rfl).mp h
  obtain ⟨es, hes, -⟩ := accepts_object.mp haccepts
  obtain ⟨e, he, hek, hitem⟩ := Value.entry_of_has hes hhas
  exact ⟨es, hes, e, he, Option.some.inj (hek.symm.trans hk), hitem, haccepts⟩

/-- What stands at a position of an offered tuple is an item, and every item is accepted in its place. -/
theorem item_of_offers {fs : List (Element Schema)} {n : Nat} {key w : Value} (h : env.Offers config v (.tuple fs))
    (hn : Engine.position? key = .ok (some n)) (hhas : v.Has key w) : ∃ items, Element.Admits fs items.length ∧
      items[n]? = some w ∧ ∀ t ∈ Element.places fs items, env.accepts config t.1 t.2 = .ok true := by
  obtain ⟨q, items, hi, hadmits, hplaces⟩ := places_of_accepts ((offers_iff rfl).mp h)
  exact ⟨items, hadmits, Value.item_of_has hi hn hhas, hplaces⟩

end Env

/-- A class of nodes that normal forms of unions stay in. -/
structure Schema.Fragment (maker : Token → Producer) (p : Schema → Prop) : Prop where
  concrete : ∀ s, p s → s.Concrete maker
  keyword : ∀ k, p (.keyword k)
  union : ∀ bs, p (.union bs)

namespace Engine

variable {st : Session} {scope : Option Nat} {config : Config} {maker : Token → Producer} {p : Schema → Prop}
  {key : Value} {s : Schema} {follow : Ref → Engine Schema}

/-- The schema under a key: it stays in the class, and it offers what stands at the key in every value that is
offered. -/
def Describes (env : Env) (config : Config) (p : Schema → Prop) (key : Value) (s t : Schema) : Prop :=
  t.Every p ∧ ∀ v w, env.Offers config v s → v.Has key w → env.Offers config w t

variable (hp : Schema.Fragment maker p)
include hp

/-- A union describes what stands at the key where some of its schemas does. -/
theorem union_describes {ss : List Schema} (hss : ∀ s ∈ ss, s.Every p) (within : Option Nat)
    (h : ∀ v w, (st.env scope).Offers config v s → v.Has key w → ∃ t ∈ ss, (st.env scope).Offers config w t) :
    Runs (· = st) (union within ss) (Describes (st.env scope) config p key s) fun _ => True := by
  refine Runs.union ?_
  rintro _ rfl
  cases hu : (Session.env _ within).union ss with
  | error e => trivial
  | ok u =>
    refine ⟨?_, fun v w hv hhas => ?_⟩
    · obtain ⟨kept, hkept, hu⟩ := bind_ok hu
      obtain rfl := Except.ok.inj hu
      exact Schema.every_ofBranches hp.union fun t ht =>
        Schema.every_flat (hp.keyword _) hss t (Env.pruned_subset hkept ht)
    · obtain ⟨t, ht, hw⟩ := h v w hv hhas
      exact Env.offers_of_union (fun s hs => (hss s hs).mono hp.concrete) hu ht hw

/-- Beside the undefined schema it is enough to describe what is not undefined. -/
theorem union_undefined_describes {t : Schema} (ht : t.Every p) (within : Option Nat)
    (h : ∀ v w, (st.env scope).Offers config v s → v.Has key w → (st.env scope).Offers config w t ∨ w = .undefined) :
    Runs (· = st) (union within [t, undefinedSchema]) (Describes (st.env scope) config p key s) fun _ => True := by
  have hundefined : undefinedSchema.Every p := .intro (hp.keyword _) (by simp [Schema.parts, undefinedSchema])
  refine union_describes hp (List.forall_mem_cons.mpr ⟨ht, List.forall_mem_singleton.mpr hundefined⟩) within
    fun v w hv hhas => ?_
  rcases h v w hv hhas with hw | rfl
  · exact ⟨t, by simp, hw⟩
  · refine ⟨undefinedSchema, by simp, .accepts ?_⟩
    rw [undefinedSchema, Env.accepts_keyword]
    rfl

theorem valueAt_describes {o : ObjectShape Schema} (ho : (Schema.object o).Every p) :
    Runs (· = st) (valueAt scope o key) (Describes (st.env scope) config p key (.object o)) fun _ => True := by
  unfold valueAt
  cases hk : Key.ofValue? key with
  | none => exact Runs.throw trivial
  | some k =>
    dsimp only
    cases hprop : o.property? k with
    | some q =>
      have hq : q.value.Every p := ho.property (ObjectShape.property?_mem hprop).1
      have item : ∀ v w, (st.env scope).Offers config v (.object o) → v.Has key w →
          (st.env scope).Offers config w q.value ∨ q.presence.isOptional = true ∧ w = .undefined := by
        intro v w hv hhas
        obtain ⟨es, hes, e, he, rfl, rfl, hv⟩ := Env.entry_of_offers hv hk hhas
        exact (Env.accepts_property hv hes he hprop).imp_left .accepts
      dsimp only
      split_ifs with hopt
      · exact union_undefined_describes hp hq scope fun v w hv hhas => (item v w hv hhas).imp_right And.right
      · exact Runs.pure ⟨hq, fun v w hv hhas => (item v w hv hhas).resolve_right fun h => hopt h.1⟩
    | none =>
      dsimp only
      cases hi : o.index with
      | none => exact Runs.throw trivial
      | some i =>
        have hkeys : i.key.Every p := ho.part (by simp [Schema.parts, IndexSignature.parts, hi])
        have hvalue : i.value.Every p := ho.part (by simp [Schema.parts, IndexSignature.parts, hi])
        refine Runs.bind (Runs.env scope) ?_
        rintro _ ⟨_, rfl, rfl⟩
        refine Runs.bind Runs.lifted fun taken htaken => ?_
        cases taken with
        | false => exact Runs.throw trivial
        | true =>
          refine Runs.pure ⟨hvalue, fun v w hv hhas => ?_⟩
          obtain ⟨es, hes, e, he, rfl, rfl, hv⟩ := Env.entry_of_offers hv hk hhas
          have hkeynode := hkeys.mono fun _ h => (hp.concrete _ h).keyNode
          exact .accepts (Env.accepts_indexed hv hes he hprop hi hkeynode htaken)

theorem elementValue_describes {es : List (Element Schema)} (hes : (Schema.tuple es).Every p) :
    Runs (· = st) (elementValue es key) (Describes (st.env scope) config p key (.tuple es)) fun _ => True := by
  have hshape : Role.shapeError? (es.map (·.role)) = none := (hp.concrete _ hes.root).1
  have hvalues : ∀ e ∈ es, e.value.Every p := fun e he => hes.element he
  refine Runs.bind Runs.lifted fun position hposition => ?_
  cases position with
  | none => exact Runs.throw trivial
  | some n =>
    dsimp only
    cases hfixed : (Element.fixed es)[n]? with
    | some e =>
      have he : e.value.Every p := hvalues e (List.mem_of_mem_filter (List.mem_of_getElem? hfixed))
      have item : ∀ v w, (st.env scope).Offers config v (.tuple es) → v.Has key w →
          (st.env scope).Offers config w e.value := by
        intro v w hv hhas
        obtain ⟨items, hadmits, hw, hplaces⟩ := Env.item_of_offers hv hposition hhas
        exact .accepts (hplaces _ (Element.place_of_fixed hshape hadmits hfixed hw))
      dsimp only
      split_ifs
      · exact union_undefined_describes hp he none fun v w hv hhas => Or.inl (item v w hv hhas)
      · exact Runs.pure ⟨he, item⟩
    | none =>
      dsimp only
      cases hvariadic : Element.variadic? es with
      | none => exact Runs.throw trivial
      | some e =>
        refine union_describes hp (List.forall_mem_cons.mpr ⟨?_, List.forall_mem_map.mpr fun f hf => ?_⟩) none
          fun v w hv hhas => ?_
        · exact hvalues e (List.mem_of_find?_eq_some hvariadic)
        · exact hvalues f (List.mem_of_mem_filter hf)
        · obtain ⟨items, hadmits, hw, hplaces⟩ := Env.item_of_offers hv hposition hhas
          obtain ⟨s, hs, hplace⟩ := Element.place_behind (Element.settled_of_shape hshape) hadmits hfixed hw hvariadic
          exact ⟨s, hs, .accepts (hplaces _ hplace)⟩

omit hp in
theorem propertyValue_raw (o : ObjectShape Schema) (hkey : key.Raw) : propertyValue scope o key = valueAt scope o key := by
  cases key <;> first | rfl | exact hkey.elim

theorem stepWith_describes (hkey : key.Raw) (hs : s.Every p) :
    Runs (· = st) (stepWith scope key follow s) (Describes (st.env scope) config p key s) fun _ => True := by
  induction s using Schema.induction_on_parts with
  | _ s ih =>
    cases s with
    | object o =>
      rw [stepWith, propertyValue_raw o hkey]
      exact valueAt_describes hp hs
    | tuple es => exact elementValue_describes hp hs
    | union bs =>
      cases bs with
      | nil => exact Runs.throw trivial
      | cons b bs =>
        refine stepWith_union (List.cons_ne_nil _ _) (fun s hmem => ih s hmem (hs.branch hmem)) fun values hvalues => ?_
        refine union_describes hp (fun t ht => ?_) scope fun v w hv hhas => ?_
        · obtain ⟨_, -, hevery, -⟩ := forall₂_exists_right hvalues ht
          exact hevery
        · obtain ⟨c, hc, hv⟩ := Env.offers_union.mp hv
          obtain ⟨t, ht, -, hoffers⟩ := forall₂_exists_left hvalues hc
          exact ⟨t, ht, hoffers v w hv hhas⟩
    | keyword _ => exact Runs.throw trivial
    | literal _ => exact Runs.throw trivial
    | constrained _ _ => exact (hp.concrete _ hs.root).elim
    | intersection _ => exact (hp.concrete _ hs.root).elim
    | ref _ => exact (hp.concrete _ hs.root).elim

theorem step_describes (hkey : key.Raw) (hs : s.Every p) :
    Runs (· = st) (step scope s key) (Describes (st.env scope) config p key s) fun _ => True :=
  Runs.bind (Runs.env scope) fun _ _ => stepWith_describes hp hkey hs

/-- At the end of a path the lookup offers what the path leads to. -/
theorem select_describes {path : List Value} {v w : Value} (hpath : v.Leads path w) (hs : s.Every p) :
    Runs (· = st) (select scope s path)
      (fun t => t.Every p ∧ ((st.env scope).Offers config v s → (st.env scope).Offers config w t)) fun _ => True := by
  induction hpath generalizing s with
  | here => exact Runs.pure ⟨hs, id⟩
  | @step v u w key path hhas _ ih =>
    refine Runs.bind (P := Describes (st.env scope) config p key s) (step_describes hp hhas.raw hs) fun t ht => ?_
    refine Runs.mono (ih ht.1) (fun r hr => ⟨hr.1, fun hv => ?_⟩) fun _ h => h
    exact hr.2 (ht.2 v u hv hhas)

end Engine

/-- A default of the schema or of one of its parts fails with the error. -/
inductive Schema.Fails (hooks : Hooks) (e : Fault) : Schema → Prop
  | default {s : Schema} {p : Producer} {copy : Nat} : p ∈ s.defaults → p.produce hooks copy = .error e →
      Fails hooks e s
  | part {s t : Schema} : t ∈ s.parts → Fails hooks e t → Fails hooks e s

namespace Schema

variable {hooks : Hooks} {maker : Token → Producer} {Q : Fault → Prop} {s : Schema}

theorem every_defaultsEnd (h : ∀ e, s.Fails hooks e → Q e) : s.Every (DefaultsEnd hooks Q) := by
  induction s using induction_on_parts with
  | _ s ih =>
    refine .intro (fun p hp copy => ?_) fun t ht => ih t ht fun e he => h e (.part ht he)
    cases hrun : p.produce hooks copy with
    | ok v => trivial
    | error e => exact h e (.default hp hrun)

theorem fragment_defaultsEnd : Fragment maker fun s => s.Concrete maker ∧ s.DefaultsEnd hooks Q where
  concrete _ h := h.1
  keyword _ := ⟨nofun, nofun⟩
  union _ := ⟨nofun, nofun⟩

end Schema

namespace Env

variable {env : Env} {config : Config} {maker : Token → Producer} {Q : Fault → Prop} {s : Schema} {v : Value}

/-- What a schema offers it accepts, or a default of it fails. -/
theorem ends_of_offers (hs : s.Every fun s => s.Concrete maker ∧ s.DefaultsEnd env.hooks Q)
    (h : env.Offers config v s) : Ends (env.accepts config s v) (· = true) Q := by
  have hrefs : s.Every fun t => t.Every fun u => u.isRef = false :=
    (hs.mono fun _ h => h.1.sharp.not_isRef).nested
  have hstops : (env.check config s).Stops Q := by
    rw [check_eq]
    refine Schema.checkWith_stops ((hs.and hrefs).mono fun t ⟨⟨hconcrete, hdefaults⟩, hrefs⟩ => ?_)
    cases t with
    | union bs =>
      exact fun b hb => Schema.domainsWith_answers (hrefs.branch hb)
    | constrained _ _ => exact hconcrete.elim
    | ref _ => exact hconcrete.elim
    | _ => exact hdefaults
  have hends : Ends (env.accepts config s v) (fun _ => True) Q := (hstops .root v).map fun _ _ => trivial
  cases hrun : env.accepts config s v with
  | error e =>
    rw [hrun] at hends
    exact hends
  | ok b =>
    cases b with
    | false => exact absurd hrun (not_refused h)
    | true => rfl

end Env

namespace Engine

variable {st : Session} {scope : Option Nat} {config : Config} {maker : Token → Producer} {s t : Schema} {v w : Value}
  {path : List Value}

/-- The schema looked up along a path of an accepted value accepts what the path leads to, unless its check stops
with the error of a default that could not be made. -/
theorem select_accepts (hs : s.Every (Schema.Concrete maker)) (hv : (st.env scope).accepts config s v = .ok true)
    (hpath : v.Leads path w) (ht : ((select scope s path).run st).1 = .ok t) :
    (st.env scope).accepts config t w = .ok true ∨
      ∃ e, (st.env scope).accepts config t w = .error e ∧ s.Fails (st.env scope).hooks e := by
  have hdefaults : s.Every (Schema.DefaultsEnd (st.env scope).hooks fun e => s.Fails (st.env scope).hooks e) :=
    Schema.every_defaultsEnd fun _ he => he
  obtain ⟨hends, -⟩ := select_describes Schema.fragment_defaultsEnd hpath (hs.and hdefaults) st rfl
  rw [ht] at hends
  have haccepts := Env.ends_of_offers hends.1 (hends.2 (.accepts hv))
  cases hrun : (st.env scope).accepts config t w with
  | ok b =>
    rw [hrun] at haccepts
    exact Or.inl (congrArg Except.ok haccepts)
  | error e =>
    rw [hrun] at haccepts
    exact Or.inr ⟨e, rfl, haccepts⟩

/-- A default that is made by a factory. -/
def made : Producer := ⟨⟨0, 0⟩, .callable ⟨"limit", false, true⟩, true⟩

/-- An order: a customer, the quantities, and whether it is paid; any notes beside it. -/
def order : Schema :=
  .object ⟨[⟨.name "lines", .tuple [⟨.leading, .keyword .string⟩, ⟨.variadic, .keyword .number⟩,
    ⟨.trailing, .keyword .boolean⟩], .required⟩], some ⟨.keyword .string, .keyword .string⟩, .reject⟩

def orderLines : Value := .list [.string "ada", .int 2, .int 3, .bool true]

def orderEntries : List (Value × Value) := [(.string "note", .string "gift"), (.string "lines", orderLines)]

/-- Behind the customer the lookup knows no more than that there is a quantity or the mark of payment. -/
theorem select_accepts_order :
    (freshSession.env none).accepts Config.default order (.mapping orderEntries) = .ok true ∧
      ((select none order [.string "lines", .int 3]).run freshSession).1 =
        .ok (.union [.keyword .number, .keyword .boolean]) ∧
      (freshSession.env none).accepts Config.default (.union [.keyword .number, .keyword .boolean]) (.bool true) =
        .ok true := by
  have haccepts : (freshSession.env none).accepts Config.default order (.mapping orderEntries) = .ok true := rfl
  have hselect : ((select none order [.string "lines", .int 3]).run freshSession).1 =
      .ok (.union [.keyword .number, .keyword .boolean]) := rfl
  have hlines : (Value.mapping orderEntries).Has (.string "lines") orderLines :=
    .entry rfl (List.mem_cons_of_mem _ List.mem_cons_self) rfl rfl trivial
  have hpaid : orderLines.Has (.int (3 : Nat)) (.bool true) := .item rfl rfl
  have hpath : (Value.mapping orderEntries).Leads [.string "lines", .int 3] (.bool true) := .step hlines (.step hpaid .here)
  have horder : order.Every (Schema.Concrete fun _ => made) := by
    refine .intro (List.forall_mem_nil _) ?_
    simp only [order, Schema.parts, IndexSignature.parts, List.map_cons, List.map_nil, List.cons_append,
      List.nil_append, List.forall_mem_cons, List.not_mem_nil, false_implies, implies_true, and_true]
    refine ⟨.intro ⟨rfl, List.forall_mem_nil _⟩ ?_, Schema.keyword_concrete _, Schema.keyword_concrete _⟩
    simpa [Schema.parts] using ⟨Schema.keyword_concrete _, Schema.keyword_concrete _, Schema.keyword_concrete _⟩
  refine ⟨haccepts, hselect, (select_accepts horder haccepts hpath hselect).resolve_right ?_⟩
  rintro ⟨e, he, -⟩
  cases he

/-- A session in which no factory makes anything. -/
def idleSession : Session := .start "rows" ⟨Env.bare.hooks.judge, fun _ => .error ⟨"ValueError", "no default"⟩⟩

/-- A limit, made where it is not given; or any object, beside a number. -/
def limitOrObject : Schema :=
  .union [.tuple [⟨.leading, .object ⟨[⟨.name "limit", .keyword .number, .defaultable made⟩], none, .ignore⟩⟩],
    .tuple [⟨.leading, .keyword .object⟩, ⟨.leading, .keyword .number⟩]]

/-- The branch that refused the whole value for its length is asked about the item first, and needs the default. -/
theorem select_stops :
    (∀ t ∈ limitOrObject.parts, t.Every (Schema.Concrete fun _ => made)) ∧
      (idleSession.env none).accepts Config.default limitOrObject (.list [.mapping [], .int 1]) = .ok true ∧
      (Value.list [.mapping [], .int 1]).Leads [.int 0] (.mapping []) ∧
      ∃ t, ((select none limitOrObject [.int 0]).run idleSession).1 = .ok t ∧
        (idleSession.env none).accepts Config.default t (.mapping []) ≠ .ok true := by
  have hlimit : (Schema.object ⟨[⟨.name "limit", .keyword .number, .defaultable made⟩], none, .ignore⟩).Every
      (Schema.Concrete fun _ => made) := by
    refine .intro ?_ ?_
    · exact fun p hp => (List.mem_singleton.mp hp).symm
    · simpa [Schema.parts, IndexSignature.parts] using Schema.keyword_concrete _
  refine ⟨?_, rfl, .step (.item rfl rfl) .here, _, rfl, by rintro ⟨⟩⟩
  simp only [limitOrObject, Schema.parts, List.forall_mem_cons, List.not_mem_nil, false_implies, implies_true, and_true]
  refine ⟨.intro ⟨rfl, List.forall_mem_nil _⟩ ?_, .intro ⟨rfl, List.forall_mem_nil _⟩ ?_⟩
  · simpa [Schema.parts] using hlimit
  · simpa [Schema.parts] using ⟨Schema.keyword_concrete _, Schema.keyword_concrete _⟩

end Engine

end Schemata
