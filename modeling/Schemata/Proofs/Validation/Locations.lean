import Schemata.Proofs.Validation.Keeping
import Schemata.Proofs.Validation.Totality

/-! Where failures lead. The path of a failure, followed from the validated value, reaches what failed: a value that is
there, or the place in a mapping where a required key is missing. -/
namespace Schemata

namespace Segment

/-- The key that a step names; a position names none. -/
def key? : Segment → Option Key
  | .name s => some (.name s)
  | .symbol s => some (.symbol s)
  | .marker => some .index
  | .position _ => none
  | .flag _ => none

end Segment

namespace Value

/-- The item that a list of entries has under a property key: that of the first entry whose key stands for it. -/
def itemAt? (raw : List (Value × Value)) (key : Key) : Option Value :=
  (raw.find? fun e => Key.ofValue? e.1 == some key).map (·.2)

/-- What one step from a container leads to: the item of a sequence at a position, or that of a mapping under a key. -/
def step? (v : Value) (s : Segment) : Option Value :=
  match s with
  | .position n => v.items?.bind fun q => if 0 ≤ n then q.2[n.toNat]? else none
  | s => do itemAt? (← v.entries?) (← s.key?)

/-- What a path leads to, step by step. -/
def follow? (v : Value) : Path → Option Value
  | [] => some v
  | s :: rest => (v.step? s).bind (·.follow? rest)

/-- The keys of the value, if it is a mapping, stand for property keys. -/
def ValidKeys (v : Value) : Prop := ∀ raw, v.entries? = some raw → ∀ e ∈ raw, (Key.ofValue? e.1).isSome = true

variable {v w : Value} {raw : List (Value × Value)} {key : Key} {q : Sequence} {items : List Value}

theorem step?_ofKey (h : v.entries? = some raw) (key : Key) : v.step? (.ofKey key) = itemAt? raw key := by
  cases key <;> simp [step?, Segment.ofKey, Segment.key?, h]

theorem step?_position (h : v.items? = some (q, items)) (n : Nat) : v.step? (.position n) = items[n]? := by
  simp [step?, h]

theorem itemAt?_mem (h : itemAt? raw key = some w) : w ∈ raw.map (·.2) := by
  obtain ⟨e, he, rfl⟩ := Option.map_eq_some_iff.mp h
  exact List.mem_map_of_mem (List.mem_of_find?_eq_some he)

theorem itemAt?_eq_none : itemAt? raw key = none ↔ ∀ e ∈ raw, Key.ofValue? e.1 ≠ some key := by
  simp [itemAt?]

end Value

namespace Failure

/-- The failure's path reaches a value, or it is a required key that is missing from the mapping which the path without
its last step reaches. -/
def LeadsInto (v : Value) (f : Failure) : Prop :=
  (∃ w, v.follow? f.path = some w) ∨
    f.code = .requiredKeyMissing ∧ ∃ front key m raw, f.path = front ++ [.ofKey key] ∧ v.follow? front = some m ∧
      m.entries? = some raw ∧ ∀ e ∈ raw, Key.ofValue? e.1 ≠ some key

variable {v w : Value} {f : Failure} {s : Segment}

/-- A failure of a value itself. -/
theorem leads_here (h : f.path = []) : f.LeadsInto v := Or.inl ⟨v, by rw [h]; rfl⟩

/-- A failure of what one step leads to. -/
theorem leads_step (hs : v.step? s = some w) (h : f.path = [s]) : f.LeadsInto v :=
  Or.inl ⟨w, by simp [h, Value.follow?, hs]⟩

/-- What leads into a part leads into the whole through the step to the part. -/
theorem LeadsInto.within (h : f.LeadsInto w) (hs : v.step? s = some w) : (f.within s).LeadsInto v := by
  have hfollow : ∀ path, v.follow? (s :: path) = w.follow? path := fun path => by simp [Value.follow?, hs]
  rcases h with ⟨x, hx⟩ | ⟨hcode, front, key, m, raw, hpath, hm, hraw, hno⟩
  · exact Or.inl ⟨x, (hfollow _).trans hx⟩
  · exact Or.inr ⟨hcode, s :: front, key, m, raw, by simp [Failure.within, hpath], (hfollow _).trans hm, hraw, hno⟩

theorem leads_ofVerdict {constraint : String} {d : Verdict} (h : f ∈ ofVerdict constraint d) : f.LeadsInto v := by
  cases d with
  | valid => simp [ofVerdict] at h
  | invalid r =>
    obtain rfl := List.mem_singleton.mp h
    exact leads_here rfl

end Failure

namespace Entry

variable {raw : List (Value × Value)} {acc : List Entry} {key : Key} {e : Entry}

theorem find?_append (es fs : List Entry) : find? (es ++ fs) key = (find? es key).or (find? fs key) :=
  List.find?_append

/-- An entry is taken up unless its key is none or is there already. -/
theorem add_cases (es : List Entry) (k item : Value) :
    (add es k item).1 = es ∧ (∀ key, Key.ofValue? k = some key → (find? es key).isSome = true) ∨
      ∃ key, Key.ofValue? k = some key ∧ find? es key = none ∧ (add es k item).1 = es ++ [⟨key, k, item⟩] := by
  unfold add
  cases hk : Key.ofValue? k with
  | none => exact Or.inl ⟨rfl, nofun⟩
  | some key =>
    dsimp only
    cases hfind : find? es key with
    | some first => exact Or.inl ⟨rfl, fun _ h => by simp [← Option.some.inj h, hfind]⟩
    | none => exact Or.inr ⟨key, rfl, hfind, rfl⟩

/-- Of the entries under one key the first is collected. -/
theorem find?_collect (acc : List Entry) (raw : List (Value × Value)) (key : Key) :
    (find? (collect acc raw).1 key).map (·.item) =
      ((find? acc key).map (·.item)).or (Value.itemAt? raw key) := by
  induction raw generalizing acc with
  | nil => simp [collect, Value.itemAt?]
  | cons pair raw ih =>
    obtain ⟨k, item⟩ := pair
    have hcons : Value.itemAt? ((k, item) :: raw) key =
        if Key.ofValue? k = some key then some item else Value.itemAt? raw key := by
      unfold Value.itemAt?
      rw [List.find?_cons]
      split_ifs with hk
      · simp [hk]
      · rw [beq_eq_false_iff_ne.mpr hk]
    rw [show (collect acc ((k, item) :: raw)).1 = (collect (add acc k item).1 raw).1 from rfl, ih, hcons]
    rcases add_cases acc k item with ⟨hacc, hknown⟩ | ⟨found, hk, hfind, hacc⟩
    · rw [hacc]
      split_ifs with hk
      · obtain ⟨e, he⟩ := Option.isSome_iff_exists.mp (hknown key hk)
        simp [he]
      · rfl
    · rw [hacc, find?_append, hk]
      by_cases heq : found = key
      · subst heq
        rw [hfind]
        simp [find?]
      · simp [heq, find?]

theorem nodup_collect (hacc : (keys acc).Nodup) (raw : List (Value × Value)) : (keys (collect acc raw).1).Nodup := by
  induction raw generalizing acc with
  | nil => exact hacc
  | cons pair raw ih =>
    obtain ⟨k, item⟩ := pair
    refine ih ?_
    rcases add_cases acc k item with ⟨heq, -⟩ | ⟨key, -, hfind, heq⟩
    · rwa [heq]
    · rw [heq]
      simp only [keys, List.map_append, List.map_cons, List.map_nil]
      refine List.Nodup.append hacc (by simp) ?_
      simp only [List.disjoint_singleton, List.mem_map, not_exists, not_and]
      exact fun e he => find?_eq_none.mp hfind e he

/-- A collected entry holds the first item under its key. -/
theorem itemAt?_of_mem (he : e ∈ (collect [] raw).1) : Value.itemAt? raw e.key = some e.item := by
  have hfind : find? (collect [] raw).1 e.key = some e :=
    (find?_eq_some (nodup_collect (by simp [keys]) raw)).mpr ⟨he, rfl⟩
  have hcollect := find?_collect [] raw e.key
  rw [hfind] at hcollect
  simpa [find?] using hcollect.symm

/-- A key under which nothing is collected is no key of the mapping. -/
theorem itemAt?_of_none (h : find? (collect [] raw).1 key = none) : Value.itemAt? raw key = none := by
  have hcollect := find?_collect [] raw key
  rw [h] at hcollect
  simpa [find?] using hcollect.symm

/-- Where all keys are valid, what is wrong with an entry is that its key was there before. -/
theorem failures_of_collect (hraw : ∀ e ∈ raw, (Key.ofValue? e.1).isSome = true) :
    ∀ f ∈ (collect acc raw).2, ∃ e ∈ raw, ∃ key, Key.ofValue? e.1 = some key ∧ f.path = [.ofKey key] := by
  induction raw generalizing acc with
  | nil => simp [collect]
  | cons pair raw ih =>
    obtain ⟨k, item⟩ := pair
    obtain ⟨hk, hraw⟩ := List.forall_mem_cons.mp hraw
    obtain ⟨key, hkey⟩ := Option.isSome_iff_exists.mp hk
    intro f hf
    rcases List.mem_append.mp (show f ∈ (add acc k item).2 ++ (collect (add acc k item).1 raw).2 from hf) with hf | hf
    · refine ⟨(k, item), by simp, key, hkey, ?_⟩
      unfold add at hf
      simp only [hkey] at hf
      split at hf
      · exact List.mem_singleton.mp hf ▸ rfl
      · simp at hf
    · obtain ⟨e, he, h⟩ := ih hraw f hf
      exact ⟨e, List.mem_cons_of_mem _ he, h⟩

end Entry

namespace Check

variable {config : Config} {hooks : Hooks} {c : Check} {visit : Visit} {v w : Value}

/-- All failures lead into the value. -/
def AllLead (v : Value) (fs : List Failure) : Prop := ∀ f ∈ fs, f.LeadsInto v

theorem AllLead.append {fs gs : List Failure} (h : AllLead v fs) (k : AllLead v gs) : AllLead v (fs ++ gs) := by
  intro f hf
  rcases List.mem_append.mp hf with hf | hf
  · exact h f hf
  · exact k f hf

theorem allLead_nil : AllLead v [] := nofun

theorem allLead_fail (message constraint : String) (code : Code) (actual : Value) :
    AllLead v (Outcome.fail v message constraint code actual).failures :=
  List.forall_mem_singleton.mpr (Failure.leads_here rfl)

/-- Whatever the check finds wrong with a value of valid keys leads into the value. -/
def Leads (c : Check) : Prop := ∀ visit v, v.Throughout Value.ValidKeys →
  Ends (c visit v) (fun o => AllLead v o.failures) fun _ => True

/-- A part is checked behind the step that leads to it. -/
theorem Leads.inside (h : c.Leads) {s : Segment} (hv : v.Throughout Value.ValidKeys) (hs : v.step? s = some w)
    (hw : w ∈ v.unfold.children) (visit : Visit) :
    Ends (c.inside s visit w) (fun o => AllLead v o.failures) fun _ => True := by
  refine (h visit.renewed w (hv.child hw)).map fun o ho => ?_
  exact List.forall_mem_map.mpr fun f hf => (ho f hf).within hs

theorem keyword_leads (k : Keyword) : (keyword k).Leads := fun _ _ _ _ hf => Failure.leads_ofVerdict hf

theorem literal_leads (l : Value) : (literal l).Leads := by
  intro visit v hv
  show AllLead v (if _ then Outcome.pass v else _).failures
  split_ifs
  · exact allLead_nil
  · exact allLead_fail _ _ _ _

theorem constraintFailures_lead (cs : List Constraint) :
    Ends (constraintFailures hooks w cs) (AllLead v) fun _ => True := by
  induction cs with
  | nil => exact allLead_nil
  | cons c cs ih =>
    unfold constraintFailures
    cases (c.check hooks w).mapError Fault.check with
    | error e => trivial
    | ok d => exact ih.bind fun fs hfs => AllLead.append (fun f hf => Failure.leads_ofVerdict hf) hfs

/-- Constraints look at the output, but their failures are those of the value as a whole. -/
theorem constrained_leads (h : c.Leads) (cs : List Constraint) : (constrained hooks c cs).Leads := by
  refine fun visit v hv => (h visit v hv).bind fun o ho => ?_
  split_ifs
  · exact (constraintFailures_lead cs).bind fun fs hfs => hfs
  · exact ho

section Union

variable {domains : Schema → Except Fault (Option DomainSet)} {branches : List (Schema × Check)}

theorem firstAccepting_leads (h : ∀ b ∈ branches, b.2.Leads) (hv : v.Throughout Value.ValidKeys) :
    Ends (firstAccepting visit v branches) (fun r => (∀ o, r = .inl o → AllLead v o.failures) ∧
      ∀ attempts, r = .inr attempts → ∀ a ∈ attempts, AllLead v a.2) fun _ => True := by
  induction branches with
  | nil => exact ⟨nofun, fun _ h => by simp [← Sum.inr.inj h]⟩
  | cons b branches ih =>
    obtain ⟨hb, hbranches⟩ := List.forall_mem_cons.mp h
    refine (hb visit v hv).bind fun o ho => ?_
    split_ifs
    · exact ⟨fun _ heq => Sum.inl.inj heq ▸ ho, nofun⟩
    · refine (ih hbranches).bind fun r hr => ?_
      cases r with
      | inl accepted => exact hr
      | inr attempts =>
        refine ⟨nofun, fun _ heq => ?_⟩
        rw [← Sum.inr.inj heq]
        exact List.forall_mem_cons.mpr ⟨ho, hr.2 attempts rfl⟩

theorem matching_leads {attempts : List (Schema × List Failure)} (h : ∀ a ∈ attempts, AllLead v a.2) (d : Domain) :
    Ends (matching domains d attempts) (fun fss => ∀ fs ∈ fss, AllLead v fs) fun _ => True := by
  cases hm : matching domains d attempts with
  | error e => trivial
  | ok fss =>
    intro fs hfs
    obtain ⟨a, ha, rfl⟩ := matching_subset hm fs hfs
    exact h a ha

/-- A branch looks at the whole value, so its failures may be those of the union. -/
theorem union_leads (h : ∀ b ∈ branches, b.2.Leads) : (union domains branches).Leads := by
  refine fun visit v hv => (firstAccepting_leads h hv).bind fun r hr => ?_
  cases r with
  | inl accepted => exact hr.1 accepted rfl
  | inr attempts =>
    refine (matching_leads (hr.2 attempts rfl) v.domain).bind fun fss hfss => ?_
    dsimp only
    split
    · exact hfss _ (by simp)
    · exact allLead_fail _ _ _ _

end Union

section Objects

variable {shape : ObjectShape Check} {raw : List (Value × Value)} {es : List Entry}

/-- The steps to the entries that are collected from a mapping, and the keys that it lacks. -/
structure Located (v : Value) (raw : List (Value × Value)) (es : List Entry) : Prop where
  entries : v.entries? = some raw
  step : ∀ e ∈ es, v.step? (.ofKey e.key) = some e.item
  missing : ∀ key, Entry.find? es key = none → ∀ e ∈ raw, Key.ofValue? e.1 ≠ some key

theorem located_collect (h : v.entries? = some raw) : Located v raw (Entry.collect [] raw).1 where
  entries := h
  step e he := (Value.step?_ofKey h e.key).trans (Entry.itemAt?_of_mem he)
  missing _ hkey := Value.itemAt?_eq_none.mp (Entry.itemAt?_of_none hkey)

theorem Located.child (h : Located v raw es) {e : Entry} (he : e ∈ es) : e.item ∈ v.unfold.children := by
  rw [Value.children_of_entries h.entries]
  exact Value.itemAt?_mem ((Value.step?_ofKey h.entries e.key).symm.trans (h.step e he))

theorem property_leads (h : c.Leads) (hv : v.Throughout Value.ValidKeys) (hes : Located v raw es) {key : Key}
    {presence : Presence} (hpresence : presence.default? = none) :
    Ends (property config hooks visit es ⟨key, c, presence⟩) (fun r => AllLead v r.failures) fun _ => True := by
  unfold property
  cases hgiven : given? config es ⟨key, c, presence⟩ with
  | some e =>
    obtain ⟨he, hkey⟩ := Entry.mem_of_find? (Option.filter_eq_some_iff.mp hgiven).1
    obtain rfl : e.key = key := hkey
    exact (h.inside hv (hes.step e he) (hes.child he) visit).map fun o ho => ho
  | none =>
    cases presence with
    | required =>
      have hnone : Entry.find? es key = none :=
        Option.eq_none_iff_forall_ne_some.mpr (by simpa [given?, Presence.isOptional] using hgiven)
      exact List.forall_mem_singleton.mpr (Or.inr ⟨rfl, [], key, v, raw, rfl, rfl, hes.entries, hes.missing key hnone⟩)
    | optional => exact allLead_nil
    | defaultable d => simp [Presence.default?] at hpresence

theorem properties_lead {ps : List (Property Check)} (h : ∀ p ∈ ps, p.value.Leads ∧ p.presence.default? = none)
    (hv : v.Throughout Value.ValidKeys) (hes : Located v raw es) :
    Ends (properties config hooks visit es ps) (fun r => AllLead v r.failures) fun _ => True := by
  induction ps with
  | nil => exact allLead_nil
  | cons p ps ih =>
    obtain ⟨hp, hps⟩ := List.forall_mem_cons.mp h
    exact (property_leads hp.1 hv hes hp.2).bind fun r hr => (ih hps).bind fun q hq => hr.append hq

theorem undeclared_leads (h : ∀ i, shape.index = some i → i.value.Leads) (hv : v.Throughout Value.ValidKeys)
    (hes : Located v raw es) {e : Entry} (he : e ∈ es) :
    Ends (undeclared shape visit e) (fun r => AllLead v r.failures) fun _ => True := by
  have policy : Ends (undeclared ⟨[], none, shape.undeclared⟩ visit e) (fun r => AllLead v r.failures) fun _ => True := by
    unfold undeclared indexTakes
    cases shape.undeclared with
    | reject => exact List.forall_mem_singleton.mpr (Failure.leads_step (hes.step e he) rfl)
    | ignore => exact allLead_nil
    | delete => exact allLead_nil
  rw [undeclared_eq]
  cases hindex : shape.index with
  | none => exact policy
  | some i =>
    dsimp only
    cases i.key visit.renewed e.key.toValue with
    | error f => trivial
    | ok o =>
      show Ends (if o.isOk then _ else _) _ _
      split_ifs
      · exact ((h i hindex).inside hv (hes.step e he) (hes.child he) visit).map fun o ho => ho
      · exact policy

theorem undeclaredAll_lead (h : ∀ i, shape.index = some i → i.value.Leads) (hv : v.Throughout Value.ValidKeys)
    (hes : Located v raw es) {fs : List Entry} (hfs : fs ⊆ es) :
    Ends (undeclaredAll shape visit fs) (fun r => AllLead v r.failures) fun _ => True := by
  induction fs with
  | nil => exact allLead_nil
  | cons e fs ih =>
    obtain ⟨he, hfs⟩ := List.cons_subset.mp hfs
    unfold undeclaredAll
    split_ifs
    · exact (ih hfs).bind fun q hq => allLead_nil.append hq
    · exact (undeclared_leads h hv hes he).bind fun r hr => (ih hfs).bind fun q hq => hr.append hq

/-- An object finds its failures at its entries, at a key that comes twice, or at one that is missing. -/
theorem object_leads (hproperties : ∀ p ∈ shape.properties, p.value.Leads ∧ p.presence.default? = none)
    (hindex : ∀ i, shape.index = some i → i.value.Leads) : (object config hooks shape).Leads := by
  intro visit v hv
  unfold object
  cases hraw : v.entries? with
  | none => exact allLead_fail _ _ _ _
  | some raw =>
    have hes := located_collect hraw
    have hkeys : AllLead v (Entry.collect [] raw).2 := by
      intro f hf
      obtain ⟨e, he, key, hkey, hpath⟩ := Entry.failures_of_collect (hv.here raw hraw) f hf
      cases hitem : Value.itemAt? raw key with
      | none => exact absurd hkey (Value.itemAt?_eq_none.mp hitem e he)
      | some w => exact Failure.leads_step ((Value.step?_ofKey hraw key).trans hitem) hpath
    exact (properties_lead hproperties hv hes).bind fun r hr =>
      (undeclaredAll_lead hindex hv hes (List.Subset.refl _)).bind fun q hq => hkeys.append (hr.append hq)

end Objects

section Tuples

variable {es : List (Element Check)} {items : List Value} {n : Nat}

/-- The items stand in the value at the positions from `n` on. -/
def At (v : Value) (n : Nat) (items : List Value) : Prop :=
  ∀ i w, items[i]? = some w → v.step? (.position (n + i : Nat)) = some w ∧ w ∈ v.unfold.children

theorem At.head (h : At v n (w :: items)) : v.step? (.position n) = some w ∧ w ∈ v.unfold.children := h 0 w rfl

theorem At.tail (h : At v n (w :: items)) : At v (n + 1) items := fun i x hx => by
  have hnext := h (i + 1) x hx
  rwa [show n + (i + 1) = n + 1 + i by omega] at hnext

theorem At.take (h : At v n items) (k : Nat) : At v n (items.take k) := fun i x hx => by
  rw [List.getElem?_take] at hx
  split_ifs at hx
  exact h i x hx

theorem At.drop (h : At v n items) (k : Nat) : At v (n + k) (items.drop k) := fun i x hx => by
  rw [List.getElem?_drop] at hx
  have hnext := h (k + i) x hx
  rwa [← Nat.add_assoc] at hnext

/-- The failures of outcomes in a row. -/
def AllLeadIn (v : Value) (os : List Outcome) : Prop := AllLead v (Outcome.allFailures os)

theorem allLeadIn_cons {o : Outcome} {os : List Outcome} (ho : AllLead v o.failures) (hos : AllLeadIn v os) :
    AllLeadIn v (o :: os) := ho.append hos

theorem AllLeadIn.append {os ps : List Outcome} (hos : AllLeadIn v os) (hps : AllLeadIn v ps) :
    AllLeadIn v (os ++ ps) := by
  unfold AllLeadIn Outcome.allFailures
  rw [List.flatMap_append]
  exact AllLead.append hos hps

theorem fixedElements_lead (h : ∀ e ∈ es, e.value.Leads ∧ e.role.default? = none) (hv : v.Throughout Value.ValidKeys)
    (hat : At v n items) :
    Ends (fixedElements config hooks visit n es items) (AllLeadIn v) fun _ => True := by
  induction es generalizing n items with
  | nil => exact allLead_nil
  | cons e es ih =>
    obtain ⟨he, hes⟩ := List.forall_mem_cons.mp h
    cases items with
    | cons w items =>
      exact (he.1.inside hv hat.head.1 hat.head.2 visit).bind fun o ho => (ih hes hat.tail).bind fun os hos =>
        allLeadIn_cons ho hos
    | nil =>
      unfold fixedElements
      split
      · rename_i d hrole
        simp [hrole, Role.default?] at he
      · exact allLead_nil

theorem repeatedElement_leads (h : c.Leads) (hv : v.Throughout Value.ValidKeys) (hat : At v n items) :
    Ends (repeatedElement c visit n items) (AllLeadIn v) fun _ => True := by
  induction items generalizing n with
  | nil => exact allLead_nil
  | cons w items ih =>
    exact (h.inside hv hat.head.1 hat.head.2 visit).bind fun o ho => (ih hat.tail).bind fun os hos =>
      allLeadIn_cons ho hos

theorem trailingElements_lead (h : ∀ e ∈ es, e.value.Leads) (hv : v.Throughout Value.ValidKeys) (hat : At v n items) :
    Ends (trailingElements visit n es items) (AllLeadIn v) fun _ => True := by
  induction es generalizing n items with
  | nil => exact allLead_nil
  | cons e es ih =>
    obtain ⟨he, hes⟩ := List.forall_mem_cons.mp h
    cases items with
    | nil => exact allLead_nil
    | cons w items =>
      exact (he.inside hv hat.head.1 hat.head.2 visit).bind fun o ho => (ih hes hat.tail).bind fun os hos =>
        allLeadIn_cons ho hos

theorem elements_lead (h : ∀ e ∈ es, e.value.Leads ∧ e.role.default? = none) (hv : v.Throughout Value.ValidKeys)
    (hat : At v 0 items) : Ends (elements config hooks es visit items) (AllLeadIn v) fun _ => True := by
  have among : ∀ p, ∀ e ∈ es.filter p, e ∈ es := fun p e he => (List.mem_filter.mp he).1
  unfold elements
  dsimp only
  generalize hfront : items.length - (Element.trailing es).length = k
  refine (fixedElements_lead (fun e he => h e (among _ e he)) hv (hat.take k)).bind fun head hhead => ?_
  cases hvariadic : Element.variadic? es with
  | none => exact hhead
  | some e =>
    have he := h e (List.mem_of_find?_eq_some hvariadic)
    have hmiddle := (hat.take k).drop (Element.fixed es).length
    have htail := hat.drop (items.take k).length
    rw [Nat.zero_add] at hmiddle htail
    exact (repeatedElement_leads he.1 hv hmiddle).bind fun middle hmiddle =>
      (trailingElements_lead (fun e he => (h e (among _ e he)).1) hv htail).bind fun tail htail =>
        (AllLeadIn.append hhead hmiddle).append htail

theorem tuple_leads (h : ∀ e ∈ es, e.value.Leads ∧ e.role.default? = none) (shape : List (Element Schema)) :
    (tuple config hooks shape es).Leads := by
  intro visit v hv
  unfold tuple
  cases hitems : v.items? with
  | none => exact allLead_fail _ _ _ _
  | some q =>
    obtain ⟨sequence, items⟩ := q
    have hat : At v 0 items := fun i w hw => by
      rw [Nat.zero_add, Value.children_of_items hitems]
      exact ⟨(Value.step?_position hitems i).trans hw, List.mem_of_getElem? hw⟩
    dsimp only
    split_ifs
    · exact (elements_lead h hv hat).bind fun os hos => hos
    · exact allLead_fail _ _ _ _

end Tuples

end Check

namespace Schema

variable {env : Env} {config : Config} {follow : Ref → Check} {s : Schema}

/-- What the node checks stands in the value: no default takes the place of a missing part, and no member of a lazy
intersection looks at what another one puts out. -/
def Immediate (s : Schema) : Prop := s.defaults = [] ∧ ∀ ms, s ≠ .intersection ms

theorem checkWith_leads (hs : s.Every fun t => t.Immediate ∧ ∀ r, t = .ref r → (follow r).Leads) :
    (s.checkWith env config follow).Leads := by
  induction hs with
  | @intro s hnode _ ih =>
    obtain ⟨⟨hdefaults, hlazy⟩, href⟩ := hnode
    cases s with
    | keyword k => exact Check.keyword_leads k
    | literal l => exact Check.literal_leads l
    | constrained s cs => exact Check.constrained_leads (ih s (by simp [parts])) cs
    | union bs =>
      rw [checkWith, branchChecks_eq]
      exact Check.union_leads (List.forall_mem_map.mpr ih)
    | intersection ms => exact absurd rfl (hlazy ms)
    | ref r => exact href r rfl
    | object o =>
      obtain ⟨ps, i, u⟩ := o
      rw [checkWith, propertyChecks_eq]
      refine Check.object_leads (List.forall_mem_map.mpr fun p hp => ⟨ih _ ?_, ?_⟩) ?_
      · exact List.mem_append_left _ (List.mem_map_of_mem hp)
      · exact List.filterMap_eq_nil_iff.mp hdefaults p hp
      · cases i with
        | none => rintro _ ⟨⟩
        | some i =>
          rintro _ ⟨⟩
          exact ih _ (by simp [parts, IndexSignature.parts])
    | tuple es =>
      rw [checkWith, elementChecks_eq]
      exact Check.tuple_leads (List.forall_mem_map.mpr fun e he =>
        ⟨ih _ (List.mem_map_of_mem he), List.filterMap_eq_nil_iff.mp hdefaults e he⟩) es

end Schema

namespace Env

variable {env : Env} {config : Config} {known : Ref → Prop} {s : Schema} {v : Value}

theorem checkWithin_leads (hcomplete : env.Complete known) (n : Nat) (hs : s.Into known)
    (himmediate : env.Throughout known Schema.Immediate s) : (env.checkWithin config n s).Leads := by
  induction n generalizing s with
  | zero =>
    exact Schema.checkWith_leads (himmediate.here.mono fun t ht => ⟨ht, fun r _ visit v _ => Check.allLead_fail _ _ _ _⟩)
  | succ n ih =>
    refine Schema.checkWith_leads ((himmediate.here.and hs).mono fun t ht => ⟨ht.1, ?_⟩)
    rintro r rfl visit v hv
    have hr := ht.2 r rfl
    obtain ⟨target, htarget, hinto⟩ := hcomplete.resolve hr
    rw [htarget]
    simp only [bind, Except.bind]
    cases hin : visit.enter? r v with
    | none => exact Check.allLead_nil
    | some inner =>
      exact ih hinto ⟨himmediate.behind r target hr (target_of_resolve htarget), himmediate.behind⟩ inner v hv

/-- In a schema without defaults and lazy intersections, behind names that lead to such schemas, every failure leads
into the validated value, at whatever depth it was found and through however many trials of branches. -/
theorem failures_lead (hcomplete : env.Complete known) (hs : s.Into known)
    (himmediate : env.Throughout known Schema.Immediate s) (hv : v.Throughout Value.ValidKeys) {fs : List Failure}
    (h : env.validate config s v = .ok (.error fs)) : ∀ f ∈ fs, f.LeadsInto v := by
  obtain ⟨o, ho, h⟩ := map_ok h
  have hleads : (env.checkWithin config config.maxDepth s).Leads := checkWithin_leads hcomplete _ hs himmediate
  have hends := hleads .root v hv
  rw [show env.checkWithin config config.maxDepth s .root v = .ok o from ho] at hends
  split_ifs at h
  exact Except.error.inj h ▸ hends

/-- Trees with a label and further trees below, under the name of a tree. -/
def grove : Env :=
  ⟨bare.hooks, [⟨1, [some (.object ⟨[⟨.name "label", .keyword .string, .required⟩,
    ⟨.name "below", .array (.ref ⟨1, 0, "tree"⟩), .optional⟩], none, .reject⟩)], [("tree", 0)]⟩], .ok Config.default⟩

/-- A tree with two entries below: one lacks its label and has a key twice that is not declared, the other is none. -/
def sapling : Value :=
  .mapping [(.string "label", .string "oak"),
    (.string "below", .list [.mapping [(.int 5, .null), (.string "5", .null)], .int 7])]

theorem failures_lead_sapling :
    let known : Ref → Prop := fun r => r.arena = 1 ∧ r.handle = 0
    let s : Schema := .union [.keyword .null, .ref ⟨1, 0, "tree"⟩]
    grove.Complete known ∧ s.Into known ∧ grove.Throughout known Schema.Immediate s ∧
      sapling.Throughout Value.ValidKeys ∧ ∃ fs, grove.validate Config.default s sapling = .ok (.error fs) ∧
        fs.map (fun f => (f.path, f.code)) =
          [([.name "below", .position 0, .name "5"], .duplicateKey),
            ([.name "below", .position 0, .name "label"], .requiredKeyMissing),
            ([.name "below", .position 0, .name "5"], .undeclaredKey),
            ([.name "below", .position 1], .invalidType)] ∧ ∀ f ∈ fs, f.LeadsInto sapling := by
  intro known s
  have htarget : ∀ r, known r → grove.target r = .filled (.object ⟨[⟨.name "label", .keyword .string, .required⟩,
      ⟨.name "below", .array (.ref ⟨1, 0, "tree"⟩), .optional⟩], none, .reject⟩) := by
    rintro ⟨_, _, name⟩ ⟨rfl, rfl⟩
    rfl
  have hcomplete : grove.Complete known := fun r hr =>
    ⟨_, htarget r hr, Schema.into_object.mpr ⟨by simp [known, Schema.array], by simp⟩⟩
  have hs : s.Into known := by simp [s, known]
  have single : ∀ {t : Schema}, t.defaults = [] → t.isIntersection = false → t.Immediate := by
    rintro t hdefaults hlazy
    refine ⟨hdefaults, ?_⟩
    rintro ms rfl
    cases hlazy
  have leaf : ∀ {t : Schema}, t.parts = [] → t.Immediate → t.Every Schema.Immediate := fun hparts h =>
    .intro h (by simp [hparts])
  have tree : (Schema.ref ⟨1, 0, "tree"⟩).Every Schema.Immediate := leaf rfl (single rfl rfl)
  have himmediate : grove.Throughout known Schema.Immediate s := by
    refine ⟨.intro (single rfl rfl) ?_, fun r t hr ht => ?_⟩
    · exact List.forall_mem_cons.mpr ⟨leaf rfl (single rfl rfl), List.forall_mem_singleton.mpr tree⟩
    · obtain rfl := Target.filled.inj ((htarget r hr).symm.trans ht)
      refine .intro (single rfl rfl) (List.forall_mem_cons.mpr ⟨leaf rfl (single rfl rfl), ?_⟩)
      exact List.forall_mem_singleton.mpr (.intro (single rfl rfl) (List.forall_mem_singleton.mpr tree))
  have hv : sapling.Throughout Value.ValidKeys := by
    have other : ∀ {v : Value}, v.entries? = none → v.ValidKeys := fun hnone raw hraw => by simp [hnone] at hraw
    have bare : ∀ {v : Value}, v.label? = none → v.children = [] → v.entries? = none → v.Throughout Value.ValidKeys :=
      fun hlabel hnone hentries => Value.throughout_of_children hlabel (other hentries) (by simp [hnone])
    have null : Value.null.Throughout Value.ValidKeys := bare rfl rfl rfl
    have twice : (Value.mapping [(.int 5, .null), (.string "5", .null)]).Throughout Value.ValidKeys := by
      refine Value.throughout_of_children rfl ?_ (by simpa [Value.children] using null)
      rintro _ ⟨⟩
      simp [Key.ofValue?]
    have below : (Value.list [.mapping [(.int 5, .null), (.string "5", .null)], .int 7]).Throughout Value.ValidKeys :=
      Value.throughout_of_children rfl (other rfl) (by simpa [Value.children] using ⟨twice, bare rfl rfl rfl⟩)
    refine Value.throughout_of_children rfl ?_ (by simpa [sapling, Value.children] using ⟨bare rfl rfl rfl, below⟩)
    rintro _ ⟨⟩
    simp [Key.ofValue?]
  obtain ⟨fs, hfs, hpaths⟩ : ∃ fs, grove.validate Config.default s sapling = .ok (.error fs) ∧
      fs.map (fun f => (f.path, f.code)) =
        [([.name "below", .position 0, .name "5"], .duplicateKey),
          ([.name "below", .position 0, .name "label"], .requiredKeyMissing),
          ([.name "below", .position 0, .name "5"], .undeclaredKey),
          ([.name "below", .position 1], .invalidType)] := ⟨_, rfl, rfl⟩
  exact ⟨hcomplete, hs, himmediate, hv, fs, hfs, hpaths, failures_lead hcomplete hs himmediate hv hfs⟩

end Env
end Schemata
