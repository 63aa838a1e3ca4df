import Schemata.Proofs.Validation.Normalization

/-! Validation changes nothing in what it put out before. -/
namespace Schemata

namespace Check

section Objects

variable {config : Config} {hooks : Hooks} {shape : ObjectShape Check}

/-- The output has an entry for every row that holds something. -/
theorem find?_of_row {rows : List Row} (hnd : (rows.map (·.1)).Nodup) {k : Key} {x : Option Value} (h : (k, x) ∈ rows) :
    Entry.find? ((Row.pairs rows).map Value.Pair.entry) k = x.map fun y => Value.Pair.entry (k, y) := by
  cases x with
  | some y =>
    refine (Entry.find?_eq_some ?_).mpr ⟨List.mem_map_of_mem (Row.mem_pairs.mpr h), rfl⟩
    simpa [Entry.keys, Function.comp_def, Value.Pair.entry] using hnd.sublist (Row.keys_sublist rows)
  | none =>
    refine Entry.find?_eq_none.mpr fun e he hk => ?_
    obtain ⟨⟨k', y⟩, ht, rfl⟩ := List.mem_map.mp he
    obtain rfl : k' = k := hk
    have := List.inj_on_of_nodup_map hnd (Row.mem_pairs.mp ht) h rfl
    simp at this

/-- No two rows of an output have the same key. -/
theorem nodup_rows {es : List Entry} {R : Property Check → Option Value → Prop} {S : Entry → Option Value → Prop}
    {rows rest : List Row} (hkeys : shape.keys.Nodup) (hes : (Entry.keys es).Nodup)
    (hrows : Row.Of (·.key) R shape.properties rows)
    (hrest : Row.Of (·.key) S (es.filter fun e => !shape.declares e.key) rest) : ((rows ++ rest).map (·.1)).Nodup := by
  rw [List.map_append, hrows.keys, hrest.keys]
  refine List.Nodup.append hkeys (hes.sublist (List.filter_sublist.map _)) (List.disjoint_left.mpr ?_)
  rintro _ hkey hkey'
  obtain ⟨e, he, rfl⟩ := List.mem_map.mp hkey'
  obtain ⟨p, hp, hk⟩ := List.mem_map.mp hkey
  have hdeclared : shape.declares e.key = true := List.any_eq_true.mpr ⟨p, hp, by simp [hk]⟩
  simpa [hdeclared] using (List.mem_filter.mp he).2

/-- What was left of an undeclared entry is left again under the same key. -/
theorem Leaves.again {e : Entry} {k : Key} {x : Value} (h : Leaves shape e (some x)) (hk : e.key = k)
    (hindex : ∀ i, shape.index = some i → i.value.Puts e.item x → i.value.Puts x x) :
    Leaves shape (Value.Pair.entry (k, x)) (some x) := by
  have spared : Spared shape.undeclared e.item (some x) → Spared shape.undeclared x (some x) := by
    rintro (⟨hp, -⟩ | ⟨-, hx⟩)
    · exact Or.inl ⟨hp, rfl⟩
    · simp at hx
  obtain rfl := hk
  unfold Leaves at h ⊢
  cases hi : shape.index with
  | none =>
    rw [hi] at h
    exact spared h
  | some i =>
    rw [hi] at h
    obtain ⟨taken, htaken, h⟩ := h
    refine ⟨taken, htaken, ?_⟩
    cases taken with
    | true =>
      obtain ⟨y, hy, hput⟩ := h
      obtain rfl := Option.some.inj hy
      exact ⟨x, rfl, hindex i hi hput⟩
    | false => exact spared h

/-- Of the rows of an output those of undeclared keys are left. -/
theorem filter_rows {rows rest : List Row} (hrows : ∀ r ∈ rows, shape.declares r.1 = true)
    (hrest : ∀ r ∈ rest, shape.declares r.1 = false) :
    (((Row.pairs (rows ++ rest)).map Value.Pair.entry).filter fun e => !shape.declares e.key) =
      (Row.pairs rest).map Value.Pair.entry := by
  have hnone : ((Row.pairs rows).map Value.Pair.entry).filter (fun e => !shape.declares e.key) = [] := by
    refine List.filter_eq_nil_iff.mpr ?_
    rintro _ he
    obtain ⟨⟨k, y⟩, ht, rfl⟩ := List.mem_map.mp he
    simpa [Value.Pair.entry] using hrows _ (Row.mem_pairs.mp ht)
  have hall : ((Row.pairs rest).map Value.Pair.entry).filter (fun e => !shape.declares e.key) =
      (Row.pairs rest).map Value.Pair.entry := by
    refine List.filter_eq_self.mpr ?_
    rintro _ he
    obtain ⟨⟨k, y⟩, ht, rfl⟩ := List.mem_map.mp he
    simpa [Value.Pair.entry] using hrest _ (Row.mem_pairs.mp ht)
  rw [Row.pairs_append, List.map_append, List.filter_append, hnone, hall, List.nil_append]

/-- An object lets its own output stand when its properties and its index signature let theirs stand. -/
theorem object_settles (hkeys : shape.keys.Nodup) (hnamed : .index ∉ shape.keys) {v o : Value} {es : List Entry}
    (hes : v.fields? = some es) (hmarker : .index ∉ Entry.keys es)
    (hprop : ∀ p ∈ shape.properties, ∀ x, Contributes config hooks es p (some x) →
      p.value.Puts x x ∧ (isUndefined x && p.presence.isOptional && !config.exactOptional) = false)
    (hindex : ∀ i, shape.index = some i → ∀ e ∈ es, ∀ x, i.value.Puts e.item x → i.value.Puts x x)
    (h : (object config hooks shape).Puts v o) : (object config hooks shape).Puts o o := by
  obtain ⟨es', rows, rest, hes', hrows, hrest, rfl⟩ := object_puts.mp h
  obtain rfl := Option.some.inj (hes.symm.trans hes')
  have declared : ∀ r ∈ rows, shape.declares r.1 = true := by
    intro r hr
    obtain ⟨p, hp, hk, -⟩ := hrows.exists hr
    exact List.any_eq_true.mpr ⟨p, hp, by simp [hk]⟩
  have undeclared : ∀ r ∈ rest, ∃ e ∈ es, e.key = r.1 ∧ shape.declares r.1 = false ∧ Leaves shape e r.2 := by
    intro r hr
    obtain ⟨e, he, hk, hx⟩ := hrest.exists hr
    obtain ⟨he, hd⟩ := List.mem_filter.mp he
    exact ⟨e, he, hk.symm, by simpa [hk] using hd, hx⟩
  have hnd := nodup_rows hkeys (Value.nodup_of_fields hes) hrows hrest
  have hnamed : ∀ t ∈ Row.pairs (rows ++ rest), t.1 ≠ .index := by
    intro t ht hkey
    rcases List.mem_append.mp (Row.mem_pairs.mp ht) with hr | hr
    · refine hnamed (List.mem_map.mpr ?_)
      obtain ⟨p, hp, hk, -⟩ := hrows.exists hr
      exact ⟨p, hp, hk.symm.trans hkey⟩
    · obtain ⟨e, he, hk, -⟩ := undeclared _ hr
      exact hmarker (List.mem_map.mpr ⟨e, he, hk.trans hkey⟩)
  have hpairs := hnd.sublist (Row.keys_sublist (rows ++ rest))
  have hfields := (Value.fields?_ofPairs hpairs).mpr ⟨hnamed, rfl⟩
  refine object_puts.mpr ⟨_, rows, (Row.pairs rest).map fun t => (t.1, some t.2), hfields, ?_, ?_, by simp⟩
  · refine hrows.imp fun p hp x hx hc => ?_
    have hfind := find?_of_row hnd (List.mem_append_left rest hx)
    cases x with
    | none =>
      obtain ⟨-, hopt⟩ := hc
      exact ⟨by rw [given?, hfind]; rfl, hopt⟩
    | some y =>
      obtain ⟨hagain, habsent⟩ := hprop p hp y hc
      unfold Contributes
      rw [given?, hfind]
      simpa [Option.filter, Value.Pair.entry, habsent] using hagain
  · rw [filter_rows declared fun r hr => (undeclared r hr).elim fun _ h => h.2.2.1]
    refine List.forall₂_map_left_iff.mpr (List.forall₂_map_right_iff.mpr (List.forall₂_same.mpr ?_))
    rintro ⟨k, y⟩ ht
    obtain ⟨e, he, hk, -, hl⟩ := undeclared _ (Row.mem_pairs.mp ht)
    exact ⟨rfl, hl.again hk fun i hi => hindex i hi e he y⟩

end Objects

section Tuples

variable {config : Config} {hooks : Hooks} {es : List (Element Check)} {items xs : List Value}

theorem Fills.length_le (h : Fills config hooks es items xs) : xs.length ≤ es.length := by
  induction h with
  | done => simp
  | stop => simp
  | item _ _ ih => simpa using ih
  | default _ _ _ ih => simpa using ih

theorem Fills.min_le (h : Fills config hooks es items xs) : min items.length es.length ≤ xs.length := by
  induction h with
  | done => simp
  | stop => simp
  | item _ _ ih => simpa using ih
  | default _ _ _ ih => simp

/-- What an element puts out, for an item or as its default. -/
def Offers (config : Config) (hooks : Hooks) (items : List Value) (e : Element Check) (x : Value) : Prop :=
  (∃ v ∈ items, e.value.Puts v x) ∨ ∃ d, e.role = .defaultable d ∧ Supplies config hooks e.value d x

/-- The elements in front let stand what they put out. Further items may follow when each of them has put out one. -/
theorem Fills.again (h : Fills config hooks es items xs)
    (hput : ∀ e ∈ es, ∀ x, Offers config hooks items e x → e.value.Puts x x) {more : List Value}
    (hmore : more = [] ∨ xs.length = es.length) : Fills config hooks es (xs ++ more) xs := by
  induction h with
  | done => exact .done
  | @item e es v x vs xs hx _ ih =>
    refine .item (hput e (by simp) x (Or.inl ⟨v, by simp, hx⟩)) (ih (fun e he x hx => ?_) (by simpa using hmore))
    exact hput e (List.mem_cons_of_mem _ he) x (hx.imp_left fun ⟨v, hv, h⟩ => ⟨v, List.mem_cons_of_mem _ hv, h⟩)
  | @default e es d x xs hr hx _ ih =>
    refine .item (hput e (by simp) x (Or.inr ⟨d, hr, hx⟩)) (ih (fun e he x hx => ?_) (by simpa using hmore))
    exact hput e (List.mem_cons_of_mem _ he) x hx
  | stop hd =>
    obtain rfl : more = [] := by simpa using hmore
    exact .stop hd

theorem puts_again {c : Check} (h : List.Forall₂ c.Puts items xs)
    (hput : ∀ v ∈ items, ∀ x, c.Puts v x → c.Puts x x) : List.Forall₂ c.Puts xs xs := by
  refine List.forall₂_same.mpr fun x hx => ?_
  obtain ⟨v, hv, hvx⟩ := forall₂_exists_right h hx
  exact hput v hv x hvx

theorem zip_again {cs : List Check} (h : List.Forall₂ (fun t z => t.1.Puts t.2 z) (cs.zip items) xs)
    (hput : ∀ c ∈ cs, ∀ v ∈ items, ∀ x, c.Puts v x → c.Puts x x) :
    List.Forall₂ (fun t z => t.1.Puts t.2 z) (cs.zip xs) xs := by
  induction cs generalizing items xs with
  | nil =>
    obtain rfl := List.forall₂_nil_left_iff.mp h
    exact .nil
  | cons c cs ih =>
    cases items with
    | nil =>
      obtain rfl := List.forall₂_nil_left_iff.mp h
      exact .nil
    | cons v vs =>
      cases h with
      | @cons _ x _ xs hx hxs =>
        refine .cons (hput c (by simp) v (by simp) x hx) (ih hxs fun c hc v hv => ?_)
        exact hput c (List.mem_cons_of_mem _ hc) v (List.mem_cons_of_mem _ hv)

/-- A tuple with a variadic element bounds lengths from below only, any other tuple from above too. -/
theorem greatestLength?_eq_variadic {S : Type} (es : List (Element S)) :
    Element.greatestLength? es = if (Element.variadic? es).isSome then none else some es.length := by
  simp only [Element.greatestLength?, Element.variadic?, List.find?_isSome, List.any_eq_true]

/-- A tuple lets its own output stand when its elements let theirs stand. -/
theorem tuple_settles {shape : List (Element Schema)} (hs : Element.Settled es) {v o : Value}
    (hput : ∀ q items, v.items? = some (q, items) → ∀ e ∈ es, ∀ x, Offers config hooks items e x → e.value.Puts x x)
    (h : (tuple config hooks shape es).Puts v o) : (tuple config hooks shape es).Puts o o := by
  obtain ⟨q, items, ys, zs, hi, hadmits, hys, hzs, rfl⟩ := tuple_puts.mp h
  have hput := hput q items hi
  have hfixed : ∀ e ∈ Element.fixed es, ∀ x, Offers config hooks (Element.front es items) e x → e.value.Puts x x :=
    fun e he x hx => hput e (List.mem_of_mem_filter he) x
      (hx.imp_left fun ⟨v, hv, h⟩ => ⟨v, List.mem_of_mem_take hv, h⟩)
  have hle := hys.length_le
  have hmin := hys.min_le
  have hback : items.length = (Element.front es items).length + (Element.trailing es).length := by
    have hle := (Element.trailing_le_least es).trans hadmits.1
    simp only [Element.front, List.length_take]
    omega
  refine tuple_puts.mpr ⟨q, ys ++ zs, ys, zs, by simp, ?_⟩
  unfold Element.Admits at hadmits ⊢
  rw [greatestLength?_eq_variadic] at hadmits ⊢
  unfold Repeats at hzs ⊢
  cases hv : Element.variadic? es with
  | none =>
    rw [hv] at hadmits hzs
    obtain rfl : zs = [] := hzs
    have ht := hs hv
    have hlen := Element.length_of_not_variadic hv ht
    have hfront : ∀ xs : List Value, Element.front es xs = xs := by simp [Element.front, ht]
    have hmax : items.length ≤ es.length := hadmits.2 _ rfl
    rw [hfront] at hys hmin ⊢
    rw [hfront] at hfixed
    refine ⟨⟨?_, fun high hhigh => ?_⟩, hys.again hfixed (Or.inl rfl), rfl, rfl⟩
    · rw [List.append_nil]
      omega
    · obtain rfl : es.length = high := by simpa using hhigh
      rw [List.append_nil]
      omega
  | some e =>
    rw [hv] at hzs
    obtain ⟨as, bs, has, hbs, rfl⟩ := hzs
    have hel : e ∈ es := List.mem_of_find?_eq_some hv
    have halen : as.length = (Element.front es items).length - (Element.fixed es).length := by
      simpa using has.length_eq.symm
    have hblen : bs.length = (Element.trailing es).length := by
      have := hbs.length_eq
      simp only [List.length_zip, List.length_map, List.length_drop] at this
      omega
    have hfront : Element.front es (ys ++ (as ++ bs)) = ys ++ as := by
      rw [Element.front, ← List.append_assoc]
      exact List.take_left' (by simp; omega)
    have hmore : as = [] ∨ ys.length = (Element.fixed es).length := by
      rcases Nat.le_total (Element.front es items).length (Element.fixed es).length with h | h
      · exact Or.inl (List.length_eq_zero_iff.mp (by omega))
      · exact Or.inr (by omega)
    rw [hfront]
    refine ⟨⟨?_, by simp⟩, hys.again hfixed hmore, ⟨as, bs, ?_, ?_, rfl⟩, rfl⟩
    · simp only [List.length_append]
      omega
    · have hdrop : (ys ++ as).drop (Element.fixed es).length = as := by
        rcases hmore with rfl | h
        · simpa using hle
        · rw [← h, List.drop_left]
      rw [hdrop]
      exact puts_again has fun v hv x hx => hput e hel x
        (Or.inl ⟨v, List.mem_of_mem_take (List.mem_of_mem_drop hv), hx⟩)
    · rw [← List.append_assoc, List.drop_left]
      refine zip_again hbs fun c hc v hv x hx => ?_
      obtain ⟨f, hf, rfl⟩ := List.mem_map.mp hc
      exact hput f (List.mem_of_mem_filter hf) x (Or.inl ⟨v, List.mem_of_mem_drop hv, hx⟩)

end Tuples

end Check

namespace Env

variable {env : Env} {config : Config} {s : Schema} {v o : Value}

theorem validate_iff : env.validate config s v = .ok (.ok o) ↔ (env.check config s).Puts v o := by
  unfold validate run Check.Puts
  cases env.check config s .root v with
  | error _ => simp [Except.map]
  | ok r => cases hok : r.isOk <;> simp [Except.map, hok]

theorem check_keyword (k : Keyword) : env.check config (.keyword k) = .keyword k := check_eq _

theorem check_literal (w : Value) : env.check config (.literal w) = .literal w := check_eq _

theorem check_constrained (s : Schema) (cs : List Constraint) :
    env.check config (.constrained s cs) = .constrained env.hooks (env.check config s) cs := by
  rw [check_eq, check_eq]
  rfl

theorem shapeChecks_keys (o : ObjectShape Schema) : (env.shapeChecks config o).keys = o.keys := by
  simp [ObjectShape.keys, shapeChecks, Function.comp_def]

theorem check_tuple (es : List (Element Schema)) : env.check config (.tuple es) =
    .tuple config env.hooks es (es.map fun e => ⟨e.role, env.check config e.value⟩) := by
  rw [check_eq, Schema.checkWith, Schema.elementChecks_eq]
  congr 1
  exact List.map_congr_left fun e _ => by rw [check_eq]

end Env

/-- What is no mapping is without the marker when its items are. -/
theorem Value.markerFree_of_children {v : Value} (hl : v.label? = none) (hf : v.fields? = none)
    (hc : ∀ c ∈ v.children, c.MarkerFree) : v.MarkerFree := Value.throughout_of_children hl (by simp [hf]) hc

namespace Schema

/-- A single node without branches, members and references, objects and tuples as their makers leave them. -/
def Straight : Schema → Prop
  | .union _ => False
  | .intersection _ => False
  | .ref _ => False
  | .object o => o.keys.Nodup ∧ .index ∉ o.keys
  | .tuple es => Role.shapeError? (es.map (·.role)) = none
  | _ => True

/-- Makers of the defaults of a single node. -/
def producers : Schema → List Producer
  | .object o => o.properties.filterMap (·.presence.default?)
  | .tuple es => es.filterMap (·.role.default?)
  | _ => []

/-- The defaults of a single node satisfy `p`. -/
def Fills (hooks : Hooks) (p : Value → Prop) (s : Schema) : Prop :=
  ∀ d ∈ s.producers, ∀ copy v, d.produce hooks copy = .ok v → p v

end Schema

namespace Env

variable {env : Env} {config : Config} {s : Schema} {v o : Value}

/-- The output of a check stands, and what is put out as undefined was undefined before. -/
def OutputStands (env : Env) (config : Config) (s : Schema) : Prop :=
  ∀ v o, v.MarkerFree → (env.check config s).Puts v o →
    (env.check config s).Puts o o ∧ (o = .undefined → v = .undefined)

theorem object_stands {shape : ObjectShape Schema} (hdefensive : config.defensiveDefaults = true)
    (hs : (Schema.object shape).Straight) (hd : (Schema.object shape).Fills env.hooks Value.MarkerFree)
    (ih : ∀ s ∈ (Schema.object shape).parts, env.OutputStands config s) : env.OutputStands config (.object shape) := by
  intro v o hv h
  rw [check_object] at h ⊢
  obtain ⟨es, _, _, hes, -, -, ho⟩ := Check.object_puts.mp h
  have entry : ∀ e ∈ es, e.item.MarkerFree := fun e he => hv.child (Value.item_mem_children hes he)
  refine ⟨Check.object_settles ?_ ?_ hes (hv.here es hes) ?_ ?_ h, by simp [ho, Value.ofPairs]⟩
  · rw [shapeChecks_keys]
    exact hs.1
  · rw [shapeChecks_keys]
    exact hs.2
  · intro p hp x hx
    obtain ⟨p, hmem, rfl⟩ := List.mem_map.mp hp
    have part : p.value ∈ (Schema.object shape).parts := List.mem_append_left _ (List.mem_map_of_mem hmem)
    rcases Check.contributes_some.mp hx with ⟨e, he, habsent, -, hput⟩ | ⟨-, d, hpd, w, hw, hput⟩
    · obtain ⟨hagain, hundef⟩ := ih _ part _ _ (entry e he) hput
      refine ⟨hagain, ?_⟩
      cases x with
      | undefined => rwa [hundef rfl] at habsent
      | _ => rfl
    · rw [if_pos hdefensive] at hput
      have hfill : d ∈ (Schema.object shape).producers :=
        List.mem_filterMap.mpr ⟨p, hmem, by rw [show p.presence = _ from hpd]; rfl⟩
      refine ⟨(ih _ part _ _ (hd d hfill 1 w hw) hput).1, ?_⟩
      simp [show p.presence = _ from hpd, Presence.isOptional]
  · intro i hi e he x hx
    obtain ⟨j, hj, rfl⟩ := Option.map_eq_some_iff.mp hi
    have part : j.value ∈ (Schema.object shape).parts := by simp [Schema.parts, hj, IndexSignature.parts]
    exact (ih _ part _ _ (entry e he) hx).1

theorem tuple_stands {es : List (Element Schema)} (hdefensive : config.defensiveDefaults = true)
    (hs : (Schema.tuple es).Straight) (hd : (Schema.tuple es).Fills env.hooks Value.MarkerFree)
    (ih : ∀ s ∈ (Schema.tuple es).parts, env.OutputStands config s) : env.OutputStands config (.tuple es) := by
  intro v o hv h
  rw [check_tuple] at h ⊢
  refine ⟨Check.tuple_settles (Element.settled_of_shape ?_) ?_ h, ?_⟩
  · rw [List.map_map]
    exact hs
  · intro q items hi e he x hx
    obtain ⟨e, hmem, rfl⟩ := List.mem_map.mp he
    have part : e.value ∈ (Schema.tuple es).parts := List.mem_map_of_mem hmem
    rcases hx with ⟨v, hv', hput⟩ | ⟨d, hrole, w, hw, hput⟩
    · exact (ih _ part _ _ (hv.child (Value.children_of_items hi ▸ hv')) hput).1
    · rw [if_pos hdefensive] at hput
      have hfill : d ∈ (Schema.tuple es).producers :=
        List.mem_filterMap.mpr ⟨e, hmem, by rw [show e.role = _ from hrole]; rfl⟩
      exact (ih _ part _ _ (hd d hfill 1 w hw) hput).1
  · rintro rfl
    obtain ⟨q, _, _, _, -, -, -, -, hq⟩ := Check.tuple_puts.mp h
    cases q <;> simp [Value.Sequence.make] at hq

/-- Without branches the output of a check stands, and what is put out as undefined was undefined before. -/
theorem puts_again (hdefensive : config.defensiveDefaults = true) (hs : s.Every Schema.Straight)
    (hd : s.Every (Schema.Fills env.hooks Value.MarkerFree)) (hv : v.MarkerFree) (h : (env.check config s).Puts v o) :
    (env.check config s).Puts o o ∧ (o = .undefined → v = .undefined) := by
  induction s using Schema.induction_on_parts generalizing v o with
  | _ s ih =>
    have parts : ∀ t ∈ s.parts, env.OutputStands config t := fun t ht v o => ih t ht (hs.part ht) (hd.part ht)
    cases s with
    | keyword k =>
      rw [check_keyword] at h ⊢
      obtain ⟨hk, rfl⟩ := Check.keyword_puts.mp h
      exact ⟨h, id⟩
    | literal w =>
      rw [check_literal] at h ⊢
      obtain ⟨hw, rfl⟩ := Check.literal_puts.mp h
      exact ⟨h, id⟩
    | constrained s cs =>
      rw [check_constrained] at h ⊢
      obtain ⟨hbase, hcs⟩ := Check.constrained_puts.mp h
      obtain ⟨hagain, hundef⟩ := parts s (by simp [Schema.parts]) v o hv hbase
      exact ⟨Check.constrained_puts.mpr ⟨hagain, hcs⟩, hundef⟩
    | union bs => exact hs.root.elim
    | intersection ms => exact hs.root.elim
    | ref r => exact hs.root.elim
    | object shape => exact object_stands hdefensive hs.root hd.root parts v o hv h
    | tuple es => exact tuple_stands hdefensive hs.root hd.root parts v o hv h

/-- Validation is idempotent for schemas without branches: what it put out is valid and is put out again. -/
theorem validate_output (hdefensive : config.defensiveDefaults = true) (hs : s.Every Schema.Straight)
    (hd : s.Every (Schema.Fills env.hooks Value.MarkerFree)) (hv : v.MarkerFree)
    (h : env.validate config s v = .ok (.ok o)) : env.validate config s o = .ok (.ok o) :=
  validate_iff.mpr (puts_again hdefensive hs hd hv (validate_iff.mp h)).1

/-- The default 1. -/
def one : Producer := ⟨⟨0, 0⟩, .int 1, false⟩

/-- Goods with a number that is 1 unless it is given, and a note; nothing else is kept. -/
def order : Schema :=
  .object ⟨[⟨.name "goods", .tuple [⟨.leading, .keyword .string⟩, ⟨.defaultable one, .keyword .integer⟩], .required⟩,
    ⟨.name "note", .keyword .string, .optional⟩], none, .delete⟩

def givenOrder : Value :=
  .mapping [(.string "seen", .bool true), (.string "note", .undefined), (.string "goods", .list [.string "tea"])]

def writtenOrder : Value := .mapping [(.string "goods", .list [.string "tea", .int 1])]

theorem order_straight : order.Every Schema.Straight ∧ order.Every (Schema.Fills Env.bare.hooks Value.MarkerFree) := by
  have keyword : ∀ k, (Schema.keyword k).Every fun s => s.Straight ∧ s.Fills Env.bare.hooks Value.MarkerFree :=
    fun k => .intro ⟨trivial, by simp [Schema.Fills, Schema.producers]⟩ (by simp [Schema.parts])
  have tuple : (Schema.tuple [⟨.leading, .keyword .string⟩, ⟨.defaultable one, .keyword .integer⟩]).Every
      fun s => s.Straight ∧ s.Fills Env.bare.hooks Value.MarkerFree := by
    refine .intro ⟨rfl, ?_⟩ (by simpa [Schema.parts] using ⟨keyword _, keyword _⟩)
    rintro d hd copy v hv
    obtain rfl : d = one := by simpa [Schema.producers, Role.default?] using hd
    obtain rfl : Value.int 1 = v := Except.ok.inj hv
    exact Value.markerFree_of_children rfl rfl (by simp [Value.children])
  have all : order.Every fun s => s.Straight ∧ s.Fills Env.bare.hooks Value.MarkerFree := by
    refine .intro ⟨⟨by decide, by decide⟩, by simp [order, Schema.Fills, Schema.producers, Presence.default?]⟩ ?_
    simpa [order, Schema.parts, IndexSignature.parts] using ⟨tuple, keyword _⟩
  exact ⟨all.mono fun _ h => h.1, all.mono fun _ h => h.2⟩

theorem validate_output_order : Env.bare.validate ⟨.ignore, false, true, 100⟩ order givenOrder = .ok (.ok writtenOrder) ∧
    Env.bare.validate ⟨.ignore, false, true, 100⟩ order writtenOrder = .ok (.ok writtenOrder) := by
  have hrun : Env.bare.validate ⟨.ignore, false, true, 100⟩ order givenOrder = .ok (.ok writtenOrder) := rfl
  have leaf : ∀ {v : Value}, v.label? = none → v.fields? = none → v.children = [] → v.MarkerFree := fun hl hf hc =>
    Value.markerFree_of_children hl hf (by simp [hc])
  have hgoods : (Value.list [.string "tea"]).MarkerFree :=
    Value.markerFree_of_children rfl rfl (List.forall_mem_singleton.mpr (leaf rfl rfl rfl))
  have hitems : ∀ c ∈ givenOrder.children, c.MarkerFree := by
    simp only [givenOrder, Value.children, List.map_cons, List.map_nil, List.forall_mem_cons]
    exact ⟨leaf rfl rfl rfl, leaf rfl rfl rfl, hgoods, by simp⟩
  have hgiven : givenOrder.MarkerFree := Value.throughout_of_children rfl (fun es hes => by
    rw [← Option.some.inj hes]
    decide) hitems
  exact ⟨hrun, validate_output rfl order_straight.1 order_straight.2 hgiven hrun⟩

/-- An object that spares what it does not declare takes the index marker for a key, and what it puts out no object
accepts. -/
theorem marker_output (x : Value) : env.validate config (.object ⟨[], none, .ignore⟩) (.mapping [(Key.index.toData, x)]) =
      .ok (.ok (.mapping [(.null, x)])) ∧
    ∀ shape o, env.validate config (.object shape) (.mapping [(.null, x)]) ≠ .ok (.ok o) := by
  refine ⟨?_, fun shape o h => ?_⟩
  · rw [validate, run, check_object]
    rfl
  · rw [validate_iff, check_object] at h
    obtain ⟨es, _, _, hes, -⟩ := Check.object_puts.mp h
    simp [Value.fields?, Value.entries?, Value.unfold, Entry.collect, Entry.add, Key.ofValue?] at hes

end Env
end Schemata
