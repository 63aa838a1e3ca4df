import Schemata.Proofs.Validation.Acceptance

/-! What a check puts out for a value that it accepts, one rule for every form of schema. An object puts out one row
for every property and every further entry, a tuple what its elements put out in turn. -/
namespace Schemata

/-- A key with what is put out under it, if anything is. -/
abbrev Row := Key × Option Value

namespace Row

/-- The entries of an output, row by row. -/
def pairs (rows : List Row) : List Value.Pair := rows.filterMap fun r => r.2.map fun x => (r.1, x)

theorem mem_pairs {rows : List Row} {k : Key} {x : Value} : (k, x) ∈ pairs rows ↔ (k, some x) ∈ rows := by
  simp only [pairs, List.mem_filterMap, Option.map_eq_some_iff, Prod.mk.injEq]
  constructor
  · rintro ⟨⟨k', y⟩, h, x', hx, rfl, rfl⟩
    exact hx ▸ h
  · exact fun h => ⟨_, h, x, rfl, rfl, rfl⟩

@[simp] theorem pairs_append (rows rest : List Row) : pairs (rows ++ rest) = pairs rows ++ pairs rest :=
  List.filterMap_append

theorem keys_sublist (rows : List Row) : ((pairs rows).map (·.1)).Sublist (rows.map (·.1)) := by
  induction rows with
  | nil => exact .slnil
  | cons r rows ih =>
    obtain ⟨k, x⟩ := r
    cases x with
    | none => exact ih.cons k
    | some x => exact ih.cons_cons k

/-- Rows that all hold something are their pairs. -/
@[simp] theorem pairs_some (ts : List Value.Pair) : pairs (ts.map fun t => (t.1, some t.2)) = ts := by
  simp [pairs]

/-- One row for every member of a list, under its key, with what `R` says of it. -/
def Of {α : Type} (key : α → Key) (R : α → Option Value → Prop) : List α → List Row → Prop :=
  List.Forall₂ fun a row => row.1 = key a ∧ R a row.2

section Of

variable {α : Type} {key : α → Key} {R : α → Option Value → Prop}

theorem of_nil {rows : List Row} : Of key R [] rows ↔ rows = [] := List.forall₂_nil_left_iff

theorem of_cons {a : α} {as : List α} {rows : List Row} :
    Of key R (a :: as) rows ↔ ∃ x rest, R a x ∧ Of key R as rest ∧ rows = (key a, x) :: rest := by
  refine List.forall₂_cons_left_iff.trans ⟨?_, ?_⟩
  · rintro ⟨⟨k, x⟩, rest, ⟨rfl, hx⟩, hrest, rfl⟩
    exact ⟨x, rest, hx, hrest, rfl⟩
  · rintro ⟨x, rest, hx, hrest, rfl⟩
    exact ⟨(key a, x), rest, ⟨rfl, hx⟩, hrest, rfl⟩

theorem Of.imp {S : α → Option Value → Prop} {as : List α} {rows : List Row} (h : Of key R as rows)
    (hRS : ∀ a ∈ as, ∀ x, (key a, x) ∈ rows → R a x → S a x) : Of key S as rows := by
  induction h with
  | nil => exact .nil
  | @cons a row as rows ha _ ih =>
    obtain ⟨k, x⟩ := row
    obtain ⟨rfl, hx⟩ := ha
    refine .cons ⟨rfl, hRS a (by simp) x (by simp) hx⟩ (ih fun b hb y hy => ?_)
    exact hRS b (List.mem_cons_of_mem _ hb) y (List.mem_cons_of_mem _ hy)

theorem Of.exists {as : List α} {rows : List Row} (h : Of key R as rows) {r : Row} (hr : r ∈ rows) :
    ∃ a ∈ as, r.1 = key a ∧ R a r.2 := forall₂_exists_right h hr

theorem Of.keys {as : List α} {rows : List Row} (h : Of key R as rows) : rows.map (·.1) = as.map key := by
  induction h with
  | nil => rfl
  | cons h _ ih => simp [h.1, ih]

end Of

end Row

namespace Rebuilt

/-- The rows without a failure. -/
def ofRows (rows : List Row) : Rebuilt := ⟨(Row.pairs rows).map fun t => (t.1.toValue, t.2), []⟩

theorem ofRows_append (rows rest : List Row) : (ofRows rows).append (ofRows rest) = ofRows (rows ++ rest) := by
  simp [ofRows, append]

theorem item_eq {key : Key} {o : Outcome} (h : o.failures = []) : item key o = ofRows [(key, some o.output)] := by
  simp [item, ofRows, Row.pairs, h]

end Rebuilt

/-- The items of a sequence that do not stand at its end for good. -/
def Element.front {S : Type} (es : List (Element S)) (items : List Value) : List Value :=
  items.take (items.length - (trailing es).length)

namespace Check

/-- The check accepts the value and puts out `o` for it. -/
def Puts (c : Check) (v o : Value) : Prop := Succeeds (c .root v) fun r => r.isOk = true ∧ r.output = o

theorem inside_puts {c : Check} {s : Segment} {v o : Value} :
    Succeeds (c.inside s .root v) (fun r => r.failures = [] ∧ r.output = o) ↔ c.Puts v o := by
  show Succeeds ((c .root v).map (Outcome.within s)) _ ↔ _
  rw [Succeeds.map]
  simp only [← Outcome.isOk_iff, Outcome.isOk_within, Outcome.output_within]
  rfl

theorem keyword_puts {k : Keyword} {v o : Value} : (keyword k).Puts v o ↔ k.holds v = true ∧ v = o := by
  unfold Puts keyword
  rw [Succeeds.ok, keyword_isOk]

theorem literal_puts {w v o : Value} :
    (literal w).Puts v o ↔ (v.domain = w.domain ∧ w.literalEqual v = true) ∧ v = o := by
  unfold Puts literal
  rw [Succeeds.ok]
  split_ifs with h
  · simp [h, Outcome.pass, Outcome.isOk]
  · simp [h, Outcome.fail, Outcome.isOk]

theorem constrained_puts {hooks : Hooks} {base : Check} {cs : List Constraint} {v o : Value} :
    (constrained hooks base cs).Puts v o ↔ base.Puts v o ∧ ∀ c ∈ cs, c.Passes hooks o := by
  unfold Puts constrained
  rw [Succeeds.bind]
  constructor
  · rintro ⟨r, hr, h⟩
    cases hok : r.isOk with
    | false => simp [hok] at h
    | true =>
      rw [hok, if_pos rfl, Succeeds.bind] at h
      obtain ⟨fs, hfs, h⟩ := h
      obtain ⟨hnil, rfl⟩ := Succeeds.pure.mp h
      exact ⟨⟨r, hr, hok, rfl⟩, constraintFailures_clean.mp ⟨fs, hfs, Outcome.isOk_iff.mp hnil⟩⟩
  · rintro ⟨⟨r, hr, hok, rfl⟩, hcs⟩
    obtain ⟨fs, hfs, rfl⟩ := constraintFailures_clean.mpr hcs
    refine ⟨r, hr, ?_⟩
    dsimp only
    rw [hok, if_pos rfl, Succeeds.bind]
    exact ⟨[], hfs, Succeeds.pure.mpr ⟨rfl, rfl⟩⟩

section Union

variable {domains : Schema → Except Fault (Option DomainSet)} {branches : List (Schema × Check)} {v o : Value}

/-- The branch is the first that takes the value: those before it answer that they refuse it. -/
def First (branches : List (Schema × Check)) (v : Value) (b : Schema × Check) (before : List (Schema × Check)) :
    Prop :=
  (∃ after, branches = before ++ b :: after) ∧ ∀ c ∈ before, Succeeds (c.2 .root v) fun r => r.isOk = false

theorem firstAccepting_inl {a : Outcome} : firstAccepting .root v branches = .ok (.inl a) ↔
    ∃ b before, First branches v b before ∧ b.2 .root v = .ok a ∧ a.isOk = true := by
  induction branches with
  | nil => simp [firstAccepting, First]
  | cons b branches ih =>
    obtain ⟨s, c⟩ := b
    rw [firstAccepting]
    constructor
    · intro h
      obtain ⟨r, hr, h⟩ := bind_ok h
      cases hok : r.isOk with
      | true =>
        rw [hok] at h
        obtain rfl := Sum.inl.inj (Except.ok.inj h)
        exact ⟨(s, c), [], ⟨⟨branches, rfl⟩, by simp⟩, hr, hok⟩
      | false =>
        rw [hok] at h
        obtain ⟨x, hx, h⟩ := bind_ok h
        cases x with
        | inr attempts => simp [pure, Except.pure] at h
        | inl accepted =>
          obtain rfl := Sum.inl.inj (Except.ok.inj h)
          obtain ⟨b, before, ⟨⟨after, rfl⟩, hbefore⟩, hrun, hok'⟩ := ih.mp hx
          exact ⟨b, (s, c) :: before, ⟨⟨after, rfl⟩, List.forall_mem_cons.mpr ⟨⟨r, hr, hok⟩, hbefore⟩⟩, hrun, hok'⟩
    · rintro ⟨b, before, ⟨⟨after, heq⟩, hbefore⟩, hrun, hok⟩
      cases before with
      | nil =>
        obtain ⟨rfl, rfl⟩ := List.cons.inj heq
        simp [show c .root v = _ from hrun, bind, Except.bind, hok, pure, Except.pure]
      | cons d before =>
        obtain ⟨rfl, rfl⟩ := List.cons.inj heq
        obtain ⟨⟨r, hr, hok'⟩, hbefore⟩ := List.forall_mem_cons.mp hbefore
        have hrest := ih.mpr ⟨b, before, ⟨⟨after, rfl⟩, hbefore⟩, hrun, hok⟩
        simp only [List.append_eq] at hrest ⊢
        simp [show c .root v = _ from hr, bind, Except.bind, hok', pure, Except.pure, hrest]

theorem firstAccepting_inr {attempts : List (Schema × List Failure)}
    (h : firstAccepting .root v branches = .ok (.inr attempts)) :
    ∀ b ∈ branches, Succeeds (b.2 .root v) fun r => r.isOk = false := by
  induction branches generalizing attempts with
  | nil => simp
  | cons b branches ih =>
    obtain ⟨s, c⟩ := b
    rw [firstAccepting] at h
    obtain ⟨r, hr, h⟩ := bind_ok h
    cases hok : r.isOk with
    | true =>
      rw [hok] at h
      simp [pure, Except.pure] at h
    | false =>
      rw [hok] at h
      obtain ⟨x, hx, h⟩ := bind_ok h
      cases x with
      | inl accepted => simp [pure, Except.pure] at h
      | inr rest => exact List.forall_mem_cons.mpr ⟨⟨r, hr, hok⟩, ih hx⟩

/-- A union puts out what its first accepting branch does. -/
theorem union_puts : (union domains branches).Puts v o ↔
    ∃ b before, First branches v b before ∧ b.2.Puts v o := by
  constructor
  · rintro ⟨r, hr, hok, rfl⟩
    obtain ⟨x, hx, h⟩ := bind_ok hr
    cases x with
    | inl a =>
      obtain rfl := Except.ok.inj h
      obtain ⟨b, before, hfirst, hrun, -⟩ := firstAccepting_inl.mp hx
      exact ⟨b, before, hfirst, a, hrun, hok, rfl⟩
    | inr attempts =>
      obtain ⟨b, hb, hrun⟩ := union_ok hr hok
      obtain ⟨r', hr', hok'⟩ := firstAccepting_inr hx b hb
      obtain rfl := Except.ok.inj (hrun.symm.trans hr')
      simp [hok] at hok'
  · rintro ⟨b, before, hfirst, r, hrun, hok, hout⟩
    refine ⟨r, ?_, hok, hout⟩
    unfold union
    rw [firstAccepting_inl.mpr ⟨b, before, hfirst, hrun, hok⟩]
    rfl

end Union

/-- What a default puts in the place of something absent. It is checked where the configuration asks for it. -/
def Supplies (config : Config) (hooks : Hooks) (c : Check) (d : Producer) (x : Value) : Prop :=
  Succeeds (d.produce hooks 1) fun w => if config.defensiveDefaults = true then c.Puts w x else w = x

theorem default_puts {config : Config} {hooks : Hooks} {c : Check} {d : Producer} {s : Segment} {x : Value} :
    Succeeds (c.default config hooks d s .root) (fun r => r.failures = [] ∧ r.output = x) ↔
      Supplies config hooks c d x := by
  unfold default Supplies
  refine Succeeds.bind.trans (exists_congr fun w => and_congr_right fun _ => ?_)
  split_ifs with h
  · exact inside_puts
  · simp [Outcome.pass]

section Objects

variable {config : Config} {hooks : Hooks} {es : List Entry}

/-- What a property puts out among the entries of a mapping. -/
def Contributes (config : Config) (hooks : Hooks) (es : List Entry) (p : Property Check) : Option Value → Prop
  | some x =>
    match given? config es p with
    | some e => p.value.Puts e.item x
    | none => ∃ d, p.presence = .defaultable d ∧ Supplies config hooks p.value d x
  | none => given? config es p = none ∧ p.presence = .optional

/-- A property puts out something for the entry that is given, or its default. -/
theorem contributes_some {p : Property Check} {x : Value} : Contributes config hooks es p (some x) ↔
    (∃ e ∈ es, (isUndefined e.item && p.presence.isOptional && !config.exactOptional) = false ∧
      given? config es p = some e ∧ p.value.Puts e.item x) ∨
      given? config es p = none ∧ ∃ d, p.presence = .defaultable d ∧ Supplies config hooks p.value d x := by
  unfold Contributes
  cases h : given? config es p with
  | none => simp
  | some e =>
    obtain ⟨hfind, habsent⟩ := Option.filter_eq_some_iff.mp h
    have he : e ∈ es := List.mem_of_find?_eq_some hfind
    rw [Bool.not_eq_true'] at habsent
    simp only [Option.some.injEq, reduceCtorEq, false_and, or_false]
    constructor
    · exact fun hput => ⟨e, he, habsent, rfl, hput⟩
    · rintro ⟨_, -, -, rfl, hput⟩
      exact hput

/-- What a policy leaves of an undeclared item. -/
def Spared (policy : Policy) (item : Value) (x : Option Value) : Prop :=
  policy = .ignore ∧ x = some item ∨ policy = .delete ∧ x = none

/-- What an entry puts out that no property declares. -/
def Leaves (shape : ObjectShape Check) (e : Entry) (x : Option Value) : Prop :=
  match shape.index with
  | none => Spared shape.undeclared e.item x
  | some i => Succeeds (i.key.accepts .root e.key.toValue) fun taken =>
      if taken then ∃ y, x = some y ∧ i.value.Puts e.item y else Spared shape.undeclared e.item x

theorem item_writes {x : Except Fault Outcome} {key : Key} {r : Rebuilt} :
    x.map (Rebuilt.item key) = .ok r ∧ r.failures = [] ↔
      ∃ y, Succeeds x (fun o => o.failures = [] ∧ o.output = y) ∧ r = .ofRows [(key, some y)] := by
  cases x with
  | error e => simp [Except.map]
  | ok o =>
    simp only [Except.map, Except.ok.injEq, Succeeds.ok]
    constructor
    · rintro ⟨rfl, h⟩
      exact ⟨o.output, ⟨h, rfl⟩, Rebuilt.item_eq h⟩
    · rintro ⟨_, ⟨h, rfl⟩, rfl⟩
      exact ⟨Rebuilt.item_eq h, rfl⟩

/-- One row, then those behind it. -/
theorem cons_writes {α : Type} {key : α → Key} {R : α → Option Value → Prop} {a : α} {as : List α}
    {x y : Except Fault Rebuilt} {r : Rebuilt}
    (hx : ∀ {r : Rebuilt}, x = .ok r ∧ r.failures = [] ↔ ∃ v, R a v ∧ r = .ofRows [(key a, v)])
    (hy : ∀ {r : Rebuilt}, y = .ok r ∧ r.failures = [] ↔ ∃ rows, Row.Of key R as rows ∧ r = .ofRows rows) :
    (do let a ← x; pure (a.append (← y))) = .ok r ∧ r.failures = [] ↔
      ∃ rows, Row.Of key R (a :: as) rows ∧ r = .ofRows rows := by
  simp only [Row.of_cons]
  constructor
  · rintro ⟨h, hr⟩
    obtain ⟨b, c, hb, hc, rfl⟩ := combine_ok h
    obtain ⟨hb', hc'⟩ := List.append_eq_nil_iff.mp hr
    obtain ⟨v, hv, rfl⟩ := hx.mp ⟨hb, hb'⟩
    obtain ⟨rows, hrows, rfl⟩ := hy.mp ⟨hc, hc'⟩
    exact ⟨_, ⟨v, rows, hv, hrows, rfl⟩, Rebuilt.ofRows_append _ _⟩
  · rintro ⟨_, ⟨v, rows, hv, hrows, rfl⟩, rfl⟩
    obtain ⟨rfl, -⟩ := hx.mpr ⟨v, hv, rfl⟩
    obtain ⟨rfl, -⟩ := hy.mpr ⟨rows, hrows, rfl⟩
    exact ⟨congrArg Except.ok (Rebuilt.ofRows_append [(key a, v)] rows), rfl⟩

theorem empty_writes {r : Rebuilt} :
    (.ok .empty : Except Fault Rebuilt) = .ok r ∧ r.failures = [] ↔ r = .ofRows [] := by
  constructor
  · exact fun h => (Except.ok.inj h.1).symm
  · rintro rfl
    exact ⟨rfl, rfl⟩

theorem property_writes {p : Property Check} {r : Rebuilt} :
    property config hooks .root es p = .ok r ∧ r.failures = [] ↔
      ∃ x, Contributes config hooks es p x ∧ r = .ofRows [(p.key, x)] := by
  rw [Option.exists]
  unfold property Contributes
  cases hgiven : given? config es p with
  | some e =>
    simp only [item_writes, inside_puts, reduceCtorEq, false_and, false_or]
  | none =>
    cases hp : p.presence with
    | required =>
      simp only [reduceCtorEq, and_false, false_and, exists_false, or_self, iff_false, not_and]
      intro h
      simp [← Except.ok.inj h, Rebuilt.failure]
    | optional =>
      simp only [reduceCtorEq, and_self, true_and, false_and, exists_false, or_false]
      exact empty_writes
    | defaultable d =>
      simp [item_writes, default_puts]

/-- All properties go through when each does, and put out one row each. -/
theorem properties_writes {ps : List (Property Check)} {r : Rebuilt} :
    properties config hooks .root es ps = .ok r ∧ r.failures = [] ↔
      ∃ rows, Row.Of (·.key) (Contributes config hooks es) ps rows ∧ r = .ofRows rows := by
  induction ps generalizing r with
  | nil =>
    simp only [Row.of_nil, exists_eq_left]
    exact empty_writes
  | cons p ps ih =>
    rw [properties]
    exact cons_writes property_writes ih

theorem policy_writes (shape : ObjectShape Check) (hi : shape.index = none) {e : Entry} {r : Rebuilt} :
    undeclared shape .root e = .ok r ∧ r.failures = [] ↔
      ∃ x, Spared shape.undeclared e.item x ∧ r = .ofRows [(e.key, x)] := by
  obtain ⟨properties, index, policy⟩ := shape
  obtain rfl : index = none := hi
  cases policy with
  | ignore =>
    simp only [Spared, true_and, reduceCtorEq, false_and, or_false, exists_eq_left]
    constructor
    · exact fun h => (Except.ok.inj h.1).symm
    · rintro rfl
      exact ⟨rfl, rfl⟩
  | delete =>
    simp only [Spared, true_and, reduceCtorEq, false_and, false_or, exists_eq_left]
    exact empty_writes
  | reject =>
    simp only [Spared, reduceCtorEq, false_and, or_self, exists_false, iff_false, not_and]
    intro h
    rw [← Except.ok.inj h]
    simp [Rebuilt.failure]

theorem undeclared_writes {shape : ObjectShape Check} {e : Entry} {r : Rebuilt} :
    undeclared shape .root e = .ok r ∧ r.failures = [] ↔ ∃ x, Leaves shape e x ∧ r = .ofRows [(e.key, x)] := by
  obtain ⟨properties, index, policy⟩ := shape
  cases index with
  | none => exact policy_writes _ rfl
  | some i =>
    have hrest := policy_writes ⟨properties, none, policy⟩ rfl (e := e) (r := r)
    unfold undeclared indexTakes Leaves at *
    dsimp only at *
    rw [show Visit.root.renewed = Visit.root from rfl]
    cases i.key.accepts .root e.key.toValue with
    | error _ => simp [bind, Except.bind]
    | ok taken =>
      simp only [Succeeds.ok]
      cases taken with
      | true =>
        refine item_writes.trans ?_
        simp only [inside_puts, if_true]
        constructor
        · rintro ⟨y, hy, rfl⟩
          exact ⟨some y, ⟨y, rfl, hy⟩, rfl⟩
        · rintro ⟨_, ⟨y, rfl, hy⟩, rfl⟩
          exact ⟨y, hy, rfl⟩
      | false => exact hrest

/-- All entries that no property declares go through when each does, and put out one row each. -/
theorem undeclaredAll_writes {shape : ObjectShape Check} {r : Rebuilt} :
    undeclaredAll shape .root es = .ok r ∧ r.failures = [] ↔
      ∃ rows, Row.Of (·.key) (Leaves shape) (es.filter fun e => !shape.declares e.key) rows ∧ r = .ofRows rows := by
  induction es generalizing r with
  | nil =>
    simp only [List.filter_nil, Row.of_nil, exists_eq_left]
    exact empty_writes
  | cons e es ih =>
    rw [undeclaredAll, List.filter_cons]
    cases shape.declares e.key with
    | true =>
      refine Iff.trans ?_ ih
      cases undeclaredAll shape .root es with
      | error _ => exact Iff.rfl
      | ok b => exact Iff.rfl
    | false => exact cons_writes undeclared_writes ih

/-- An object puts out a row for every property, then one for every entry that it does not declare. -/
theorem object_puts {shape : ObjectShape Check} {v o : Value} : (object config hooks shape).Puts v o ↔
    ∃ es rows rest, v.fields? = some es ∧ Row.Of (·.key) (Contributes config hooks es) shape.properties rows ∧
      Row.Of (·.key) (Leaves shape) (es.filter fun e => !shape.declares e.key) rest ∧
      o = .ofPairs (Row.pairs (rows ++ rest)) := by
  unfold Puts object Value.fields?
  cases v.entries? with
  | none => simp [Outcome.isOk, Outcome.fail]
  | some raw =>
    cases hcollect : Entry.collect [] raw with
    | mk es keyFailures =>
      simp only [Option.bind_some, hcollect, Succeeds.bind, Succeeds.pure, Outcome.isOk_iff,
        List.append_eq_nil_iff]
      cases keyFailures with
      | cons f fs => simp [Succeeds]
      | nil =>
        simp only [true_and, Option.some.injEq]
        constructor
        · rintro ⟨declared, hd, rest, hr, hnil, rfl⟩
          obtain ⟨hd', hr'⟩ := List.append_eq_nil_iff.mp hnil
          obtain ⟨rows, hrows, rfl⟩ := properties_writes.mp ⟨hd, hd'⟩
          obtain ⟨others, hothers, rfl⟩ := undeclaredAll_writes.mp ⟨hr, hr'⟩
          exact ⟨es, rows, others, rfl, hrows, hothers,
            congrArg (fun r => Value.mapping r.entries) (Rebuilt.ofRows_append rows others)⟩
        · rintro ⟨_, rows, rest, rfl, hrows, hrest, rfl⟩
          obtain ⟨hd, -⟩ := properties_writes.mpr ⟨rows, hrows, rfl⟩
          obtain ⟨hr, -⟩ := undeclaredAll_writes.mpr ⟨rest, hrest, rfl⟩
          exact ⟨_, hd, _, hr, rfl,
            congrArg (fun r => Value.mapping r.entries) (Rebuilt.ofRows_append rows rest)⟩

end Objects

section Tuples

variable {config : Config} {hooks : Hooks}

/-- What the elements before the variadic one put out: an item each, and behind the last item the defaults up to an
element that has none. -/
inductive Fills (config : Config) (hooks : Hooks) : List (Element Check) → List Value → List Value → Prop
  | done {items : List Value} : Fills config hooks [] items []
  | item {e : Element Check} {es : List (Element Check)} {v x : Value} {vs xs : List Value} :
      e.value.Puts v x → Fills config hooks es vs xs → Fills config hooks (e :: es) (v :: vs) (x :: xs)
  | default {e : Element Check} {es : List (Element Check)} {d : Producer} {x : Value} {xs : List Value} :
      e.role = .defaultable d → Supplies config hooks e.value d x → Fills config hooks es [] xs →
      Fills config hooks (e :: es) [] (x :: xs)
  | stop {e : Element Check} {es : List (Element Check)} : e.role.default? = none →
      Fills config hooks (e :: es) [] []

/-- What a variadic element and those behind it put out for the items in front of the last ones and for these. -/
def Repeats (es : List (Element Check)) (front back xs : List Value) : Prop :=
  match Element.variadic? es with
  | none => xs = []
  | some e => ∃ ys zs, List.Forall₂ e.value.Puts (front.drop (Element.fixed es).length) ys ∧
      List.Forall₂ (fun t z => t.1.Puts t.2 z) (((Element.trailing es).map (·.value)).zip back) zs ∧ xs = ys ++ zs

/-- The parts of the outcomes are in order, and these are their outputs. -/
def Answered (xs : List Value) (os : List Outcome) : Prop :=
  Outcome.allFailures os = [] ∧ Outcome.outputs os = xs

theorem answered_cons {x : Except Fault Outcome} {y : Except Fault (List Outcome)} {xs : List Value} :
    Succeeds (do let o ← x; pure (o :: (← y))) (Answered xs) ↔
      ∃ a as, Succeeds x (fun o => o.failures = [] ∧ o.output = a) ∧ Succeeds y (Answered as) ∧ xs = a :: as := by
  simp only [Succeeds.bind, Succeeds.pure, Answered, allFailures_cons]
  constructor
  · rintro ⟨o, ho, os, hos, ⟨hf, hfs⟩, rfl⟩
    exact ⟨_, _, ⟨o, ho, hf, rfl⟩, ⟨os, hos, hfs, rfl⟩, rfl⟩
  · rintro ⟨_, _, ⟨o, ho, hf, rfl⟩, ⟨os, hos, hfs, rfl⟩, rfl⟩
    exact ⟨o, ho, os, hos, ⟨hf, hfs⟩, rfl⟩

theorem answered_nil {xs : List Value} : Succeeds (.ok [] : Except Fault _) (Answered xs) ↔ xs = [] := by
  simp [Answered, Outcome.allFailures, Outcome.outputs, eq_comm]

theorem fixedElements_fills {i : Nat} {es : List (Element Check)} {items xs : List Value} :
    Succeeds (fixedElements config hooks .root i es items) (Answered xs) ↔ Fills config hooks es items xs := by
  induction es generalizing i items xs with
  | nil =>
    refine Iff.trans ?_ (?_ : xs = [] ↔ _)
    · cases items <;> exact answered_nil
    · constructor
      · rintro rfl
        exact .done
      · intro h
        cases h
        rfl
  | cons e es ih =>
    cases items with
    | cons v vs =>
      rw [fixedElements, answered_cons]
      simp only [inside_puts, ih]
      constructor
      · rintro ⟨x, xs, hx, hxs, rfl⟩
        exact .item hx hxs
      · intro h
        cases h with
        | item hx hxs => exact ⟨_, _, hx, hxs, rfl⟩
    | nil =>
      unfold fixedElements
      cases hd : e.role.default? with
      | none =>
        have hstop : Fills config hooks (e :: es) [] xs ↔ xs = [] := by
          constructor
          · intro h
            cases h with
            | default hr => simp [hr, Role.default?] at hd
            | stop => rfl
          · rintro rfl
            exact .stop hd
        rw [hstop, ← answered_nil]
        cases hr : e.role with
        | defaultable d => simp [hr, Role.default?] at hd
        | _ => exact Iff.rfl
      | some d =>
        have hr : e.role = .defaultable d := by
          cases hr : e.role <;> simp_all [Role.default?]
        rw [hr]
        refine answered_cons.trans ?_
        simp only [default_puts, ih]
        constructor
        · rintro ⟨x, xs, hx, hxs, rfl⟩
          exact .default hr hx hxs
        · intro h
          cases h with
          | default hr' hx hxs =>
            obtain rfl := Role.defaultable.inj (hr.symm.trans hr')
            exact ⟨_, _, hx, hxs, rfl⟩
          | stop hd' => simp [hd] at hd'

theorem repeatedElement_puts {c : Check} {i : Nat} {items xs : List Value} :
    Succeeds (repeatedElement c .root i items) (Answered xs) ↔ List.Forall₂ c.Puts items xs := by
  induction items generalizing i xs with
  | nil => exact answered_nil.trans List.forall₂_nil_left_iff.symm
  | cons v vs ih =>
    rw [repeatedElement, answered_cons, List.forall₂_cons_left_iff]
    simp only [inside_puts, ih]
    

theorem trailingElements_puts {i : Nat} {es : List (Element Check)} {items xs : List Value} :
    Succeeds (trailingElements .root i es items) (Answered xs) ↔
      List.Forall₂ (fun t z => t.1.Puts t.2 z) ((es.map (·.value)).zip items) xs := by
  induction es generalizing i items xs with
  | nil => 
    rw [List.map_nil, List.zip_nil_left, List.forall₂_nil_left_iff, ← answered_nil]
    cases items <;> exact Iff.rfl
  | cons e es ih =>
    cases items with
    | nil => exact answered_nil.trans List.forall₂_nil_left_iff.symm
    | cons v vs =>
      rw [trailingElements, answered_cons, List.map_cons, List.zip_cons_cons, List.forall₂_cons_left_iff]
      simp only [inside_puts, ih]

theorem answered_append {xs : List Value} {os ps : List Outcome} :
    Answered xs (os ++ ps) ↔ ∃ ys zs, Answered ys os ∧ Answered zs ps ∧ xs = ys ++ zs := by
  simp only [Answered, allFailures_append, Outcome.outputs, List.map_append]
  constructor
  · rintro ⟨⟨hos, hps⟩, rfl⟩
    exact ⟨_, _, ⟨hos, rfl⟩, ⟨hps, rfl⟩, rfl⟩
  · rintro ⟨_, _, ⟨hos, rfl⟩, ⟨hps, rfl⟩, rfl⟩
    exact ⟨⟨hos, hps⟩, rfl⟩

theorem elements_puts {es : List (Element Check)} {items xs : List Value} :
    Succeeds (elements config hooks es .root items) (Answered xs) ↔
      ∃ ys zs, Fills config hooks (Element.fixed es) (Element.front es items) ys ∧
        Repeats es (Element.front es items) (items.drop (Element.front es items).length) zs ∧ xs = ys ++ zs := by
  unfold elements Repeats
  simp only [← fixedElements_fills (i := 0)]
  rw [Succeeds.bind]
  show Succeeds (fixedElements config hooks .root 0 (Element.fixed es) (Element.front es items)) _ ↔ _
  cases Element.variadic? es with
  | none =>
    simp [Succeeds.pure]
  | some e =>
    simp only [← repeatedElement_puts (i := (Element.fixed es).length),
      ← trailingElements_puts (i := (Element.front es items).length), Succeeds.bind, Succeeds.pure, answered_append]
    constructor
    · rintro ⟨head, hhead, middle, hmiddle, tail, htail, _, ws, ⟨ys, zs, hys, hzs, rfl⟩, hws, rfl⟩
      exact ⟨ys, zs ++ ws, ⟨head, hhead, hys⟩, ⟨zs, ws, ⟨middle, hmiddle, hzs⟩, ⟨tail, htail, hws⟩, rfl⟩,
        List.append_assoc ys zs ws⟩
    · rintro ⟨ys, _, ⟨head, hhead, hys⟩, ⟨zs, ws, ⟨middle, hmiddle, hzs⟩, ⟨tail, htail, hws⟩, rfl⟩, rfl⟩
      exact ⟨head, hhead, middle, hmiddle, tail, htail, _, ws, ⟨ys, zs, hys, hzs, rfl⟩, hws,
        (List.append_assoc ys zs ws).symm⟩

/-- A tuple of legal length puts out what its elements do, in a sequence of the same class. -/
theorem tuple_puts {shape : List (Element Schema)} {es : List (Element Check)} {v o : Value} :
    (tuple config hooks shape es).Puts v o ↔ ∃ q items ys zs, v.items? = some (q, items) ∧
      Element.Admits es items.length ∧ Fills config hooks (Element.fixed es) (Element.front es items) ys ∧
      Repeats es (Element.front es items) (items.drop (Element.front es items).length) zs ∧
      o = q.make (ys ++ zs) := by
  unfold Puts tuple
  cases hi : v.items? with
  | none => simp [Outcome.isOk, Outcome.fail]
  | some pair =>
    obtain ⟨q, items⟩ := pair
    simp only [Option.some.injEq, Prod.mk.injEq, ← lengthFits_iff]
    split_ifs with hfit
    · rw [Succeeds.bind]
      simp only [Succeeds.pure, Outcome.isOk_iff]
      constructor
      · rintro ⟨os, hos, hf, rfl⟩
        obtain ⟨ys, zs, hys, hzs, hout⟩ := elements_puts.mp ⟨os, hos, hf, rfl⟩
        exact ⟨q, items, ys, zs, ⟨rfl, rfl⟩, hfit, hys, hzs, congrArg q.make hout⟩
      · rintro ⟨_, _, ys, zs, ⟨rfl, rfl⟩, -, hys, hzs, rfl⟩
        obtain ⟨os, hos, hf, hout⟩ := elements_puts.mpr ⟨ys, zs, hys, hzs, rfl⟩
        exact ⟨os, hos, hf, congrArg q.make hout⟩
    · simp only [Succeeds.ok, Outcome.isOk, Outcome.fail, List.isEmpty_cons, Bool.false_eq_true, false_and,
        false_iff, not_exists, not_and]
      rintro _ _ _ _ ⟨rfl, rfl⟩ h
      exact absurd h hfit

end Tuples
end Check
end Schemata
