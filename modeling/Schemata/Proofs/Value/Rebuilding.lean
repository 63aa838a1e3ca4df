import Schemata.Proofs.Constraint.Implication
import Schemata.Proofs.Value.Fields

/-! Values as checks put them out: each container built anew from the outputs of its parts. Rebuilding adds no
nesting and no identity, and plain constraints see no difference. -/
namespace Schemata.Value

theorem domain_of_items {v : Value} {q : Sequence} {items : List Value} (h : v.items? = some (q, items)) :
    v.domain = .array := by
  cases v with
  | list _ => rfl
  | tuple _ _ => rfl
  | knot l body =>
    cases body with
    | list _ => rfl
    | tuple _ _ => rfl
    | knot k inner =>
      by_cases hk : k = l <;> simp [items?, unfold, bind, hk] at h
    | back k c =>
      by_cases hk : k = l <;> simp [items?, unfold, bind, hk] at h
    | _ => simp [items?, unfold, bind] at h
  | _ => simp [items?, unfold] at h

theorem domain_of_entries {v : Value} {raw : List (Value × Value)} (h : v.entries? = some raw) :
    v.domain = .object := by
  cases v with
  | mapping _ => rfl
  | knot l body =>
    cases body with
    | mapping _ => rfl
    | knot k inner =>
      by_cases hk : k = l <;> simp [entries?, unfold, bind, hk] at h
    | back k c =>
      by_cases hk : k = l <;> simp [entries?, unfold, bind, hk] at h
    | _ => simp [entries?, unfold, bind] at h
  | _ => simp [entries?, unfold] at h

theorem entries_of_fields {v : Value} {es : List Entry} (h : v.fields? = some es) :
    ∃ raw, v.entries? = some raw := by
  obtain ⟨raw, h, -⟩ := fields?_eq_some.mp h
  exact ⟨raw, h⟩

@[simp] theorem items?_make (q : Sequence) (items : List Value) :
    (q.make items).items? = some (q, items) := by cases q <;> rfl

@[simp] theorem items?_ofPairs (pairs : List Pair) : (ofPairs pairs).items? = none := rfl

@[simp] theorem fields?_make (q : Sequence) (items : List Value) : (q.make items).fields? = none := by
  cases q <;> rfl

/-- The second value is the first, or a container of the same kind over its rebuilt parts. A mapping may lose
entries unless it is kept `whole`. -/
inductive Rebuilt (whole : Prop) : Value → Value → Prop
  | same (v : Value) : Rebuilt whole v v
  | sequence {v : Value} {q : Sequence} {xs ys : List Value} : v.items? = some (q, xs) →
      xs.length = ys.length → (∀ p ∈ xs.zip ys, Rebuilt whole p.1 p.2) → Rebuilt whole v (q.make ys)
  | mapping {v : Value} {es : List Entry} {pairs : List Pair} {source : Key → Value} :
      v.fields? = some es → (pairs.map (·.1)).Nodup →
      (∀ t ∈ pairs, ∃ e ∈ es, e.key = t.1 ∧ e.item = source t.1) →
      (whole → ∀ e ∈ es, e.key ∈ pairs.map (·.1)) → (∀ t ∈ pairs, Rebuilt whole (source t.1) t.2) →
      Rebuilt whole v (ofPairs pairs)

namespace Rebuilt

variable {whole : Prop} {v w : Value}

theorem domain (h : v.Rebuilt whole w) : w.domain = v.domain := by
  cases h with
  | same => rfl
  | @sequence _ q _ ys hv _ _ => rw [domain_of_items hv, domain_of_items (items?_make q ys)]
  | mapping hv _ _ _ _ =>
    obtain ⟨raw, hraw⟩ := entries_of_fields hv
    rw [domain_of_entries hraw]
    rfl

/-- Scalars are put out as they are. -/
theorem eq_of_ne (h : v.Rebuilt whole w) (ha : v.domain ≠ .array) (ho : v.domain ≠ .object) : w = v := by
  cases h with
  | same => rfl
  | sequence hv _ _ => exact absurd (domain_of_items hv) ha
  | mapping hv _ _ _ _ =>
    obtain ⟨raw, hraw⟩ := entries_of_fields hv
    exact absurd (domain_of_entries hraw) ho

end Rebuilt

theorem depthAll_le {items : List Value} {n : Nat} : depthAll items ≤ n ↔ ∀ x ∈ items, x.depth ≤ n := by
  induction items with
  | nil => simp [depthAll]
  | cons x items ih => simp [depthAll, ih]

theorem depthEntries_le {entries : List (Value × Value)} {n : Nat} :
    depthEntries entries ≤ n ↔ ∀ x ∈ entries.map (·.2), x.depth ≤ n := by
  induction entries with
  | nil => simp [depthEntries]
  | cons e entries ih =>
    obtain ⟨k, x⟩ := e
    simp [depthEntries, ih]

/-- A container without an identity is acyclic when its parts are. -/
theorem acyclic_of_children {v : Value} (hl : v.label? = none) (hi : v.identity? = none ∨ v.children = [])
    (hc : ∀ c ∈ v.children, c.Acyclic) : v.Acyclic := by
  intro x hx
  cases hx with
  | here =>
    refine ⟨hl, fun i h c hmem => ?_⟩
    rcases hi with hi | hi
    · rw [hi] at h
      simp at h
    · rw [hi] at hmem
      simp at hmem
  | deeper hmem hx =>
    rw [unfold_of_label hl] at hmem
    exact hc _ hmem x hx

theorem throughout_of_children {p : Value → Prop} {v : Value} (hl : v.label? = none) (hv : p v)
    (hc : ∀ c ∈ v.children, c.Throughout p) : v.Throughout p := by
  intro x hx
  cases hx with
  | here => exact hv
  | deeper hmem hx =>
    rw [unfold_of_label hl] at hmem
    exact hc _ hmem x hx

/-- What a check may rely on inside a value: it is acyclic, nests at most `n` deep, and nothing in it has an
identity of `around`. -/
structure Clear (around : List Identity) (n : Nat) (v : Value) : Prop where
  acyclic : v.Acyclic
  depth : v.depth ≤ n
  identities : ∀ i ∈ around, v.Throughout fun x => x.identity? ≠ some i

theorem Clear.child {around : List Identity} {n : Nat} {v c : Value} (h : v.Clear around (n + 1))
    (hc : c ∈ v.children) : c.Clear around n where
  acyclic := h.acyclic.child hc
  depth := by
    have := depth_lt_of_child hc
    have := h.depth
    omega
  identities := fun i hi => (h.identities i hi).child (h.acyclic.unfold_eq.symm ▸ hc)

theorem items_of_acyclic {v : Value} (hv : v.Acyclic) {q : Sequence} {items : List Value}
    (h : v.items? = some (q, items)) : v.children = items := by
  rw [← children_of_items h, hv.unfold_eq]

theorem exists_zip_of_mem {xs ys : List Value} (h : xs.length = ys.length) {y : Value} (hy : y ∈ ys) :
    ∃ x ∈ xs, (x, y) ∈ xs.zip ys := by
  induction ys generalizing xs with
  | nil => simp at hy
  | cons z ys ih =>
    cases xs with
    | nil => simp at h
    | cons x xs =>
      rcases List.mem_cons.mp hy with rfl | hy
      · exact ⟨x, by simp, by simp⟩
      · obtain ⟨x', hx', hz⟩ := ih (by simpa using h) hy
        exact ⟨x', List.mem_cons_of_mem _ hx', by simp [hz]⟩

/-- A sequence over clear items is clear in place of a clear sequence. -/
theorem Clear.make {around : List Identity} {n : Nat} {v : Value} {q : Sequence} {xs ys : List Value}
    (hv : v.Clear around (n + 1)) (hi : v.items? = some (q, xs)) (hlen : xs.length = ys.length)
    (hys : ∀ y ∈ ys, y.Clear around n) : (q.make ys).Clear around (n + 1) := by
  have hchildren : (q.make ys).children = ys := by cases q <;> rfl
  have hlabel : (q.make ys).label? = none := by cases q <;> rfl
  refine ⟨acyclic_of_children hlabel ?_ fun c hc => (hys c (hchildren ▸ hc)).acyclic, ?_, fun i h => ?_⟩
  · rw [hchildren]
    cases q with
    | list => exact Or.inl rfl
    | tuple => cases ys with
      | nil => exact Or.inr rfl
      | cons y ys => exact Or.inl rfl
  · have : depthAll ys ≤ n := depthAll_le.mpr fun y hy => (hys y hy).depth
    cases q <;> simp only [Sequence.make, Value.depth] <;> omega
  · refine throughout_of_children hlabel ?_ fun c hc => (hys c (hchildren ▸ hc)).identities i h
    cases q with
    | list => simp [Sequence.make, identity?]
    | tuple => cases ys with
      | cons y ys => simp [Sequence.make, identity?]
      | nil =>
        obtain rfl : xs = [] := List.length_eq_zero_iff.mp hlen
        have hid : v.identity? = some .emptyTuple := by
          rw [items?, hv.acyclic.unfold_eq] at hi
          cases v <;> simp at hi
          rw [hi]
          rfl
        have hne := (hv.identities i h).here
        rw [hid] at hne
        exact hne

/-- A mapping over clear items is clear. -/
theorem Clear.ofPairs {around : List Identity} {n : Nat} {pairs : List Pair}
    (h : ∀ t ∈ pairs, t.2.Clear around n) : (ofPairs pairs).Clear around (n + 1) := by
  have hc : ∀ c ∈ (Value.ofPairs pairs).children, c.Clear around n := by
    intro c hc
    simp only [Value.ofPairs, children, List.map_map, List.mem_map, Function.comp_apply] at hc
    obtain ⟨t, ht, rfl⟩ := hc
    exact h t ht
  refine ⟨acyclic_of_children rfl (Or.inl rfl) fun c h => (hc c h).acyclic, ?_, fun i hi =>
    throughout_of_children rfl (by simp [Value.ofPairs, identity?]) fun c h => (hc c h).identities i hi⟩
  have : depthEntries (pairs.map fun t => (t.1.toValue, t.2)) ≤ n :=
    depthEntries_le.mpr fun x hx => (hc x hx).depth
  simp only [Value.ofPairs, Value.depth]
  omega

/-- What is put out for a clear value is clear. -/
theorem Rebuilt.clear {whole : Prop} {around : List Identity} {n : Nat} {v w : Value}
    (h : v.Rebuilt whole w) (hv : v.Clear around n) : w.Clear around n := by
  induction h generalizing n with
  | same => exact hv
  | @sequence v q xs ys hi hlen _ ih =>
    have hchildren := items_of_acyclic hv.acyclic hi
    cases n with
    | zero =>
      have hd := hv.depth
      rw [items?, hv.acyclic.unfold_eq] at hi
      cases v <;> simp [depth] at hi hd
    | succ n =>
      refine hv.make hi hlen fun y hy => ?_
      obtain ⟨x, hx, hz⟩ := exists_zip_of_mem hlen hy
      exact ih _ hz (hv.child (hchildren ▸ hx))
  | @mapping v es pairs source hf _ hsub _ _ ih =>
    cases n with
    | zero =>
      have hd := hv.depth
      obtain ⟨raw, hraw⟩ := entries_of_fields hf
      rw [entries?, hv.acyclic.unfold_eq] at hraw
      cases v <;> simp [depth] at hraw hd
    | succ n =>
      refine Clear.ofPairs fun t ht => ih t ht ?_
      obtain ⟨e, he, -, hitem⟩ := hsub t ht
      rw [← hitem]
      have := item_mem_children hf he
      rw [hv.acyclic.unfold_eq] at this
      exact hv.child this

theorem exists_between {xs ys zs : List Value} (hxy : xs.length = ys.length) (hyz : ys.length = zs.length)
    {x z : Value} (h : (x, z) ∈ xs.zip zs) : ∃ y, (x, y) ∈ xs.zip ys ∧ (y, z) ∈ ys.zip zs := by
  induction ys generalizing xs zs with
  | nil =>
    obtain rfl := List.length_eq_zero_iff.mp hxy
    simp at h
  | cons y ys ih =>
    cases xs with
    | nil => simp at hxy
    | cons x' xs =>
      cases zs with
      | nil => simp at hyz
      | cons z' zs =>
        simp only [List.zip_cons_cons, List.mem_cons, Prod.mk.injEq] at h
        rcases h with ⟨rfl, rfl⟩ | h
        · exact ⟨y, by simp, by simp⟩
        · obtain ⟨y', h₁, h₂⟩ := ih (by simpa using hxy) (by simpa using hyz) h
          exact ⟨y', List.mem_cons_of_mem _ h₁, List.mem_cons_of_mem _ h₂⟩

theorem Rebuilt.trans {whole : Prop} {u v w : Value} (h : v.Rebuilt whole w) (k : w.Rebuilt whole u) :
    v.Rebuilt whole u := by
  induction h generalizing u with
  | same => exact k
  | @sequence v q xs ys hi hlen hz ih =>
    cases k with
    | same => exact .sequence hi hlen hz
    | @sequence _ q' ys' zs hi' hlen' hz' =>
      rw [items?_make] at hi'
      obtain ⟨rfl, rfl⟩ := Prod.mk.inj (Option.some.inj hi')
      refine .sequence hi (hlen.trans hlen') fun p hp => ?_
      obtain ⟨y, h₁, h₂⟩ := exists_between hlen hlen' hp
      exact ih _ h₁ (hz' _ h₂)
    | mapping hf _ _ _ _ => simp at hf
  | @mapping v es pairs source hf hnd hsub hcover hr ih =>
    cases k with
    | same => exact .mapping hf hnd hsub hcover hr
    | sequence hi _ _ => simp at hi
    | @mapping _ es' pairs' source' hf' hnd' hsub' hcover' hr' =>
      obtain ⟨-, rfl⟩ := (fields?_ofPairs hnd).mp hf'
      have hmid : ∀ t' ∈ pairs', (t'.1, source' t'.1) ∈ pairs := by
        intro t' ht'
        obtain ⟨e, he, hk, hx⟩ := hsub' t' ht'
        obtain ⟨t, ht, rfl⟩ := List.mem_map.mp he
        rw [← hx, ← hk]
        exact ht
      refine .mapping hf hnd' (fun t' ht' => hsub (t'.1, source' t'.1) (hmid t' ht')) (fun hw e he => ?_) fun t' ht' =>
        ih _ (hmid t' ht') (hr' t' ht')
      obtain ⟨t, ht, hk⟩ := List.mem_map.mp (hcover hw e he)
      rw [← hk]
      exact hcover' hw t.entry (List.mem_map_of_mem ht)

/-- No index marker comes up among the keys of what is put out. -/
theorem Rebuilt.markerFree {whole : Prop} {v w : Value} (h : v.Rebuilt whole w) (hv : v.MarkerFree) :
    w.MarkerFree := by
  induction h with
  | same => exact hv
  | @sequence v q xs ys hi hlen _ ih =>
    refine throughout_of_children (by cases q <;> rfl) (by simp) fun c hc => ?_
    have hc : c ∈ ys := by cases q <;> exact hc
    obtain ⟨x, hx, hz⟩ := exists_zip_of_mem hlen hc
    exact ih _ hz (hv.child (children_of_items hi ▸ hx))
  | @mapping v es pairs source hf hnd hsub _ _ ih =>
    refine throughout_of_children rfl (fun es' hes' => ?_) fun c hc => ?_
    · obtain ⟨hi, rfl⟩ := (fields?_ofPairs hnd).mp hes'
      simpa [Entry.keys, Pair.entry] using fun x hx => hi (.index, x) hx rfl
    · simp only [ofPairs, children, List.map_map, List.mem_map, Function.comp_apply] at hc
      obtain ⟨t, ht, rfl⟩ := hc
      obtain ⟨e, he, -, hitem⟩ := hsub t ht
      refine ih t ht ?_
      rw [← hitem]
      exact hv.child (item_mem_children hf he)

/-- Plain constraints accept what is put out exactly when they accept what was given. -/
theorem Rebuilt.accepts {whole : Prop} {v w : Value} (h : v.Rebuilt whole w) {c : Constraint} (hc : c.Plain) :
    c.Accepts w ↔ c.Accepts v := by
  by_cases ha : v.domain = .array ∨ v.domain = .object
  · have hw := h.domain
    cases c with
    | range r =>
      constructor
      · rintro ⟨n, rfl, -⟩
        simp [Value.domain] at hw
        simp [← hw] at ha
      · rintro ⟨n, rfl, -⟩
        simp [Value.domain] at ha
    | pattern p =>
      constructor
      · rintro ⟨s, _, rfl, -⟩
        simp [Value.domain] at hw
        simp [← hw] at ha
      · rintro ⟨s, _, rfl, -⟩
        simp [Value.domain] at ha
    | length l =>
      have hlen : w.length? = v.length? := by
        cases h with
        | same => rfl
        | @sequence _ q xs ys hi hxy _ =>
          have hne : ∀ s, v ≠ .string s := by
            rintro s rfl
            simp [items?, unfold] at hi
          have hv : v.length? = some xs.length := by
            cases v <;> simp_all [Value.length?]
          rw [hv, hxy]
          cases q <;> rfl
        | mapping hf _ _ _ _ =>
          obtain ⟨raw, hraw⟩ := entries_of_fields hf
          have hitems : v.items? = none := by
            simp only [entries?] at hraw
            split at hraw
            · rename_i heq
              simp [items?, heq]
            · simp at hraw
          have hv : v.length? = none := by
            cases v <;> simp_all [Value.length?, entries?, unfold]
          rw [hv]
          rfl
      simp only [Constraint.Accepts, Length.Accepts, hlen]
    | equals _ => exact hc.elim
    | type _ => exact hc.elim
    | predicate _ => exact hc.elim
  · rw [not_or] at ha
    rw [h.eq_of_ne ha.1 ha.2]

end Schemata.Value
