import Schemata.Proofs.Validation.Keeping
import Schemata.Proofs.Value.Reordering

/-! The entries of an object under its check: which are collected, which keys they are put out under, and that their
order comes back in the output only. -/
namespace Schemata

namespace Entry

/-- The entry that a pair of a mapping stands for, if its key is one. -/
def ofPair? (pair : Value × Value) : Option Entry := (Key.ofValue? pair.1).map fun key => ⟨key, pair.1, pair.2⟩

variable {raw : List (Value × Value)} {acc es ds : List Entry}

theorem keys_filterMap (raw : List (Value × Value)) :
    keys (raw.filterMap ofPair?) = raw.filterMap fun pair => Key.ofValue? pair.1 := by
  simp [keys, List.map_filterMap, ofPair?, Function.comp_def]

/-- Where no two keys stand for one, all entries are collected. -/
theorem collect_of_nodup (h : (keys (acc ++ raw.filterMap ofPair?)).Nodup) :
    (collect acc raw).1 = acc ++ raw.filterMap ofPair? ∧
      ((collect acc raw).2 = [] ↔ ∀ pair ∈ raw, (Key.ofValue? pair.1).isSome = true) := by
  induction raw generalizing acc with
  | nil => simp [collect]
  | cons pair raw ih =>
    obtain ⟨k, item⟩ := pair
    unfold collect
    cases hk : Key.ofValue? k with
    | none =>
      rw [List.filterMap_cons_none (by simp [ofPair?, hk])] at h ⊢
      simp [add, hk, (ih h).1]
    | some key =>
      rw [List.filterMap_cons_some (by simp [ofPair?, hk]; rfl)] at h ⊢
      have hfind : find? acc key = none := by
        refine find?_eq_none.mpr fun e he hkey => ?_
        simp only [keys, List.map_append, List.map_cons] at h
        exact List.disjoint_of_nodup_append h (List.mem_map_of_mem he) (by simp [hkey])
      have ih := @ih (acc ++ [⟨key, k, item⟩]) (by simpa using h)
      simp only [add, hk, hfind, List.nil_append, List.forall_mem_cons, Option.isSome_some, true_and]
      exact ⟨by simpa using ih.1, ih.2⟩

/-- Of two keys that stand for one, the second is a failure. -/
theorem apart_of_collect (h : (collect [] raw).2 = []) : (Value.mapping raw).KeysApart := by
  obtain ⟨new, -, hall, hnodup⟩ := (collect_eq (by simp [keys])).mp (Prod.ext rfl h : collect [] raw = (_, []))
  have hkeys : raw.filterMap (fun pair => Key.ofValue? pair.1) = keys new := by
    clear hnodup h
    induction hall with
    | nil => rfl
    | cons hof _ ih => simp [hof.1, ih, keys]
  rw [Value.KeysApart, hkeys]
  simpa using hnodup

/-- Entries are looked up by key, wherever they stand. -/
theorem find?_of_perm (h : (keys es).Nodup) (hperm : es.Perm ds) (key : Key) : find? es key = find? ds key := by
  refine find?_eq_of_perm hperm ((List.pairwise_map.mp h).imp fun hne ⟨hd, he⟩ => hne ?_)
  rw [beq_iff_eq] at hd he
  exact hd.trans he.symm

end Entry

namespace Value

/-- Both mappings have keys that stand for the same property keys. -/
theorem keys_perm {es ds fs : List (Value × Value)} (hperm : es.Perm ds)
    (hall : List.Forall₂ (fun d e => d.1.Resembles e.1) ds fs) :
    (es.map fun e => Key.ofValue? e.1).Perm (fs.map fun e => Key.ofValue? e.1) := by
  have hfs : ds.map (fun e => Key.ofValue? e.1) = fs.map fun e => Key.ofValue? e.1 := by
    rw [← List.forall₂_eq_eq_eq, List.forall₂_map_left_iff, List.forall₂_map_right_iff]
    exact hall.imp fun _ _ h => h.key
  exact hfs ▸ hperm.map _

theorem keysApart_iff {es fs : List (Value × Value)}
    (h : (es.map fun e => Key.ofValue? e.1).Perm (fs.map fun e => Key.ofValue? e.1)) :
    (mapping es).KeysApart ↔ (mapping fs).KeysApart := by
  have hfilter := (h.filterMap id).nodup_iff
  rwa [List.filterMap_map, List.filterMap_map] at hfilter

end Value

/-- The entries of the output under construction stand under some of the keys, each once. -/
def Rebuilt.Under (ks : List Key) (r : Rebuilt) : Prop :=
  ∃ ls : List Key, ls.Sublist ks ∧ r.entries.map (·.1) = ls.map Key.toValue

theorem Rebuilt.Under.append {r s : Rebuilt} {ks ls : List Key} (h : r.Under ks) (k : s.Under ls) :
    (r.append s).Under (ks ++ ls) := by
  obtain ⟨ms, hms, hr⟩ := h
  obtain ⟨ns, hns, hs⟩ := k
  exact ⟨ms ++ ns, hms.append hns, by simp [Rebuilt.append, hr, hs]⟩

theorem Rebuilt.under_nil {r : Rebuilt} {ks : List Key} (h : r.entries = []) : r.Under ks := ⟨[], by simp, by simp [h]⟩

theorem Rebuilt.under_item (key : Key) (o : Outcome) : (Rebuilt.item key o).Under [key] := ⟨[key], .refl _, rfl⟩

namespace Check

variable {config : Config} {hooks : Hooks} {visit : Visit} {es fs : List Entry} {shape : ObjectShape Check}

/-- Properties look their entries up. -/
theorem properties_congr {ps : List (Property Check)} (h : ∀ key, Entry.find? es key = Entry.find? fs key) :
    properties config hooks visit es ps = properties config hooks visit fs ps := by
  induction ps with
  | nil => rfl
  | cons p ps ih => simp only [properties, property, given?, h, ih]

theorem properties_under {ps : List (Property Check)} {r : Rebuilt} (h : properties config hooks visit es ps = .ok r) :
    r.Under (ps.map (·.key)) := by
  induction ps generalizing r with
  | nil =>
    obtain rfl := Except.ok.inj h
    exact Rebuilt.under_nil rfl
  | cons p ps ih =>
    obtain ⟨r₁, r₂, h₁, h₂, rfl⟩ := combine_ok h
    suffices h : r₁.Under [p.key] from h.append (ih h₂)
    unfold property at h₁
    split at h₁
    · obtain ⟨o, -, rfl⟩ := map_ok h₁
      exact Rebuilt.under_item _ _
    · split at h₁
      · obtain rfl := Except.ok.inj h₁
        exact Rebuilt.under_nil rfl
      · obtain rfl := Except.ok.inj h₁
        exact Rebuilt.under_nil rfl
      · obtain ⟨o, -, rfl⟩ := map_ok h₁
        exact Rebuilt.under_item _ _

/-- Undeclared entries are checked one by one. -/
theorem undeclaredAll_perm (h : es.Perm fs) : Agree (fun _ _ => True)
    (fun r s => r.entries.Perm s.entries ∧ r.failures.Perm s.failures) (undeclaredAll shape visit es)
    (undeclaredAll shape visit fs) := by
  induction h with
  | nil => exact ⟨.nil, .nil⟩
  | cons e _ ih =>
    rw [undeclaredAll_cons, undeclaredAll_cons]
    refine Agree.bind (.refl (R := (· = ·)) (fun _ _ => trivial) fun _ => rfl) fun r r' hr => ih.bind fun s t hst => ?_
    subst hr
    exact ⟨hst.1.append_left _, hst.2.append_left _⟩
  | swap e f es =>
    simp only [undeclaredAll_cons]
    generalize (if shape.declares e.key then Except.ok .empty else undeclared shape visit e) = x
    generalize (if shape.declares f.key then Except.ok .empty else undeclared shape visit f) = y
    cases x <;> cases y <;> cases undeclaredAll shape visit es <;> try trivial
    rename_i r s t
    refine ⟨?_, ?_⟩
    · have h : (s.entries ++ r.entries).Perm (r.entries ++ s.entries) := List.perm_append_comm
      simpa [Rebuilt.append] using h.append_right t.entries
    · have h : (s.failures ++ r.failures).Perm (r.failures ++ s.failures) := List.perm_append_comm
      simpa [Rebuilt.append] using h.append_right t.failures
  | trans _ _ ih ih' =>
    rename_i es fs gs _ _
    generalize undeclaredAll shape visit es = x at ih
    generalize undeclaredAll shape visit fs = y at ih ih'
    generalize undeclaredAll shape visit gs = z at ih'
    cases x <;> cases y <;> cases z <;> first | trivial | exact ⟨ih.1.trans ih'.1, ih.2.trans ih'.2⟩

theorem undeclared_under {e : Entry} {r : Rebuilt} (h : undeclared shape visit e = .ok r) : r.Under [e.key] := by
  have policy : ∀ {u : Policy} {r : Rebuilt}, undeclared ⟨[], none, u⟩ visit e = .ok r → r.Under [e.key] := by
    intro u r hr
    unfold undeclared indexTakes at hr
    cases u <;> obtain rfl := Except.ok.inj hr <;> first | exact Rebuilt.under_nil rfl | exact Rebuilt.under_item _ _
  rw [undeclared_eq shape] at h
  cases hindex : shape.index with
  | none => exact policy (hindex ▸ h)
  | some i =>
    rw [hindex] at h
    obtain ⟨p, -, h⟩ := bind_ok h
    split_ifs at h
    · obtain ⟨o, -, rfl⟩ := map_ok h
      exact Rebuilt.under_item _ _
    · exact policy h

theorem undeclaredAll_under {r : Rebuilt} (h : undeclaredAll shape visit es = .ok r) :
    r.Under ((es.filter fun e => !shape.declares e.key).map (·.key)) := by
  induction es generalizing r with
  | nil =>
    obtain rfl := Except.ok.inj h
    exact Rebuilt.under_nil rfl
  | cons e es ih =>
    rw [undeclaredAll_cons] at h
    obtain ⟨r₁, r₂, h₁, h₂, rfl⟩ := combine_ok h
    cases hdeclares : shape.declares e.key with
    | true =>
      rw [hdeclares] at h₁
      obtain rfl := Except.ok.inj h₁
      have hempty : Rebuilt.empty.Under [] := Rebuilt.under_nil rfl
      simpa [hdeclares] using hempty.append (ih h₂)
    | false =>
      rw [hdeclares] at h₁
      simp only [List.filter_cons, hdeclares]
      exact (undeclared_under h₁).append (ih h₂)

/-- What is checked as declared and what is checked as undeclared stand under different keys. -/
theorem nodup_checked (hkeys : (shape.properties.map (·.key)).Nodup) (hes : (Entry.keys es).Nodup) :
    (shape.properties.map (·.key) ++ (es.filter fun e => !shape.declares e.key).map (·.key)).Nodup := by
  refine List.Nodup.append hkeys ((List.filter_sublist.map _).nodup hes) fun key hdeclared hkey => ?_
  obtain ⟨p, hp, rfl⟩ := List.mem_map.mp hdeclared
  obtain ⟨e, he, hkey⟩ := List.mem_map.mp hkey
  have hundeclared := (List.mem_filter.mp he).2
  rw [hkey] at hundeclared
  simp [ObjectShape.declares, List.any_eq_false] at hundeclared
  exact hundeclared p hp rfl

/-- Keys that clash are refused. -/
theorem object_refuses {v : Value} {raw : List (Value × Value)} (hraw : v.entries? = some raw)
    (hapart : ¬ (Value.mapping raw).KeysApart) {o : Outcome} (h : object config hooks shape visit v = .ok o) :
    o.isOk = false := by
  rw [Bool.eq_false_iff]
  intro hok
  obtain ⟨raw', _, _, hraw', hkeys, -⟩ := object_ok h hok
  obtain rfl := Option.some.inj (hraw.symm.trans hraw')
  exact hapart (Entry.apart_of_collect hkeys)

end Check
end Schemata
