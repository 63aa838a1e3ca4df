import Schemata.Proofs.Algebra.Containment
import Schemata.Proofs.Algebra.Signatures

/-! The subset test on objects with index signatures. A yes holds of all values but those with an intruder: an
entry that the first object takes by its index signature and the second one, without any, rejects. -/
namespace Schemata
namespace Env

variable {env : Env} {config : Config} {linked : Prop} {a b : ObjectShape Schema} {es : List Entry} {v : Value}
  {sub : Schema → Schema → Except Fault Bool}

/-- A yes of the test on keywords is right. -/
def SoundOnKeywords (env : Env) (config : Config) (sub : Schema → Schema → Except Fault Bool) : Prop :=
  ∀ k l : Keyword, sub (.keyword k) (.keyword l) = .ok true → ∀ v,
    env.accepts config (.keyword k) v = .ok true → env.accepts config (.keyword l) v = .ok true

theorem subsetWithin_soundOnKeywords (env : Env) (config : Config) (fuel : Nat) :
    env.SoundOnKeywords config (env.subsetWithin fuel []) := by
  intro k l h v hv
  have fits : ∀ k : Keyword, (Schema.keyword k).Every (Schema.Fits Dialect.plain.closed) := fun k => .intro trivial nofun
  have hinside : Schema.Inside env true Dialect.plain.closed v.depth (.keyword k) (.keyword l) :=
    subsetWithin_sound (env.grounded_closed Dialect.plain) v.depth fuel [] _ _ (fits k) (fits l) .nil h
  have hlevel : Schema.Level Dialect.plain.closed v.depth v := fun hd => absurd hd (fun ⟨_, h⟩ => h)
  have hmember := hinside v hlevel (Schema.member_keyword.mpr (by simpa [accepts_keyword] using hv))
  simpa [accepts_keyword] using Schema.member_keyword.mp hmember

/-- The test on the schemas of two parts carries over to what they accept. -/
theorem SoundOnKeywords.accepts (hsub : env.SoundOnKeywords config sub) {s t : Schema} (hs : ∃ k, s = .keyword k)
    (ht : ∃ k, t = .keyword k) (h : sub s t = .ok true) {v : Value} (hv : env.accepts config s v = .ok true) :
    env.accepts config t v = .ok true := by
  obtain ⟨k, rfl⟩ := hs
  obtain ⟨l, rfl⟩ := ht
  exact hsub k l h v hv

section Keys

variable {key : Key}

/-- A property of the second object that the first one does not declare. -/
theorem says_of_absentWithin (hexact : config.exactOptional = true) (htry : env.TriesLike config linked)
    (hsub : env.SoundOnKeywords config sub) (ha : a.OfKeywords linked) (hb : b.OfKeywords linked) {q : Property Schema}
    (hprop : b.property? key = some q) (h : ObjectShape.absentWithin env.admits sub a q = .ok true)
    (hnone : a.property? key = none) (hsaid : env.Says config a es key) : env.Says config b es key := by
  obtain ⟨hq, rfl⟩ := ObjectShape.property?_mem hprop
  rw [says_of_none hnone] at hsaid
  rw [says_of_property hprop, fulfils_iff hexact (hb.defaults q hq)]
  unfold ObjectShape.absentWithin at h
  split_ifs at h with hreq
  · simp [pure, Except.pure] at h
  refine ⟨fun e he => ?_, fun hreq' => absurd hreq' hreq⟩
  have hkey : e.key = q.key := (Entry.mem_of_find? he).2
  obtain ⟨x, hx, h⟩ := indexes_of_trial htry ha h
  cases x with
  | none =>
    have hreject : a.undeclared = .reject := by simpa [pure, Except.pure] using h
    exact absurd hreject ((spares_of_unindexed (hkey ▸ hx)).mp (hsaid e he))
  | some s =>
    have hitem := (spares_of_indexed (hkey ▸ hx)).mp (hsaid e he)
    obtain ⟨i, hi, rfl, -⟩ := hx
    exact hsub.accepts (ha.index i hi).2 (hb.values q hq) h hitem

/-- A property of the second object. -/
theorem says_of_coversProperty (hexact : config.exactOptional = true) (htry : env.TriesLike config linked)
    (hsub : env.SoundOnKeywords config sub) (ha : a.OfKeywords linked) (hb : b.OfKeywords linked) {q : Property Schema}
    (hprop : b.property? key = some q) (h : ObjectShape.coversProperty env.admits sub a q = .ok true)
    (hsaid : env.Says config a es key) : env.Says config b es key := by
  obtain ⟨hq, rfl⟩ := ObjectShape.property?_mem hprop
  unfold ObjectShape.coversProperty at h
  cases hpa : a.property? q.key with
  | none =>
    rw [hpa] at h
    exact says_of_absentWithin hexact htry hsub ha hb hprop h hpa hsaid
  | some p =>
    obtain ⟨hp, hkey⟩ := ObjectShape.property?_mem hpa
    rw [hpa] at h
    dsimp only at h
    split_ifs at h with hreq
    · simp at h
    rw [says_of_property hpa, fulfils_iff hexact (ha.defaults p hp), hkey] at hsaid
    rw [says_of_property hprop, fulfils_iff hexact (hb.defaults q hq)]
    refine ⟨fun e he => hsub.accepts (ha.values p hp) (hb.values q hq) h (hsaid.1 e he), fun hq' => hsaid.2 ?_⟩
    simpa [hq'] using hreq

/-- A property that only the first object declares. -/
theorem says_of_extraWithin (hexact : config.exactOptional = true) (htry : env.TriesLike config linked)
    (hsub : env.SoundOnKeywords config sub) (ha : a.OfKeywords linked) (hb : b.OfKeywords linked) {p : Property Schema}
    (hprop : a.property? key = some p) (hnone : b.property? key = none)
    (h : ObjectShape.extraWithin env.admits sub b p = .ok true) (hsaid : env.Says config a es key) :
    env.Says config b es key := by
  obtain ⟨hp, rfl⟩ := ObjectShape.property?_mem hprop
  rw [says_of_property hprop, fulfils_iff hexact (ha.defaults p hp)] at hsaid
  refine (says_of_none hnone).mpr fun e he => ?_
  have hkey : e.key = p.key := (Entry.mem_of_find? he).2
  obtain ⟨x, hx, h⟩ := indexes_of_trial htry hb h
  cases x with
  | none =>
    have hpolicy : b.undeclared ≠ .reject := by simpa [pure, Except.pure] using h
    exact (spares_of_unindexed (hkey ▸ hx)).mpr hpolicy
  | some s =>
    refine (spares_of_indexed (hkey ▸ hx)).mpr ?_
    obtain ⟨i, hi, rfl, -⟩ := hx
    exact hsub.accepts (ha.values p hp) (hb.index i hi).2 h (hsaid.1 e he)

/-- A key that neither object declares: only the index signature of the first object can take what the second one
rejects. -/
theorem spares_or_intrudes (hsub : env.SoundOnKeywords config sub) (ha : a.OfKeywords linked) (hb : b.OfKeywords linked)
    (hloose : a.looserThan b = false) (h : ObjectShape.indexWithin sub a.index b.index = .ok true) {e : Entry}
    (hda : a.declares e.key = false) (hdb : b.declares e.key = false) (hspares : env.Spares config a e) :
    env.Spares config b e ∨ env.Intrudes config b a e := by
  have hpolicy : a.undeclared ≠ .reject → b.undeclared ≠ .reject ∧ (a.index = none → b.index = none) := by
    intro hno
    simp only [ObjectShape.looserThan, Bool.and_eq_false_iff, Bool.or_eq_false_iff, bne_eq_false_iff_eq] at hloose
    rcases hloose with heq | ⟨hne, hindex⟩
    · exact absurd heq hno
    · exact ⟨by simpa using hne, fun hi => by simpa [hi] using hindex⟩
  cases hi : a.index with
  | none =>
    have hno := (spares_of_unindexed (indexes_of_index_none hi)).mp hspares
    exact Or.inl ((spares_of_unindexed (indexes_of_index_none ((hpolicy hno).2 hi))).mpr (hpolicy hno).1)
  | some i =>
    cases hj : b.index with
    | none =>
      by_cases hreject : b.undeclared = .reject
      · have hareject : a.undeclared = .reject := by
          by_contra hno
          exact (hpolicy hno).1 hreject
        obtain ⟨x, hx⟩ := indexes_of_spares hspares
        cases x with
        | none => exact absurd hareject ((spares_of_unindexed hx).mp hspares)
        | some s =>
          have hitem := (spares_of_indexed hx).mp hspares
          obtain ⟨i, hi, rfl, htaken⟩ := hx
          exact Or.inr ⟨hreject, hj, hdb, hda, i, hi, htaken, hitem⟩
      · exact Or.inl ((spares_of_unindexed (indexes_of_index_none hj)).mpr hreject)
    | some j =>
      rw [hi, hj] at h
      simp only [ObjectShape.indexWithin] at h
      split_ifs at h with hsame
      · have hkeys : ∀ taken, env.accepts config i.key e.key.toValue = .ok taken ↔
            env.accepts config j.key e.key.toValue = .ok taken :=
          accepts_same_key (ha.index i hi).1 (hb.index j hj).1 hsame
        obtain ⟨x, hx⟩ := indexes_of_spares hspares
        left
        cases x with
        | none =>
          have hxb : env.Indexes config b e.key none := by
            intro j' hj'
            obtain rfl := Option.some.inj (hj.symm.trans hj')
            exact (hkeys false).mp (hx i hi)
          exact (spares_of_unindexed hxb).mpr (hpolicy ((spares_of_unindexed hx).mp hspares)).1
        | some s =>
          have hitem := (spares_of_indexed hx).mp hspares
          obtain ⟨i', hi', rfl, htaken⟩ := hx
          obtain rfl := Option.some.inj (hi.symm.trans hi')
          have hxb : env.Indexes config b e.key (some j.value) := ⟨j, hj, rfl, (hkeys true).mp htaken⟩
          exact (spares_of_indexed hxb).mpr (hsub.accepts (ha.index i hi).2 (hb.index j hj).2 h hitem)
      · simp at h

/-- The test on two objects, key by key. -/
theorem says_of_within (hexact : config.exactOptional = true) (htry : env.TriesLike config linked)
    (hsub : env.SoundOnKeywords config sub) (ha : a.OfKeywords linked) (hb : b.OfKeywords linked)
    (h : ObjectShape.within env.admits sub a b = .ok true) (hsaid : env.Says config a es key) :
    env.Says config b es key ∨ ∃ e ∈ es, env.Intrudes config b a e := by
  obtain ⟨hstrict, hcovered, hextra, hindex⟩ := ObjectShape.within_grounds h
  cases hpb : b.property? key with
  | some q =>
    exact Or.inl (says_of_coversProperty hexact htry hsub ha hb hpb
      (hcovered q (ObjectShape.property?_mem hpb).1) hsaid)
  | none =>
    have hdb : b.declares key = false := ObjectShape.declares_eq_false.mpr hpb
    cases hpa : a.property? key with
    | some p =>
      obtain ⟨hp, rfl⟩ := ObjectShape.property?_mem hpa
      exact Or.inl (says_of_extraWithin hexact htry hsub ha hb hpa hpb
        (hextra p hp hdb) hsaid)
    | none =>
      have hda : a.declares key = false := ObjectShape.declares_eq_false.mpr hpa
      rw [says_of_none hpa] at hsaid
      rw [says_of_none hpb]
      cases hfind : Entry.find? es key with
      | none => exact Or.inl nofun
      | some e =>
        obtain ⟨hmem, rfl⟩ := Entry.mem_of_find? hfind
        rcases spares_or_intrudes hsub ha hb hstrict hindex hda hdb (hsaid e hfind) with hspares | hintrudes
        · refine Or.inl fun f hf => ?_
          obtain rfl := Option.some.inj (hf.symm.trans rfl)
          exact hspares
        · exact Or.inr ⟨e, hmem, hintrudes⟩

end Keys

/-- A subset of an object accepts no more, but for values with an intruder. -/
theorem accepts_object_of_isSubset (hexact : config.exactOptional = true) (htry : env.TriesLike config linked)
    (ha : a.OfKeywords linked) (hb : b.OfKeywords linked) (hsub : env.isSubset (.object a) (.object b) = .ok true)
    (hacc : env.accepts config (.object a) v = .ok true) :
    env.accepts config (.object b) v = .ok true ∨
      ∃ es, v.fields? = some es ∧ ∃ e ∈ es, env.Intrudes config b a e := by
  obtain ⟨es, hf, -⟩ := accepts_object.mp hacc
  have hsaid := (accepts_object_iff ha.keys hf).mp hacc
  have hkeys : ∀ key, env.Says config b es key ∨ ∃ e ∈ es, env.Intrudes config b a e := by
    intro key
    unfold isSubset at hsub
    generalize env.pairFuel (.object a) (.object b) = fuel at hsub
    cases fuel with
    | zero => simp [subsetWithin] at hsub
    | succ fuel =>
      simp only [subsetWithin] at hsub
      by_cases hsame : (Schema.object a).same (.object b) = true
      · exact Or.inl ((Interchangeable.of_same ha hb hsame).said (hsaid key))
      · rw [if_neg (by simpa [Schema.isUnknown, Schema.isNever] using hsame), if_neg (by simp [Schema.isRef])] at hsub
        exact says_of_within hexact htry (subsetWithin_soundOnKeywords env config fuel) ha hb hsub (hsaid key)
  rcases accepts_or_intrudes hb.keys hf hkeys with h | h
  · exact Or.inl h
  · exact Or.inr ⟨es, hf, h⟩

/-- A count is an intruder: the test calls the counts a part of the closed object, which rejects them. -/
theorem accepts_object_of_isSubset_counts :
    bare.isSubset (.object (counts .reject)) (.object closed) = .ok true ∧
      bare.accepts Config.default (.object (counts .reject)) count = .ok true ∧
      bare.accepts Config.default (.object closed) count = .ok false ∧
      ∃ es, count.fields? = some es ∧ ∃ e ∈ es, bare.Intrudes Config.default closed (counts .reject) e := by
  have hsub : bare.isSubset (.object (counts .reject)) (.object closed) = .ok true := rfl
  have hacc : bare.accepts Config.default (.object (counts .reject)) count = .ok true := rfl
  have hno : bare.accepts Config.default (.object closed) count = .ok false := rfl
  refine ⟨hsub, hacc, hno, ?_⟩
  have heither := accepts_object_of_isSubset rfl (fun _ _ h => h.elim) (counts_ofKeywords .reject) closed_ofKeywords
    hsub hacc
  exact heither.resolve_left (by simp [hno])

end Env
end Schemata
