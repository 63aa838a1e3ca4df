import Schemata.Proofs.Algebra.ObjectMeets
import Schemata.Proofs.Algebra.PlainMeets
import Schemata.Proofs.Algebra.Signatures
import Schemata.Proofs.Algebra.Exactness
import Schemata.Proofs.History

/-! The intersection of objects with index signatures. It accepts what both objects accept only, but for values
with an intruder: an entry that the one object takes by its index signature and the other one, without any,
rejects. -/
namespace Schemata
namespace Env

variable {env : Env} {config : Config} {linked : Prop} {a b o : ObjectShape Schema} {es : List Entry} {v : Value}
  {meet : Schema → Schema → Compose Schema} {s t c : Schema}

/-- The schema accepts nothing that one of the other two refuses. -/
def Narrows (env : Env) (config : Config) (s t c : Schema) : Prop :=
  ∀ v, env.accepts config c v = .ok true → env.accepts config s v = .ok true ∧ env.accepts config t v = .ok true

theorem narrows_never : env.Narrows config s t .never := fun _ h => absurd h not_accepts_never

/-- The meet of two keywords admits nothing new. -/
def MeetsKeywords (env : Env) (config : Config) (meet : Schema → Schema → Compose Schema) : Prop :=
  ∀ k l : Keyword, (meet (.keyword k) (.keyword l)).Yields (env.Narrows config (.keyword k) (.keyword l))
    fun _ => True

theorem member_keyword_iff {k : Keyword} :
    Schema.Member env true (.keyword k) v ↔ env.accepts config (.keyword k) v = .ok true := by
  rw [Schema.member_keyword, accepts_keyword]
  simp

theorem meetWithin_meetsKeywords (env : Env) (config : Config) (fuel : Nat) :
    env.MeetsKeywords config (env.meetWithin (fuel + 1) []) := by
  intro k l
  refine (Schema.meetWithin_keywords fuel [] k l).mono ?_ fun _ _ => trivial
  rintro c (⟨rfl, h⟩ | ⟨rfl, h⟩) v hv
  · exact ⟨hv, member_keyword_iff.mp (h v (member_keyword_iff.mpr hv))⟩
  · exact ⟨member_keyword_iff.mp (h v (member_keyword_iff.mpr hv)), hv⟩

theorem MeetsKeywords.yields (hmeet : env.MeetsKeywords config meet) (hs : ∃ k, s = .keyword k) (ht : ∃ k, t = .keyword k) :
    (meet s t).Yields (env.Narrows config s t) fun _ => True := by
  obtain ⟨k, rfl⟩ := hs
  obtain ⟨l, rfl⟩ := ht
  exact hmeet k l

/-- An optional place accepts nothing where its schemas conflict. -/
theorem place_narrows {optional : Bool} (h : (meet s t).Yields (env.Narrows config s t) fun _ => True) :
    (Compose.place meet s t optional).Yields (env.Narrows config s t) fun _ => True := by
  exact h.place (fun _ h => h) (fun _ _ _ _ => narrows_never) fun _ _ _ => trivial

section Slots

variable {p q r : Property Schema}

/-- The property `r` says under the key of `p` at least what both objects say there. -/
structure Slot (env : Env) (config : Config) (a b : ObjectShape Schema) (p r : Property Schema) : Prop where
  key : r.key = p.key
  default : r.presence.default? = none
  sound : ∀ es : List Entry, env.Fulfils config es r → env.Says config a es p.key ∧ env.Says config b es p.key

theorem Slot.symm (h : env.Slot config b a p r) : env.Slot config a b p r :=
  ⟨h.key, h.default, fun es hr => (h.sound es hr).symm⟩

/-- A property that only the first object declares. -/
theorem meetUndeclared_slot (hexact : config.exactOptional = true) (htry : env.TriesLike config linked)
    (hmeet : env.MeetsKeywords config meet) (ha : a.OfKeywords linked) (hb : b.OfKeywords linked)
    (hp : a.property? p.key = some p) (hq : b.property? p.key = none) :
    (ObjectShape.meetUndeclared env.admits meet a b p).Yields (env.Slot config a b p) fun _ => True := by
  have hmem := (ObjectShape.property?_mem hp).1
  have hdefault := ha.defaults p hmem
  have fulfils : ∀ {es : List Entry} {s : Schema}, env.Fulfils config es { p with value := s } ↔
      (∀ e, Entry.find? es p.key = some e → env.accepts config s e.item = .ok true) ∧
        (p.presence.isRequired = true → (Entry.find? es p.key).isSome = true) :=
    fulfils_iff hexact hdefault
  have hkey : ∀ {es : List Entry} {e : Entry}, Entry.find? es p.key = some e → e.key = p.key := fun he =>
    (Entry.mem_of_find? he).2
  unfold ObjectShape.meetUndeclared
  refine indexed_yields config (fun i hi => admits_key_ends htry (hb.index i hi).1) fun x hx => ?_
  cases x with
  | some s =>
    have hs : ∃ k, s = .keyword k := by
      obtain ⟨i, hi, rfl, -⟩ := hx
      exact (hb.index i hi).2
    refine Compose.Yields.bind (place_narrows (hmeet.yields (ha.values p hmem) hs)) fun met hmet => .pure ?_
    have hslot : env.Slot config a b p { p with value := met } := by
      refine ⟨rfl, hdefault, fun es hr => ?_⟩
      rw [fulfils] at hr
      refine ⟨(says_of_property hp).mpr (fulfils.mpr ⟨fun e he => (hmet _ (hr.1 e he)).1, hr.2⟩), ?_⟩
      refine (says_of_none hq).mpr fun e he => (spares_of_indexed (hkey he ▸ hx)).mpr (hmet _ (hr.1 e he)).2
    split_ifs with hsame
    · obtain rfl := Schema.eq_keyword_of_same (ha.values p hmem) (Or.inr hsame)
      exact hslot
    · exact hslot
  | none =>
    dsimp only
    split_ifs with hreject hrequired hsame
    · exact .throw trivial
    · obtain ⟨k, hk⟩ := ha.values p hmem
      simp [hk, Schema.never, Schema.same] at hsame
    · refine .pure ⟨rfl, hdefault, fun es hr => ?_⟩
      rw [fulfils] at hr
      have habsent : ∀ e, Entry.find? es p.key ≠ some e := fun e he => not_accepts_never (hr.1 e he)
      refine ⟨(says_of_property hp).mpr (fulfils.mpr ⟨fun e he => absurd he (habsent e), hr.2⟩), ?_⟩
      exact (says_of_none hq).mpr fun e he => absurd he (habsent e)
    · refine .pure ⟨rfl, hdefault, fun es hr => ⟨(says_of_property hp).mpr hr, ?_⟩⟩
      exact (says_of_none hq).mpr fun e he => (spares_of_unindexed (hkey he ▸ hx)).mpr hreject

/-- A property that both objects declare. -/
theorem meetDeclared_slot (hexact : config.exactOptional = true) (hmeet : env.MeetsKeywords config meet)
    (ha : a.OfKeywords linked) (hb : b.OfKeywords linked) (hp : a.property? p.key = some p)
    (hq : b.property? p.key = some q) :
    (ObjectShape.meetDeclared meet p q).Yields (env.Slot config a b p) fun _ => True := by
  obtain ⟨hqmem, hkey⟩ := ObjectShape.property?_mem hq
  have hpmem := (ObjectShape.property?_mem hp).1
  have hdp := ha.defaults p hpmem
  have hdq := hb.defaults q hqmem
  have both : ∀ es : List Entry, (∀ e, Entry.find? es p.key = some e →
        env.accepts config p.value e.item = .ok true ∧ env.accepts config q.value e.item = .ok true) →
      (p.presence.isRequired = true ∨ q.presence.isRequired = true → (Entry.find? es p.key).isSome = true) →
      env.Says config a es p.key ∧ env.Says config b es p.key := by
    intro es hitems hrequired
    rw [says_of_property hp, says_of_property hq, fulfils_iff hexact hdp, fulfils_iff hexact hdq, hkey]
    exact ⟨⟨fun e he => (hitems e he).1, fun h => hrequired (Or.inl h)⟩,
      fun e he => (hitems e he).2, fun h => hrequired (Or.inr h)⟩
  unfold ObjectShape.meetDeclared
  split_ifs with hsame
  · simp only [Property.same, Bool.and_eq_true, beq_iff_eq] at hsame
    have hvalue := Schema.eq_keyword_of_same (hb.values q hqmem) (Or.inr hsame.1.2)
    have hpresence := Presence.eq_of_same hsame.2 hdp
    refine .pure ⟨rfl, hdp, fun es hr => ?_⟩
    rw [fulfils_iff hexact hdp] at hr
    refine both es (fun e he => ⟨hr.1 e he, hvalue ▸ hr.1 e he⟩) fun h => hr.2 ?_
    rw [← hpresence] at h
    exact h.elim id id
  · obtain ⟨presence, hpresence, hdefault, hrequired, -⟩ := Schema.meet?_presence hdp hdq
    rw [hpresence]
    dsimp only
    refine Compose.Yields.bind (place_narrows (hmeet.yields (ha.values p hpmem) (hb.values q hqmem)))
      fun met hmet => .pure ⟨rfl, hdefault, fun es hr => ?_⟩
    rw [fulfils_iff hexact hdefault] at hr
    refine both es (fun e he => hmet _ (hr.1 e he)) fun h => hr.2 ?_
    dsimp only
    rw [hrequired, Bool.or_eq_true]
    exact h

end Slots

section Signatures

variable {e : Entry}

/-- The index signature of an intersection: the only one, or the same keys with items that both take. -/
def MeetOfSignatures (env : Env) (config : Config) :
    Option (IndexSignature Schema) → Option (IndexSignature Schema) → Option (IndexSignature Schema) → Prop
  | none, j, k => k = j
  | some i, none, k => k = some i
  | some i, some j, k =>
    i.key.same j.key = true ∧ ∃ s, k = some ⟨i.key, s⟩ ∧ env.Narrows config i.value j.value s

theorem meetIndex_yields (hmeet : env.MeetsKeywords config meet) (ha : a.OfKeywords linked) (hb : b.OfKeywords linked) :
    (ObjectShape.meetIndex meet a.index b.index).Yields (env.MeetOfSignatures config a.index b.index) fun _ => True := by
  cases hi : a.index with
  | none => exact .pure rfl
  | some i =>
    cases hj : b.index with
    | none => exact .pure rfl
    | some j =>
      simp only [ObjectShape.meetIndex]
      split_ifs with hsame
      · refine Compose.Yields.bind (hmeet.yields (ha.index i hi).2 (hb.index j hj).2) fun s hs => .pure ?_
        exact ⟨hsame, s, rfl, hs⟩
      · exact .throw trivial

/-- Only the second object has an index signature, if there is one. -/
theorem spares_of_single (hi : a.index = none) (ho : o.index = b.index)
    (hu : o.undeclared = .reject ↔ a.undeclared = .reject ∨ b.undeclared = .reject)
    (hda : a.declares e.key = false) (hdb : b.declares e.key = false) (h : env.Spares config o e) :
    (env.Spares config a e ∨ env.Intrudes config a b e) ∧ env.Spares config b e := by
  have hxa : env.Indexes config a e.key none := indexes_of_index_none hi
  obtain ⟨x, hx⟩ := indexes_of_spares h
  have hxb : env.Indexes config b e.key x := by
    unfold Indexes at hx ⊢
    rwa [← ho]
  cases x with
  | none =>
    have hpolicy := (spares_of_unindexed hx).mp h
    exact ⟨Or.inl ((spares_of_unindexed hxa).mpr fun hr => hpolicy (hu.mpr (Or.inl hr))),
      (spares_of_unindexed hxb).mpr fun hr => hpolicy (hu.mpr (Or.inr hr))⟩
  | some s =>
    have hitem := (spares_of_indexed hx).mp h
    refine ⟨?_, (spares_of_indexed hxb).mpr hitem⟩
    by_cases hreject : a.undeclared = .reject
    · obtain ⟨j, hj, rfl, htaken⟩ := hxb
      exact Or.inr ⟨hreject, hi, hda, hdb, j, hj, htaken, hitem⟩
    · exact Or.inl ((spares_of_unindexed hxa).mpr hreject)

/-- A key that neither object declares. -/
theorem spares_of_meet (ha : a.OfKeywords linked) (hb : b.OfKeywords linked)
    (ho : env.MeetOfSignatures config a.index b.index o.index)
    (hu : o.undeclared = .reject ↔ a.undeclared = .reject ∨ b.undeclared = .reject)
    (hda : a.declares e.key = false) (hdb : b.declares e.key = false) (h : env.Spares config o e) :
    (env.Spares config a e ∨ env.Intrudes config a b e) ∧ (env.Spares config b e ∨ env.Intrudes config b a e) := by
  cases hi : a.index with
  | none =>
    rw [hi] at ho
    obtain ⟨h₁, h₂⟩ := spares_of_single hi ho hu hda hdb h
    exact ⟨h₁, Or.inl h₂⟩
  | some i =>
    cases hj : b.index with
    | none =>
      rw [hi, hj] at ho
      obtain ⟨h₁, h₂⟩ := spares_of_single hj (ho.trans hi.symm) (hu.trans or_comm) hdb hda h
      exact ⟨Or.inl h₂, h₁⟩
    | some j =>
      rw [hi, hj] at ho
      obtain ⟨hsame, s, hk, hs⟩ := ho
      have keys : ∀ taken, env.accepts config i.key e.key.toValue = .ok taken ↔
          env.accepts config j.key e.key.toValue = .ok taken :=
        accepts_same_key (ha.index i hi).1 (hb.index j hj).1 hsame
      have unindexed : ∀ {p : ObjectShape Schema} {l : IndexSignature Schema}, p.index = some l →
          env.accepts config l.key e.key.toValue = .ok false → env.Indexes config p e.key none := by
        intro p l hl hno l' hl'
        obtain rfl := Option.some.inj (hl.symm.trans hl')
        exact hno
      obtain ⟨x, hx⟩ := indexes_of_spares h
      cases x with
      | none =>
        have hpolicy := (spares_of_unindexed hx).mp h
        have hno := hx _ hk
        exact ⟨Or.inl ((spares_of_unindexed (unindexed hi hno)).mpr fun hr => hpolicy (hu.mpr (Or.inl hr))),
          Or.inl ((spares_of_unindexed (unindexed hj ((keys false).mp hno))).mpr fun hr =>
            hpolicy (hu.mpr (Or.inr hr)))⟩
      | some t =>
        have hitem := (spares_of_indexed hx).mp h
        obtain ⟨l, hl, rfl, htaken⟩ := hx
        obtain rfl := Option.some.inj (hk.symm.trans hl)
        have hxa : env.Indexes config a e.key (some i.value) := ⟨i, hi, rfl, htaken⟩
        have hxb : env.Indexes config b e.key (some j.value) := ⟨j, hj, rfl, (keys true).mp htaken⟩
        obtain ⟨hitem₁, hitem₂⟩ := hs _ hitem
        exact ⟨Or.inl ((spares_of_indexed hxa).mpr hitem₁), Or.inl ((spares_of_indexed hxb).mpr hitem₂)⟩

end Signatures

/-- The object accepts nothing that one of the other two refuses, but for values with an intruder. -/
def NarrowsButIntruders (env : Env) (config : Config) (a b : ObjectShape Schema) (c : Schema) : Prop :=
  ∀ v, env.accepts config c v = .ok true → ∃ es, v.fields? = some es ∧
    (env.accepts config (.object a) v = .ok true ∨ ∃ e ∈ es, env.Intrudes config a b e) ∧
      (env.accepts config (.object b) v = .ok true ∨ ∃ e ∈ es, env.Intrudes config b a e)

/-- The intersection of two objects, key by key. -/
theorem narrows_of_slots (ha : a.OfKeywords linked) (hb : b.OfKeywords linked)
    (ho : env.MeetOfSignatures config a.index b.index o.index)
    (hu : o.undeclared = a.undeclared.stricter b.undeclared)
    (hslots : List.Forall₂ (env.Slot config a b) (a.properties ++ b.properties.filter fun q => !a.declares q.key)
      o.properties) : env.NarrowsButIntruders config a b (.object o) := by
  intro v hacc
  obtain ⟨es, hf, -⟩ := accepts_object.mp hacc
  have hkey : ∀ p r, env.Slot config a b p r → r.key = p.key := fun _ _ h => h.key
  have hpolicy : o.undeclared = .reject ↔ a.undeclared = .reject ∨ b.undeclared = .reject := by
    rw [hu]
    exact Schema.stricter_reject
  have hsaid := (accepts_object_iff (Schema.keys_of_slots hkey hslots ha.keys hb.keys) hf).mp hacc
  have both : ∀ key, (env.Says config a es key ∨ ∃ e ∈ es, env.Intrudes config a b e) ∧
      (env.Says config b es key ∨ ∃ e ∈ es, env.Intrudes config b a e) := by
    intro key
    cases hprop : o.property? key with
    | some r =>
      obtain ⟨p, rfl, hslot⟩ := Schema.slot_of_property hkey hslots hprop
      obtain ⟨h₁, h₂⟩ := hslot.sound es ((says_of_property hprop).mp (hsaid p.key))
      exact ⟨Or.inl h₁, Or.inl h₂⟩
    | none =>
      obtain ⟨hna, hnb⟩ := Schema.undeclared_of_slots hkey hslots hprop
      rw [says_of_none hna, says_of_none hnb]
      cases hfind : Entry.find? es key with
      | none => exact ⟨Or.inl nofun, Or.inl nofun⟩
      | some e =>
        obtain ⟨hmem, rfl⟩ := Entry.mem_of_find? hfind
        obtain ⟨h₁, h₂⟩ := spares_of_meet ha hb ho hpolicy (ObjectShape.declares_eq_false.mpr hna)
          (ObjectShape.declares_eq_false.mpr hnb) ((says_of_none hprop).mp (hsaid e.key) e hfind)
        have only : ∀ {p : ObjectShape Schema}, env.Spares config p e →
            ∀ f, some e = some f → env.Spares config p f := by
          rintro p hp f ⟨⟩
          exact hp
        exact ⟨h₁.imp only fun h => ⟨e, hmem, h⟩, h₂.imp only fun h => ⟨e, hmem, h⟩⟩
  exact ⟨es, hf, accepts_or_intrudes ha.keys hf fun key => (both key).1,
    accepts_or_intrudes hb.keys hf fun key => (both key).2⟩

theorem meetShapes_narrows (hexact : config.exactOptional = true) (htry : env.TriesLike config linked)
    (hmeet : env.MeetsKeywords config meet) (ha : a.OfKeywords linked) (hb : b.OfKeywords linked) :
    (ObjectShape.meetShapes env.admits meet a b).Yields (fun o => env.NarrowsButIntruders config a b (.object o))
      fun _ => True := by
  refine (ObjectShape.meetShapes_yields (R := env.Slot config a b) (meetIndex_yields hmeet ha hb)
    (fun p hp hq => ?_) (fun p hp q _ hq => ?_) fun q hq hqa => ?_).mono
      (fun o ho => narrows_of_slots ha hb ho.1 ho.2.1 ho.2.2) fun _ h => h
  · exact meetUndeclared_slot hexact htry hmeet ha hb ((Schema.property?_eq_some ha.keys).mpr ⟨hp, rfl⟩) hq
  · exact meetDeclared_slot hexact hmeet ha hb ((Schema.property?_eq_some ha.keys).mpr ⟨hp, rfl⟩) hq
  · exact (meetUndeclared_slot hexact htry hmeet hb ha ((Schema.property?_eq_some hb.keys).mpr ⟨hq, rfl⟩) hqa).mono
      (fun _ h => h.symm) fun _ h => h

theorem narrows_of_same (ha : a.OfKeywords linked) (hb : b.OfKeywords linked)
    (h : (Schema.object a).same (.object b) = true) : env.NarrowsButIntruders config a b (.object a) := by
  intro v hacc
  obtain ⟨es, hf, -⟩ := accepts_object.mp hacc
  exact ⟨es, hf, Or.inl hacc, Or.inl ((Interchangeable.of_same ha hb h).accepts ha.keys hacc)⟩

/-- The intersection of two objects is made of their shapes, unless they are equal. -/
theorem intersect_objects {R : Schema → Prop} (hsame : (Schema.object a).same (.object b) = true → R (.object a))
    (hshapes : ∀ fuel, (ObjectShape.meetShapes env.admits (env.meetWithin (fuel + 1) []) a b).Yields
      (fun o => R (.object o)) fun _ => True) :
    Ends (env.intersect (.object a) (.object b)).1 R fun _ => True := by
  have hfuel := size_le_pairFuel env (.object a) (.object b)
  have hpos := Schema.size_pos (.object a)
  have hpos' := Schema.size_pos (.object b)
  obtain ⟨fuel, hfuel⟩ : ∃ fuel, env.pairFuel (.object a) (.object b) = fuel + 1 + 1 :=
    ⟨env.pairFuel (.object a) (.object b) - 2, by omega⟩
  unfold intersect
  rw [hfuel]
  suffices h : (env.meetWithin (fuel + 1 + 1) [] (.object a) (.object b)).Yields R fun _ => True from h false
  unfold meetWithin
  dsimp only
  by_cases h : (Schema.object a).same (.object b) = true
  · rw [if_pos h]
    exact .pure (hsame h)
  · rw [if_neg h, if_neg (by simp [Schema.isUnknown]), if_neg (by simp [Schema.isUnknown]),
      if_neg (by simp [Schema.isNever]), if_neg (by simp [Schema.isRef])]
    have domains : ∀ o, env.domains? (.object o) = .ok (some (.of [.object])) := fun _ => rfl
    unfold meetPlain
    rw [domains, domains]
    refine Compose.Yields.bind (P := fun x => x = some (DomainSet.of [Domain.object])) (.lift rfl) ?_
    rintro _ rfl
    refine Compose.Yields.bind (P := fun x => x = some (DomainSet.of [Domain.object])) (.lift rfl) ?_
    rintro _ rfl
    dsimp only
    rw [if_neg (by decide)]
    refine Compose.Yields.bind (hshapes fuel) fun o ho => .lift ?_
    refine (makeObject_ends o).mono ?_ fun _ h => h
    rintro _ rfl
    exact ho

/-- The intersection of two objects of keywords. -/
theorem intersect_narrows (hexact : config.exactOptional = true) (htry : env.TriesLike config linked)
    (ha : a.OfKeywords linked) (hb : b.OfKeywords linked) :
    Ends (env.intersect (.object a) (.object b)).1 (env.NarrowsButIntruders config a b) fun _ => True :=
  intersect_objects (narrows_of_same ha hb) fun fuel =>
    meetShapes_narrows hexact htry (meetWithin_meetsKeywords env config fuel) ha hb

/-- Interchangeable objects narrow alike. -/
theorem NarrowsButIntruders.of_interchangeable {a' b' : ObjectShape Schema} (h : env.NarrowsButIntruders config a b c)
    (hak : a.keys.Nodup) (hbk : b.keys.Nodup) (ha : env.Interchangeable config a a')
    (hb : env.Interchangeable config b b') : env.NarrowsButIntruders config a' b' c := by
  intro v hacc
  obtain ⟨es, hf, h₁, h₂⟩ := h v hacc
  exact ⟨es, hf, h₁.imp (ha.accepts hak) fun ⟨e, he, h⟩ => ⟨e, he, ha.intrudes hb h⟩,
    h₂.imp (hb.accepts hbk) fun ⟨e, he, h⟩ => ⟨e, he, hb.intrudes ha h⟩⟩

end Env

namespace Engine

variable {s : Session} {calls : List Call} {scope : Option Nat} {config : Config} {linked : Prop}
  {a b : ObjectShape Schema} {c : Schema} {v : Value}

/-- Whatever was worked out before in the session, an intersection of objects accepts nothing that one of them
refuses, but for values with an intruder. -/
theorem intersection_narrows (hmemo : s.memo.entries = [])
    (hcalls : ∀ c ∈ calls, c.Fits s (s.env scope) fun t => t.Every (Schema.KeyNode True))
    (hexact : config.exactOptional = true) (htry : (s.env scope).TriesLike config linked)
    (ha : a.OfKeywords linked) (hb : b.OfKeywords linked)
    (hrun : ((intersection scope (.object a) (.object b)).run (s.after calls)).1 = .ok c)
    (hacc : (s.env scope).accepts config c v = .ok true) :
    ∃ es, v.fields? = some es ∧
      ((s.env scope).accepts config (.object a) v = .ok true ∨ ∃ e ∈ es, (s.env scope).Intrudes config a b e) ∧
      ((s.env scope).accepts config (.object b) v = .ok true ∨ ∃ e ∈ es, (s.env scope).Intrudes config b a e) := by
  obtain ⟨hagrees, hrecalls⟩ := (Session.recalls_of_empty hmemo).after hcalls
  have narrows : ∀ {a b : ObjectShape Schema}, a.OfKeywords linked → b.OfKeywords linked →
      ((s.env scope).intersect (.object a) (.object b)).1 = .ok c → (s.env scope).NarrowsButIntruders config a b c := by
    intro a b ha hb hc
    have h := Env.intersect_narrows hexact htry ha hb
    rwa [hc] at h
  -- An answer from the memo was worked out for objects that equal the given ones through those of its key.
  have interchange : ∀ {a : ObjectShape Schema} {t t' : Schema}, a.OfKeywords linked → t.Every (Schema.KeyNode True) →
      t'.Every (Schema.KeyNode True) → t.same (.object a) = true → t.same t' = true →
      ∃ a', t' = .object a' ∧ a'.OfKeywords linked ∧ (s.env scope).Interchangeable config a' a := by
    intro a t t' ha ht ht' hta htt'
    obtain ⟨m, rfl, hm⟩ := Schema.ofKeywords_of_same ha ht (Or.inr hta)
    obtain ⟨a', rfl, ha'⟩ := Schema.ofKeywords_of_same hm ht' (Or.inl htt')
    exact ⟨a', rfl, ha', (Env.Interchangeable.of_same hm ha' htt').symm.trans (.of_same hm ha hta)⟩
  rcases hrecalls.outcome (hagrees scope) with hfresh | ⟨p, q, p', q', ⟨hp, hq⟩, ⟨hp', hq'⟩, ⟨hpa, hqb⟩, ⟨hpp, hqq⟩, hkept⟩
  · exact narrows ha hb (hfresh.symm.trans hrun) v hacc
  · obtain ⟨a', rfl, ha', haa⟩ := interchange ha hp hp' hpa hpp
    obtain ⟨b', rfl, hb', hbb⟩ := interchange hb hq hq' hqb hqq
    exact (narrows ha' hb' (hkept.symm.trans hrun)).of_interchangeable ha'.keys hb'.keys haa hbb v hacc

/-- The intersection of the closed object with counts takes a count, which the closed object rejects. It is asked
for a second time here, and comes from the memo. -/
theorem intersection_narrows_counts :
    let env := freshSession.env none
    let calls := [Call.intersection none (.object Env.closed) (.object (Env.counts .ignore))]
    ((intersection none (.object Env.closed) (.object (Env.counts .ignore))).run (freshSession.after calls)).1 =
        .ok (.object (Env.counts .reject)) ∧
      env.accepts Config.default (.object (Env.counts .reject)) Env.count = .ok true ∧
      env.accepts Config.default (.object Env.closed) Env.count = .ok false ∧
      ∃ es, Env.count.fields? = some es ∧ ∃ e ∈ es, env.Intrudes Config.default Env.closed (Env.counts .ignore) e := by
  intro env calls
  have hrun : ((intersection none (.object Env.closed) (.object (Env.counts .ignore))).run
      (freshSession.after calls)).1 = .ok (.object (Env.counts .reject)) := rfl
  have hacc : env.accepts Config.default (.object (Env.counts .reject)) Env.count = .ok true := rfl
  have hno : env.accepts Config.default (.object Env.closed) Env.count = .ok false := rfl
  refine ⟨hrun, hacc, hno, ?_⟩
  have hcalls : ∀ c ∈ calls, c.Fits freshSession (freshSession.env none) fun t => t.Every (Schema.KeyNode True) := by
    intro c hc
    obtain rfl := List.mem_singleton.mp hc
    have leaf : ∀ k : Keyword, (Schema.keyword k).Every (Schema.KeyNode True) := fun k => .intro trivial nofun
    exact ⟨rfl, .intro trivial nofun, .intro trivial (by
      simpa [Schema.parts, Env.counts, IndexSignature.parts] using ⟨leaf .string, leaf .number⟩)⟩
  obtain ⟨es, hf, hclosed, -⟩ := intersection_narrows rfl hcalls rfl (fun _ _ h => h.elim) Env.closed_ofKeywords
    (Env.counts_ofKeywords .ignore) hrun hacc
  exact ⟨es, hf, hclosed.resolve_left fun h => by simpa using h.symm.trans hno⟩

end Engine
end Schemata
