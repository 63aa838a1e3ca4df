import Schemata.Proofs.Algebra.Stops
import Schemata.Proofs.Algebra.Signatures
import Schemata.Proofs.Algebra.TupleMeets
import Schemata.Proofs.Constraint.Passing
import Schemata.Proofs.Validation.Outputs
import Schemata.Proofs.Validation.Spelling

/-! Values that an intersection overlooks when it is called empty. A conflict of the schemas of one place empties
the whole, also where the value has nothing in that place; bounds on lengths are taken for bounds on the value,
though they look at outputs; and a literal is tried as it is written. Nothing else is overlooked. -/
namespace Schemata

/-- A place that two schemas share: what each of them asks there, whether it may be left out on both sides, and
which parts of a value stand there. -/
structure Place where
  left : Schema
  right : Schema
  optional : Bool
  holds : Value → Value → Prop

namespace Value

/-- `x` is the item under the key of a mapping. -/
def At (key : Key) (v x : Value) : Prop := ∃ es, v.fields? = some es ∧ ∃ e ∈ es, e.key = key ∧ e.item = x

/-- `x` is an item of a sequence that stands in a place of a tuple. -/
def InPlace {S : Type} (es : List (Element S)) (s : S) (v x : Value) : Prop :=
  ∃ q items, v.items? = some (q, items) ∧ (s, x) ∈ Element.places es items

end Value

namespace Env

section

variable (env : Env) (config : Config)

/-- `x` is the item of an entry that no object declares and the key schema takes. -/
def Unnamed (key : Schema) (a b : ObjectShape Schema) (v x : Value) : Prop :=
  ∃ es, v.fields? = some es ∧ ∃ e ∈ es, (a.declares e.key = false ∧ b.declares e.key = false) ∧
    env.accepts config key e.key.toValue = .ok true ∧ e.item = x

/-- Places that the intersection of two structures looks at. -/
inductive Shares : Schema → Schema → Place → Prop
  | property {a b : ObjectShape Schema} {p q : Property Schema} : p ∈ a.properties → q ∈ b.properties → q.key = p.key →
      Shares (.object a) (.object b)
        ⟨p.value, q.value, p.presence.isOptional && q.presence.isOptional, Value.At p.key⟩
  | indexed {a b : ObjectShape Schema} {p : Property Schema} {i : IndexSignature Schema} : p ∈ a.properties →
      b.declares p.key = false → b.index = some i → env.accepts config i.key p.key.toValue = .ok true →
      Shares (.object a) (.object b) ⟨p.value, i.value, p.presence.isOptional, Value.At p.key⟩
  | index {a b : ObjectShape Schema} {i j : IndexSignature Schema} : a.index = some i → b.index = some j →
      i.key.same j.key = true → Shares (.object a) (.object b) ⟨i.value, j.value, false, env.Unnamed config i.key a b⟩
  | array {es : List (Element Schema)} {e f : Element Schema} : e ∈ es → f.role.isVariadic = true →
      Shares (.tuple es) (.tuple [f]) ⟨e.value, f.value, e.role.isOptional, Value.InPlace es e.value⟩
  | pair {es fs : List (Element Schema)} {g : Element (Schema × Schema)} :
      es.map (·.role.rank) = fs.map (·.role.rank) → g ∈ Schema.paired es fs →
      Shares (.tuple es) (.tuple fs)
        ⟨g.value.1, g.value.2, g.role.isOptional, Value.InPlace (Schema.paired es fs) g.value⟩

/-- An intersection of the two schemas is called empty, in the one order or the other. -/
def Conflict (a b : Schema) : Prop :=
  ∃ fuel expanding met e, e.isUnsatisfiable = true ∧
    (((env.meetWithin fuel expanding a b).run met).1 = .error e ∨
      ((env.meetWithin fuel expanding b a).run met).1 = .error e)

/-- What an intersection that is called empty passes over. -/
inductive Overlooked : Schema → Schema → Value → Prop
  /-- Nothing stands in a place whose schemas conflict. -/
  | vacant {a b : Schema} {v : Value} {p : Place} : env.Shares config a b p → p.optional = false →
      env.Conflict p.left p.right → (∀ x, ¬ p.holds v x) → Overlooked a b v
  /-- A part is overlooked. -/
  | inside {a b : Schema} {v x : Value} {p : Place} : env.Shares config a b p → p.holds v x →
      Overlooked p.left p.right x → Overlooked a b v
  /-- All branches that accept the value overlook it. -/
  | branches {bs : List Schema} {b : Schema} {v : Value} :
      (∀ s ∈ bs, env.accepts config s v = .ok true → Overlooked s b v) → Overlooked (.union bs) b v
  /-- The value is overlooked without the constraints. -/
  | base {a b : Schema} {v : Value} : Overlooked a.split.1 b.split.1 v → Overlooked a b v
  /-- Both sides bound lengths, and what they put out has different ones. -/
  | lengths {a b : Schema} {v : Value} {l m : Length} {o p : Outcome} : .length l ∈ a.split.2 → .length m ∈ b.split.2 →
      env.run config a.split.1 v = .ok o → env.run config b.split.1 v = .ok p →
      o.output.length? ≠ p.output.length? → Overlooked a b v
  /-- The value is another one than the literal, which is refused. It is a container, or one of two equal numbers
  of different classes. -/
  | literal {w v : Value} {b : Schema} : v ≠ w → (w.isScalar = true → ¬ b.Every Schema.Blind) →
      env.accepts config b w = .ok false → Overlooked (.literal w) b v
  | symm {a b : Schema} {v : Value} : Overlooked b a v → Overlooked a b v

/-- The error says nothing wrong of two schemas, but for what is overlooked. -/
def Overlooks (a b : Schema) (e : Fault) : Prop := e.isUnsatisfiable = true → ∀ v : Value, v.NaNFree →
  env.accepts config a v = .ok true → env.accepts config b v = .ok true → env.Overlooked config a b v

/-- The error says of two schemas, rightly but for what is overlooked, that they conflict. -/
def Accuses (a b : Schema) (e : Fault) : Prop :=
  (e.isUnsatisfiable = true → env.Conflict a b) ∧ env.Overlooks config a b e

end

variable {env : Env} {config : Config} {a b s t : Schema} {e : Fault} {v x : Value}

theorem Conflict.symm (h : env.Conflict b a) : env.Conflict a b := by
  obtain ⟨fuel, expanding, met, e, he, hrun⟩ := h
  exact ⟨fuel, expanding, met, e, he, hrun.symm⟩

theorem Overlooks.symm (h : env.Overlooks config b a e) : env.Overlooks config a b e :=
  fun he v hn ha hb => .symm (h he v hn hb ha)

theorem Accuses.symm (h : env.Accuses config b a e) : env.Accuses config a b e :=
  ⟨fun he => (h.1 he).symm, h.2.symm⟩

theorem overlooks_of_quiet (h : e.isUnsatisfiable = false) : env.Overlooks config a b e := by
  intro he
  simp [h] at he

section Shares

variable {p : Place} {o : ObjectShape Schema} {es : List Entry} {entry : Entry}

/-- The item under the key of a property is accepted. -/
theorem accepts_of_fulfils (hexact : config.exactOptional = true) (hf : v.fields? = some es) {p : Property Schema}
    (h : env.Fulfils config es p) (hentry : entry ∈ es) (hkey : entry.key = p.key) :
    env.accepts config p.value entry.item = .ok true := by
  have hgiven : Check.given? config es ⟨p.key, env.check config p.value, p.presence⟩ = some entry := by
    have hfind := (Entry.find?_eq_some (Value.nodup_of_fields hf)).mpr ⟨hentry, hkey⟩
    rw [← Entry.given?_exact es p.key p.presence, ← hexact] at hfind
    exact hfind
  unfold Fulfils Check.Given at h
  rw [hgiven] at h
  exact accepts_iff.mpr h

/-- A required property is given. -/
theorem exists_of_fulfils {p : Property Schema} (hf : v.fields? = some es) (h : env.Fulfils config es p)
    (hrequired : p.presence.isRequired = true) : ∃ entry ∈ es, entry.key = p.key := by
  obtain ⟨key, s, presence⟩ := p
  cases presence <;> simp [Presence.isRequired] at hrequired
  unfold Fulfils Check.Given at h
  cases hgiven : Check.given? config es ⟨key, env.check config s, .required⟩ with
  | none =>
    rw [hgiven] at h
    exact h.elim
  | some entry =>
    have hfind : Entry.find? es key = some entry := (Option.filter_eq_some_iff.mp hgiven).1
    exact ⟨entry, (Entry.find?_eq_some (Value.nodup_of_fields hf)).mp hfind⟩

/-- The item under a key that the index signature takes is accepted. -/
theorem accepts_of_spares {i : IndexSignature Schema} (h : env.Spares config o entry) (hi : o.index = some i)
    (htaken : env.accepts config i.key entry.key.toValue = .ok true) :
    env.accepts config i.value entry.item = .ok true := by
  unfold Spares at h
  rw [hi] at h
  obtain ⟨taken, hrun, h⟩ := h
  obtain rfl := Except.ok.inj (hrun.symm.trans htaken)
  exact h

/-- What stands in a place of an accepted value is accepted by both schemas of the place. -/
theorem Shares.accepts (hexact : config.exactOptional = true) (ha : a.Every Schema.WrittenOut)
    (hb : b.Every Schema.WrittenOut) (h : env.Shares config a b p) (hva : env.accepts config a v = .ok true)
    (hvb : env.accepts config b v = .ok true) (hx : p.holds v x) :
    x ∈ v.unfold.children ∧ env.accepts config p.left x = .ok true ∧ env.accepts config p.right x = .ok true := by
  have refl : ∀ items : List Value, List.Forall₂ (fun x y => x = y) items items := fun items =>
    List.forall₂_same.mpr fun _ _ => rfl
  cases h with
  | property hp hq hkey =>
    obtain ⟨es, hf, entry, hentry, hat, rfl⟩ := hx
    obtain ⟨es', hf', hpa, -⟩ := accepts_object.mp hva
    obtain rfl := Option.some.inj (hf.symm.trans hf')
    obtain ⟨es', hf', hpb, -⟩ := accepts_object.mp hvb
    obtain rfl := Option.some.inj (hf.symm.trans hf')
    exact ⟨Value.item_mem_children hf hentry, accepts_of_fulfils hexact hf (hpa _ hp) hentry hat,
      accepts_of_fulfils hexact hf (hpb _ hq) hentry (hat.trans hkey.symm)⟩
  | indexed hp hno hi htaken =>
    obtain ⟨es, hf, entry, hentry, hat, rfl⟩ := hx
    obtain ⟨es', hf', hpa, -⟩ := accepts_object.mp hva
    obtain rfl := Option.some.inj (hf.symm.trans hf')
    obtain ⟨es', hf', -, hspares⟩ := accepts_object.mp hvb
    obtain rfl := Option.some.inj (hf.symm.trans hf')
    exact ⟨Value.item_mem_children hf hentry, accepts_of_fulfils hexact hf (hpa _ hp) hentry hat,
      accepts_of_spares (hspares entry hentry (hat ▸ hno)) hi (hat ▸ htaken)⟩
  | @index o r i j hi hj hsame =>
    obtain ⟨es, hf, entry, hentry, ⟨hna, hnb⟩, htaken, rfl⟩ := hx
    obtain ⟨es', hf', -, hsparesa⟩ := accepts_object.mp hva
    obtain rfl := Option.some.inj (hf.symm.trans hf')
    obtain ⟨es', hf', -, hsparesb⟩ := accepts_object.mp hvb
    obtain rfl := Option.some.inj (hf.symm.trans hf')
    have keys : ∀ {o : ObjectShape Schema} {i : IndexSignature Schema}, (Schema.object o).Every Schema.WrittenOut →
        o.index = some i → i.key.Every (Schema.KeyNode False) := by
      intro o i ho hi
      refine (ho.part ?_).mono fun _ h => h.keyNode
      exact List.mem_append_right _ (by simp [IndexSignature.parts, hi])
    exact ⟨Value.item_mem_children hf hentry, accepts_of_spares (hsparesa entry hentry hna) hi htaken,
      accepts_of_spares (hsparesb entry hentry hnb) hj
        ((accepts_same_key (keys ha hi) (keys hb hj) hsame true).mp htaken)⟩
  | array he hf =>
    obtain ⟨q, items, hi, hplace⟩ := hx
    obtain ⟨q', items', hi', -, halla⟩ := places_of_accepts hva
    obtain ⟨rfl, rfl⟩ := Prod.mk.inj (Option.some.inj (hi.symm.trans hi'))
    obtain ⟨q', items', hi', -, hallb⟩ := places_of_accepts hvb
    obtain ⟨rfl, rfl⟩ := Prod.mk.inj (Option.some.inj (hi.symm.trans hi'))
    have hmem := (Element.mem_places hplace).2
    rw [Element.places_array hf, List.forall_mem_map] at hallb
    exact ⟨Value.children_of_items hi ▸ hmem, halla _ hplace, hallb x hmem⟩
  | @pair es fs g hranks hg =>
    obtain ⟨q, items, hi, hplace⟩ := hx
    obtain ⟨q', items', hi', -, halla⟩ := places_of_accepts hva
    obtain ⟨rfl, rfl⟩ := Prod.mk.inj (Option.some.inj (hi.symm.trans hi'))
    obtain ⟨q', items', hi', -, hallb⟩ := places_of_accepts hvb
    obtain ⟨rfl, rfl⟩ := Prod.mk.inj (Option.some.inj (hi.symm.trans hi'))
    have hleft : List.Forall₂ (Element.Like fun p s => p.1 = s) (Schema.paired es fs) es :=
      (Schema.paired_left hranks).imp fun p e h => ⟨by rw [h.1], h.2⟩
    obtain ⟨s, hs, hs₁, hs₂⟩ := forall₂_exists_left (Element.places_like hleft (refl items)) hplace
    obtain ⟨t, ht, ht₁, ht₂⟩ :=
      forall₂_exists_left (Element.places_like (Schema.paired_right hranks) (refl items)) hplace
    refine ⟨Value.children_of_items hi ▸ (Element.mem_places hplace).2, ?_, ?_⟩
    · have := halla s hs
      rwa [← hs₁, ← hs₂] at this
    · have := hallb t ht
      rwa [← ht₁, ← ht₂] at this

/-- A conflict in a place that may not be left out overlooks a value there, or for want of a part there. -/
theorem Shares.overlooks (hexact : config.exactOptional = true) (ha : a.Every Schema.WrittenOut)
    (hb : b.Every Schema.WrittenOut) (h : env.Shares config a b p) (hopt : p.optional = false)
    (he : env.Accuses config p.left p.right e) : env.Overlooks config a b e := by
  intro hunsat v hn hva hvb
  by_cases hsome : ∃ x, p.holds v x
  · obtain ⟨x, hx⟩ := hsome
    obtain ⟨hchild, hleft, hright⟩ := h.accepts hexact ha hb hva hvb hx
    exact .inside h hx (he.2 hunsat x (hn.child hchild) hleft hright)
  · exact .vacant h hopt (he.1 hunsat) fun x hx => hsome ⟨x, hx⟩

end Shares

section Meets

variable {meet : Schema → Schema → Compose Schema} {p q : Property Schema} {o r : ObjectShape Schema}
  {es fs : List (Element Schema)}

/-- The computation fails for no other reason than a conflict of the two schemas. -/
def Candid (env : Env) (config : Config) (a b : Schema) (x : Compose Schema) : Prop :=
  x.Yields (fun _ => True) (env.Accuses config a b)

theorem Candid.symm {x : Compose Schema} (h : env.Candid config b a x) : env.Candid config a b x :=
  h.mono (fun _ h => h) fun _ h => h.symm

/-- In a place that may be left out nothing is called empty. -/
theorem place_candid (optional : Bool) (h : env.Candid config s t (meet s t)) :
    (Compose.place meet s t optional).Yields (fun _ => True)
      fun e => e.isUnsatisfiable = true → optional = false ∧ env.Accuses config s t e := by
  refine Compose.Yields.place h (fun _ h => h) (fun _ _ _ _ => trivial) fun e he hno hunsat => ⟨?_, he⟩
  exact hno.resolve_right (by simp [hunsat])

/-- A place of two structures is met by meeting its schemas. -/
theorem Shares.candid (hexact : config.exactOptional = true) (ha : a.Every Schema.WrittenOut)
    (hb : b.Every Schema.WrittenOut) {optional optional' : Bool} {holds : Value → Value → Prop}
    (h : env.Shares config a b ⟨s, t, optional, holds⟩) (hmeet : env.Candid config s t (meet s t))
    (hopt : optional' = false → optional = false) :
    (Compose.place meet s t optional').Yields (fun _ => True) (env.Overlooks config a b) := by
  refine (place_candid optional' hmeet).mono (fun _ h => h) fun e he hunsat => ?_
  obtain ⟨hno, haccuses⟩ := he hunsat
  exact h.overlooks hexact ha hb (hopt hno) haccuses hunsat

variable (hexact : config.exactOptional = true)
include hexact

theorem meetIndex_overlooks (ha : (Schema.object o).Every Schema.WrittenOut)
    (hb : (Schema.object r).Every Schema.WrittenOut)
    (hmeet : ∀ i j, o.index = some i → r.index = some j → env.Candid config i.value j.value (meet i.value j.value)) :
    (ObjectShape.meetIndex meet o.index r.index).Yields (fun _ => True)
      (env.Overlooks config (.object o) (.object r)) := by
  cases hi : o.index with
  | none => exact .pure trivial
  | some i =>
    cases hj : r.index with
    | none => exact .pure trivial
    | some j =>
      unfold ObjectShape.meetIndex
      dsimp only
      split_ifs with hsame
      · refine Compose.Yields.bind ((hmeet i j hi hj).mono (fun _ h => h) fun e he => ?_) fun _ _ => .pure trivial
        exact (Shares.index hi hj hsame).overlooks hexact ha hb rfl he
      · exact .throw (overlooks_of_quiet rfl)

/-- A property that only the first object declares. -/
theorem meetUndeclared_overlooks (htrial : env.trial = .ok config) (ha : (Schema.object o).Every Schema.WrittenOut)
    (hb : (Schema.object r).Every Schema.WrittenOut) (hp : p ∈ o.properties) (hno : r.declares p.key = false)
    (hmeet : ∀ i, r.index = some i → env.Candid config p.value i.value (meet p.value i.value)) :
    (ObjectShape.meetUndeclared env.admits meet o r p).Yields (fun _ => True)
      (env.Overlooks config (.object o) (.object r)) := by
  have hadmits : ∀ s v, env.admits s v = env.accepts config s v := by
    intro s v
    rw [admits, htrial]
    rfl
  unfold ObjectShape.meetUndeclared
  refine indexed_yields config (fun i hi => ?_) fun x hx => ?_
  · rw [hadmits]
    cases hrun : env.accepts config i.key p.key.toValue with
    | error e => exact overlooks_of_quiet ((env.accepts_quiet config _ _).isUnsatisfiable hrun)
    | ok taken => exact rfl
  · cases x with
    | some s =>
      obtain ⟨i, hi, rfl, htaken⟩ := hx
      refine Compose.Yields.bind (P := fun _ => True) ?_ fun _ _ => .pure trivial
      exact (Shares.indexed hp hno hi htaken).candid hexact ha hb (hmeet i hi) id
    | none =>
      dsimp only
      split_ifs with hreject hrequired
      · refine .throw fun _ v hn hva hvb => ?_
        -- The key is required on the one side and rejected on the other.
        obtain ⟨es, hf, hprops, -⟩ := accepts_object.mp hva
        obtain ⟨es', hf', -, hspares⟩ := accepts_object.mp hvb
        obtain rfl := Option.some.inj (hf.symm.trans hf')
        obtain ⟨entry, hentry, hkey⟩ := exists_of_fulfils hf (hprops p hp) hrequired
        have hunindexed : env.Indexes config r entry.key none := hkey ▸ hx
        exact absurd hreject ((spares_of_unindexed hunindexed).mp (hspares entry hentry (hkey ▸ hno)))
      · exact .pure trivial
      · exact .pure trivial
      · exact .pure trivial

/-- A property that both objects declare. -/
theorem meetDeclared_overlooks (ha : (Schema.object o).Every Schema.WrittenOut)
    (hb : (Schema.object r).Every Schema.WrittenOut) (hp : p ∈ o.properties) (hq : q ∈ r.properties) (hkey : q.key = p.key)
    (hmeet : env.Candid config p.value q.value (meet p.value q.value)) :
    (ObjectShape.meetDeclared meet p q).Yields (fun _ => True) (env.Overlooks config (.object o) (.object r)) := by
  unfold ObjectShape.meetDeclared
  split_ifs
  · exact .pure trivial
  · cases hpresence : p.presence.meet? q.presence with
    | none => exact .throw (overlooks_of_quiet rfl)
    | some presence =>
      refine Compose.Yields.bind (P := fun _ => True) ?_ fun _ _ => .pure trivial
      refine (Shares.property hp hq hkey).candid hexact ha hb hmeet fun hno => ?_
      -- What both sides may leave out may be left out of the result.
      revert hpresence
      generalize p.presence = x
      generalize q.presence = y
      intro hmet
      cases x <;> cases y <;> first | rfl | skip
      obtain rfl := Option.some.inj hmet
      exact hno

theorem meetShapes_overlooks (htrial : env.trial = .ok config) (ha : (Schema.object o).Every Schema.WrittenOut)
    (hb : (Schema.object r).Every Schema.WrittenOut)
    (hmeet : ∀ s ∈ (Schema.object o).parts, ∀ t ∈ (Schema.object r).parts,
      env.Candid config s t (meet s t) ∧ env.Candid config t s (meet t s)) :
    (ObjectShape.meetShapes env.admits meet o r).Yields (fun _ => True)
      (env.Overlooks config (.object o) (.object r)) := by
  have property : ∀ {o : ObjectShape Schema} {p : Property Schema}, p ∈ o.properties →
      p.value ∈ (Schema.object o).parts := fun hp => List.mem_append_left _ (List.mem_map_of_mem hp)
  have index : ∀ {o : ObjectShape Schema} {i : IndexSignature Schema}, o.index = some i →
      i.value ∈ (Schema.object o).parts := fun hi =>
    List.mem_append_right _ (by simp [IndexSignature.parts, hi])
  refine (ObjectShape.meetShapes_yields (R := fun _ _ => True)
    (meetIndex_overlooks hexact ha hb fun i j hi hj => (hmeet _ (index hi) _ (index hj)).1)
    (fun p hp hq => ?_) (fun p hp q hqmem hq => ?_) fun q hq hqa => ?_).mono (fun _ _ => trivial) fun _ h => h
  · exact meetUndeclared_overlooks hexact htrial ha hb hp (ObjectShape.declares_eq_false.mpr hq) fun i hi =>
      (hmeet _ (property hp) _ (index hi)).1
  · exact meetDeclared_overlooks hexact ha hb hp hqmem (ObjectShape.property?_mem hq).2
      (hmeet _ (property hp) _ (property hqmem)).1
  · refine (meetUndeclared_overlooks hexact htrial hb ha hq (ObjectShape.declares_eq_false.mpr hqa) fun i hi => ?_).mono
      (fun _ h => h) fun _ h => h.symm
    exact (hmeet _ (index hi) _ (property hq)).2

theorem meetAs_overlooks {e : Element Schema} {holds : Value → Value → Prop} (ha : a.Every Schema.WrittenOut)
    (hb : b.Every Schema.WrittenOut) (h : env.Shares config a b ⟨s, t, e.role.isOptional, holds⟩)
    (hmeet : env.Candid config s t (meet s t)) :
    (Element.meetAs meet e s t).Yields (fun _ => True) (env.Overlooks config a b) :=
  (h.candid hexact ha hb hmeet id).bind fun _ _ => .pure trivial

theorem meetPairwise_overlooks (ha : a.Every Schema.WrittenOut) (hb : b.Every Schema.WrittenOut)
    (hshares : ∀ g ∈ Schema.paired es fs, ∃ holds, env.Shares config a b ⟨g.value.1, g.value.2, g.role.isOptional, holds⟩)
    (hmeet : ∀ e ∈ es, ∀ f ∈ fs, env.Candid config e.value f.value (meet e.value f.value)) :
    (Element.meetPairwise meet es fs).Yields (fun _ => True) (env.Overlooks config a b) := by
  induction es generalizing fs with
  | nil => exact .pure trivial
  | cons e es ih =>
    cases fs with
    | nil => exact .pure trivial
    | cons f fs =>
      unfold Element.meetPairwise
      split_ifs
      · obtain ⟨holds, hplace⟩ := hshares ⟨e.role, e.value, f.value⟩ (by simp [Schema.paired])
        refine (meetAs_overlooks hexact ha hb hplace (hmeet e (by simp) f (by simp))).bind fun _ _ => ?_
        refine (ih (fun g hg => hshares g ?_) fun e he f hf => hmeet e (by simp [he]) f (by simp [hf])).bind fun _ _ =>
          .pure trivial
        exact List.mem_cons_of_mem _ hg
      · exact .throw (overlooks_of_quiet rfl)

theorem meetTuples_overlooks (ha : (Schema.tuple es).Every Schema.WrittenOut)
    (hb : (Schema.tuple fs).Every Schema.WrittenOut)
    (hmeet : ∀ e ∈ es, ∀ f ∈ fs, env.Candid config e.value f.value (meet e.value f.value)) :
    (Element.meetTuples meet es fs).Yields (fun _ => True) (env.Overlooks config (.tuple es) (.tuple fs)) := by
  unfold Element.meetTuples
  by_cases hdisjoint : Element.disjointLengths es fs = true
  · rw [if_pos hdisjoint]
    refine .throw fun _ v _ hva hvb => ?_
    obtain ⟨q, items, hi, hadmits, -⟩ := places_of_accepts hva
    obtain ⟨q', items', hi', hadmits', -⟩ := places_of_accepts hvb
    obtain ⟨rfl, rfl⟩ := Prod.mk.inj (Option.some.inj (hi.symm.trans hi'))
    exact absurd hadmits' (Element.not_admits_of_disjoint hdisjoint hadmits)
  · rw [if_neg hdisjoint]
    cases hea : Element.array? es with
    | some e =>
      obtain ⟨rfl, hev⟩ := Element.array?_eq_some hea
      cases hfa : Element.array? fs with
      | some f =>
        obtain ⟨rfl, hfv⟩ := Element.array?_eq_some hfa
        have hshares : env.Shares config (.tuple [e]) (.tuple [f])
          ⟨e.value, f.value, e.role.isOptional, Value.InPlace [e] e.value⟩ := .array (by simp) hfv
        have hopt : e.role.isOptional = false := by
          have hrank : e.role.rank = 3 := by simpa [Role.isVariadic] using hev
          simp [Role.isOptional, hrank]
        refine ((hmeet e (by simp) f (by simp)).mono (fun _ h => h) fun err herr => ?_).bind fun _ _ => .pure trivial
        exact hshares.overlooks hexact ha hb hopt herr
      | none =>
        refine Compose.Yields.bind (Compose.Yields.mapM (R := fun _ _ => True) fun f hf => ?_) fun _ _ => .pure trivial
        refine Compose.Yields.bind (P := fun _ => True) ?_ fun _ _ => .pure trivial
        refine (place_candid f.role.isOptional (hmeet e (by simp) f hf)).mono (fun _ h => h) fun err herr hunsat => ?_
        obtain ⟨hno, haccuses⟩ := herr hunsat
        have hshares : env.Shares config (.tuple fs) (.tuple [e])
          ⟨f.value, e.value, f.role.isOptional, Value.InPlace fs f.value⟩ := .array hf hev
        exact (hshares.overlooks hexact hb ha hno haccuses.symm).symm hunsat
    | none =>
      cases hfa : Element.array? fs with
      | some f =>
        obtain ⟨rfl, hfv⟩ := Element.array?_eq_some hfa
        refine Compose.Yields.bind (Compose.Yields.mapM (R := fun _ _ => True) fun e he => ?_) fun _ _ => .pure trivial
        exact meetAs_overlooks hexact ha hb (.array he hfv) (hmeet e he f (by simp))
      | none =>
        dsimp only
        split_ifs with hkinds
        · have hranks : es.map (·.role.rank) = fs.map (·.role.rank) := by simpa [Element.sameKinds] using hkinds
          exact (meetPairwise_overlooks hexact ha hb (fun g hg => ⟨_, .pair hranks hg⟩) hmeet).bind fun _ _ => .pure trivial
        · exact .pure trivial

end Meets

end Env
end Schemata
