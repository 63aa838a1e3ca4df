import Schemata.Proofs.Schema.Consulting
import Schemata.Proofs.Scope.Definitions
import Schemata.Proofs.Scope.Recall

/-! Reading definitions. A plain definition of a scope becomes a schema that refers to names of the scope only and whose
index keys are names, and reading changes neither the names of any scope nor what they lead to. -/
namespace Schemata

/-- What a name can stand for within the limits: an index key, or a schema of one domain that no key is of. -/
structure Schema.IsNamed (l : Limits) (s : Schema) : Prop where
  within : s.Within l
  form : s.IsKeyForm ∨ ∃ d, ObjectShape.keyDomains d = false ∧ ∀ follow, s.domainsWith follow = .ok (some (.of [d]))

theorem Schema.IsNamed.array {l : Limits} {s : Schema} (h : s.Within l) : (Schema.array s).IsNamed l :=
  ⟨within_array.mpr h, Or.inr ⟨.array, rfl, fun _ => rfl⟩⟩

/-- A name of its own stands for a keyword, for one of the two truth values or for no value at all. -/
theorem Schema.form_of_ofKeyword {name : String} {s : Schema} (h : Schema.ofKeyword? name = some s) :
    (∃ k, s = .keyword k) ∨ (∃ b, s = .literal (.bool b)) ∨ s = .never := by
  unfold ofKeyword? at h
  cases hk : Keyword.ofName? name with
  | some k =>
    simp only [hk] at h
    exact Or.inl ⟨k, (Option.some.inj h).symm⟩
  | none =>
    simp only [hk] at h
    split at h <;> simp only [Option.some.injEq, reduceCtorEq] at h
    all_goals subst h
    · exact Or.inr (Or.inl ⟨_, rfl⟩)
    · exact Or.inr (Or.inl ⟨_, rfl⟩)
    · exact Or.inr (Or.inr rfl)

theorem Schema.isNamed_ofKeyword {l : Limits} {name : String} {s : Schema} (h : Schema.ofKeyword? name = some s) :
    s.IsNamed l := by
  obtain ⟨k, rfl⟩ | ⟨b, rfl⟩ | rfl := form_of_ofKeyword h
  · exact ⟨within_keyword, Or.inl trivial⟩
  · exact ⟨within_literal, Or.inr ⟨.boolean, rfl, fun _ => rfl⟩⟩
  · exact ⟨within_never, Or.inl trivial⟩

theorem IndexSignature.normalized_isNamed {l : Limits} {key value : Schema} (h : key.IsNamed l) :
    (IndexSignature.normalized key value).key.IsNamed l := by
  unfold normalized
  split
  · exact ⟨by simp [numericKey], Or.inl trivial⟩
  · exact ⟨by simp [integerKey], Or.inl trivial⟩
  · exact h

namespace RecordKind

/-- The record is a schema, and not a part of one or a constraint. -/
def isSchema : RecordKind → Bool
  | .keyword | .literal | .constrained | .union | .intersection | .ref | .object | .tuple => true
  | _ => false

end RecordKind

namespace Value

mutual
/-- A definition without schemas in the places that are read. -/
def isPlain : Value → Bool
  | .list items => allPlain items
  | .tuple _ items => allPlain items
  | .mapping entries => allItemsPlain entries
  | .knot _ body => isPlain body
  | .record kind _ _ => !kind.isSchema
  | _ => true
termination_by structural v => v
def allPlain : List Value → Bool
  | [] => true
  | v :: rest => isPlain v && allPlain rest
termination_by structural vs => vs
def allItemsPlain : List (Value × Value) → Bool
  | [] => true
  | (_, v) :: rest => isPlain v && allItemsPlain rest
termination_by structural es => es
end

theorem allPlain_iff {vs : List Value} : allPlain vs = true ↔ ∀ v ∈ vs, v.isPlain = true := by
  induction vs with
  | nil => simp [allPlain]
  | cons v vs ih => simp [allPlain, ih]

theorem allItemsPlain_iff {es : List (Value × Value)} : allItemsPlain es = true ↔ ∀ e ∈ es, e.2.isPlain = true := by
  induction es with
  | nil => simp [allItemsPlain]
  | cons e es ih => simp [allItemsPlain, ih]

end Value

/-- What is no schema record is no schema. -/
theorem Schema.ofData?_record {kind : RecordKind} (h : kind.isSchema = false) (token : Option Token) (parts : List Value) :
    Schema.ofData? (.record kind token parts) = none := by
  cases kind <;> simp_all [RecordKind.isSchema, Schema.ofData?]

namespace Session

variable {s t u : Session}

/-- Names, slots, configurations and the state of scopes are as they were. -/
structure Steady (s t : Session) : Prop where
  arenas : t.arenas = s.arenas
  scopes : ∀ id, (t.scope? id).map (fun sc => (sc.config, sc.frozen)) = (s.scope? id).map fun sc => (sc.config, sc.frozen)

namespace Steady

theorem refl (s : Session) : s.Steady s := ⟨rfl, fun _ => rfl⟩

theorem trans (h : s.Steady t) (k : t.Steady u) : s.Steady u :=
  ⟨k.arenas.trans h.arenas, fun id => (k.scopes id).trans (h.scopes id)⟩

end Steady

/-- What stands under a number after something was set there. -/
theorem lookup_replace {β : Type} {id : Nat} {y : β} {entries : List (Nat × β)} (other : Nat) :
    (entries.map fun e => if e.1 == id then (id, y) else e).lookup other =
      if other = id then (entries.lookup id).map fun _ => y else entries.lookup other := by
  induction entries with
  | nil => simp
  | cons e entries ih =>
    obtain ⟨key, x⟩ := e
    by_cases hkey : key = id
    · subst hkey
      by_cases hother : other = key
      · subst hother
        simp
      · have hne : (other == key) = false := by simpa using hother
        simpa [List.lookup_cons, hne, hother] using ih
    · have hid : (id == key) = false := by simpa using Ne.symm hkey
      simp only [List.map_cons, beq_iff_eq, hkey, if_false, List.lookup_cons, hid]
      cases hother : other == key with
      | true =>
        have : other ≠ id := fun h => hkey ((beq_iff_eq.mp hother).symm.trans h)
        simp [this]
      | false => simpa using ih

theorem scope?_setScope {id : Nat} {sc : Scope} (other : Nat) : (s.setScope id sc).scope? other =
    if other = id then (s.scope? id).map fun _ => sc else s.scope? other := lookup_replace other

/-- A scope may wait for other checks than before. -/
theorem steady_setScope {id : Nat} {sc sc' : Scope} (h : s.scope? id = some sc) (hconfig : sc'.config = sc.config)
    (hfrozen : sc'.frozen = sc.frozen) : s.Steady (s.setScope id sc') := by
  refine ⟨rfl, fun other => ?_⟩
  rw [scope?_setScope]
  split_ifs with hother
  · simp [hother, h, hconfig, hfrozen]
  · rfl

theorem Neat.setScope {C : (Schema → Prop) → Prop} {id : Nat} {sc : Scope} (h : s.Neat C)
    (hwaiting : ∀ checks, sc.waiting = some checks → ∀ c ∈ checks, c.Reserved s.arenas) : (s.setScope id sc).Neat C := by
  refine ⟨h.arenas, h.memo, fun other sc' checks hsc hchecks => ?_⟩
  rw [scope?_setScope] at hsc
  split_ifs at hsc with hother
  · obtain ⟨_, -, rfl⟩ := Option.map_eq_some_iff.mp hsc
    exact hwaiting checks hchecks
  · exact h.waiting other sc' checks hsc hchecks

theorem Tidy.setScope {id : Nat} {sc : Scope} (h : s.Tidy)
    (hwaiting : ∀ checks, sc.waiting = some checks → ∀ c ∈ checks, c.Reserved s.arenas) : (s.setScope id sc).Tidy :=
  tidy_iff_neat.mpr ((tidy_iff_neat.mp h).setScope hwaiting)

/-- Only the memo changes, and it stays in order. -/
theorem Neat.recalls {C : (Schema → Prop) → Prop} (h : s.Neat C) {memo : Memo DerivedKey (Except Fault Schema)}
    (hmemo : memo.Holds (DerivedKey.Reserved s.arenas) (DerivedKey.Keeps C s.arenas)) : { s with memo := memo }.Neat C :=
  ⟨h.arenas, hmemo, h.waiting⟩

end Session

namespace Engine

variable {α β : Type} {as : List Arena} {P : α → Prop} {Q : β → Prop} {C : (Schema → Prop) → Prop} {l : Limits}
  {s t : Schema}

/-- From an orderly session with the given arenas, the computation leaves an orderly session with the same names and
slots, and every result satisfies `P`. -/
def Reads (C : (Schema → Prop) → Prop) (as : List Arena) (x : Engine α) (P : α → Prop) : Prop :=
  ∀ s : Session, s.arenas = as → s.Neat C → Ends (x.run s).1 P (fun _ => True) ∧ s.Steady (x.run s).2 ∧ (x.run s).2.Neat C

namespace Reads

theorem pure {a : α} (h : P a) : Reads C as (Pure.pure a) P := fun s _ hs => ⟨h, .refl s, hs⟩

theorem throw {e : Fault} : Reads C as (MonadExcept.throw e) P := fun s _ hs => ⟨trivial, .refl s, hs⟩

theorem lift {x : Except Fault α} (h : ∀ a, x = .ok a → P a) : Reads C as (Engine.lift x) P := by
  intro s _ hs
  rw [run_lift]
  exact ⟨(Except.ends_ok x).mono h fun _ h => h, .refl s, hs⟩

theorem bind {x : Engine α} {f : α → Engine β} (hx : Reads C as x P) (hf : ∀ a, P a → Reads C as (f a) Q) :
    Reads C as (x >>= f) Q := by
  intro s has hs
  obtain ⟨hends, hsteady, hneat⟩ := hx s has hs
  rw [run_bind]
  cases hrun : x.run s with
  | mk r t =>
    rw [hrun] at hends hsteady hneat
    cases r with
    | error e => exact ⟨trivial, hsteady, hneat⟩
    | ok a =>
      obtain ⟨hends', hsteady', hneat'⟩ := hf a hends t (hsteady.arenas.trans has) hneat
      exact ⟨hends', hsteady.trans hsteady', hneat'⟩

theorem mono {x : Engine α} {P' : α → Prop} (h : Reads C as x P) (hP : ∀ a, P a → P' a) : Reads C as x P' :=
  fun s has hs => ⟨(h s has hs).1.mono hP fun _ h => h, (h s has hs).2⟩

/-- Looking at the session shows its arenas. -/
theorem get {f : Session → Engine β} (h : ∀ s : Session, s.arenas = as → s.Neat C → Reads C as (f s) Q) :
    Reads C as (do f (← MonadState.get)) Q := by
  intro s has hs
  rw [run_bind]
  exact h s has hs s has hs

theorem env (scope : Option Nat) : Reads C as (Engine.env scope) fun e => e.arenas = as :=
  fun s has hs => ⟨has, .refl s, hs⟩

/-- From a tidy session the computation leaves a tidy one. -/
theorem orderly {x : Engine α} (h : Reads Limits.Lenient as x P) {s : Session} (has : s.arenas = as) (hs : s.Tidy) :
    Ends (x.run s).1 P (fun _ => True) ∧ s.Steady (x.run s).2 ∧ (x.run s).2.Tidy := by
  obtain ⟨hends, hsteady, hneat⟩ := h s has (Session.tidy_iff_neat.mp hs)
  exact ⟨hends, hsteady, Session.tidy_iff_neat.mpr hneat⟩

theorem discard {x : Engine α} (h : Reads C as x P) : Reads C as (Functor.discard x) fun _ => True := by
  intro s has hs
  obtain ⟨-, hrest⟩ := h s has hs
  rw [discard_run]
  refine ⟨?_, hrest⟩
  cases (x.run s).1 <;> trivial

end Reads

/-- Sessions with the given arenas that differ from `s₀` at most in what they recall and in what waits. -/
def Beside (C : (Schema → Prop) → Prop) (as : List Arena) (s₀ s : Session) : Prop :=
  s.arenas = as ∧ s₀.Steady s ∧ s.Neat C

theorem reads_iff_runs {x : Engine α} : Reads C as x P ↔ ∀ s₀, Runs (Beside C as s₀) x P fun _ => True := by
  constructor
  · rintro h s₀ s ⟨has, hsteady, hneat⟩
    obtain ⟨hends, hrest, hneat'⟩ := h s has hneat
    exact ⟨hends, hrest.arenas.trans has, hsteady.trans hrest, hneat'⟩
  · intro h s has hneat
    obtain ⟨hends, -, hrest⟩ := h s s ⟨has, .refl s, hneat⟩
    exact ⟨hends, hrest⟩

/-- A check that waits is kept by its scope. -/
theorem defer_reads (scope : Option Nat) {check : DeferredCheck} (h : check.Reserved as) :
    Reads C as (defer scope check) fun _ => True := by
  intro s has hs
  unfold defer
  rw [run_bind, run_get]
  cases scope with
  | none => exact ⟨trivial, .refl s, hs⟩
  | some id =>
    dsimp only
    cases hscope : s.scope? id with
    | none => exact ⟨trivial, .refl s, hs⟩
    | some sc =>
      obtain ⟨config, frozen, waiting⟩ := sc
      cases waiting with
      | none => exact ⟨trivial, .refl s, hs⟩
      | some waiting =>
        refine ⟨trivial, Session.steady_setScope hscope rfl rfl, hs.setScope fun checks hchecks => ?_⟩
        obtain rfl : waiting ++ [check] = checks := Option.some.inj hchecks
        rw [List.forall_mem_append, List.forall_mem_singleton]
        exact ⟨hs.waiting id _ waiting hscope rfl, has ▸ h⟩

section Meets

variable (hC : ∀ key, C key → Limits.Fair key)

include hC

/-- What is recalled or worked out for two schemas keeps to the limits of what they lead to. -/
theorem derive_reads (hs : s.Into (Arenas.Reserves as)) (ht : t.Into (Arenas.Reserves as)) {env : Env}
    (henv : env.arenas = as) : Reads C as (derive (.intersection s t) fun _ => env.intersect s t)
      fun c => ∀ l : Limits, C l.key → Arenas.Encloses as l → s.Within l → t.Within l → c.1.Within l := by
  intro u hu hneat
  subst hu
  have hkey : DerivedKey.Reserved u.arenas (.intersection s t) := by
    rintro p q ⟨⟩
    exact ⟨hs, ht⟩
  have hrequest := hneat.memo.request hkey
  rcases derive_run (.intersection s t) (fun _ => env.intersect s t) u with ⟨r, hknown, hrun⟩ | ⟨memo, hrun, hmemo⟩
  · rw [hrun]
    refine ⟨?_, ⟨rfl, fun _ => rfl⟩, hneat.recalls hrequest⟩
    obtain ⟨e, he, hequal, houtcome⟩ := Memo.entry_of_known hknown
    obtain ⟨p, q, hkey, hp, hq⟩ := Session.same_intersection hequal
    cases r with
    | error e => trivial
    | ok c =>
      intro l hl hlimits hs ht
      have equal : ∀ {s t : Schema}, s.same t = true → t.Within l → s.Within l := fun h =>
        (Schema.within_of_alike (hC _ hl) (Schema.alike_of_same h)).mpr
      exact (hneat.memo e he).2 _ houtcome p q c hkey rfl l hl hlimits (equal hp hs) (equal hq ht)
  · rw [hrun]
    refine ⟨?_, ⟨rfl, fun _ => rfl⟩, hneat.recalls ?_⟩
    · cases hwork : (env.intersect s t).1 with
      | error e => trivial
      | ok c => exact fun l _ hlimits hs ht => Env.intersect_within (hlimits.env henv) hs ht hwork
    · rcases hmemo with rfl | ⟨keep, rfl, -⟩
      · exact hneat.memo
      · exact hrequest.settle fun _ k _ hk => DerivedKey.keeps_intersect hC henv hk

/-- An intersection keeps to the limits of what its operands lead to; it may wait when they have slots. -/
theorem intersection_reads (scope : Option Nat) (hs : s.Into (Arenas.Reserves as)) (ht : t.Into (Arenas.Reserves as)) :
    Reads C as (intersection scope s t)
      fun c => ∀ l : Limits, C l.key → Arenas.Encloses as l → s.Within l → t.Within l → c.Within l := by
  refine (Reads.env scope).bind fun e he => (derive_reads hC hs ht he).bind fun answer hanswer => ?_
  obtain ⟨c, deferred⟩ := answer
  cases deferred with
  | false => exact .pure hanswer
  | true =>
    refine (Reads.discard (defer_reads scope ?_)).bind fun _ _ => .pure hanswer
    rintro p q ⟨⟩
    exact ⟨hs, ht⟩

end Meets

/-- Limits for what is read through a scope. Its names keep to them with all that they lead to, and so does every name
that becomes the key of an index signature. -/
structure Reader (C : (Schema → Prop) → Prop) (as : List Arena) (id : Nat) (l : Limits) : Prop where
  fair : ∀ key, C key → Limits.Fair key
  lawful : C l.key
  sound : Arenas.Sound as
  encloses : Arenas.Encloses as l
  names : ∀ r, Arenas.Named as id r → l.ref r
  keys : ∀ (env : Env) o s i, env.arenas = as → env.makeObject o = .ok s → o.index = some i → i.key.IsNamed l → l.key i.key

/-- The names of a scope lead to schemas of such names, whatever the keys. -/
theorem Reader.lenient (h : Arenas.Sound as) (id : Nat) : Reader Limits.Lenient as id ⟨Arenas.Named as id, fun _ => True⟩ :=
  ⟨fun _ h => h.fair, fun _ => trivial, h, Arenas.closed_iff_encloses.mp (h.closed id), fun _ h => h,
    fun _ _ _ _ _ _ _ _ => trivial⟩

variable {id : Nat} (h : Reader C as id l)

section Parts

variable (scope : Option Nat)

include h in
theorem meetAll_reads {ss : List Schema} (hs : s.Within l) (hss : ∀ t ∈ ss, t.Within l) :
    Reads C as (meetAll scope s ss) (Schema.Within l) := by
  induction ss generalizing s with
  | nil => exact .pure hs
  | cons t ss ih =>
    obtain ⟨ht, hss⟩ := List.forall_mem_cons.mp hss
    refine (intersection_reads h.fair scope (h.encloses.reserves h.sound hs) (h.encloses.reserves h.sound ht)).bind
      fun c hc => ?_
    exact ih (hc l h.lawful h.encloses hs ht) hss

theorem union_reads {ss : List Schema} (hss : ∀ t ∈ ss, t.Within l) : Reads C as (union scope ss) (Schema.Within l) :=
  (Reads.env scope).bind fun _ _ => .lift fun _ h => Env.union_within hss h

end Parts

theorem ref?_reads (name : String) :
    Reads C as (ref? (some id) name) fun r? => ∀ r, r? = some r → Arenas.Named as id r := by
  refine Reads.get fun s has _ => .pure fun r hr => ?_
  obtain ⟨a, ha, hr⟩ := Option.bind_eq_some_iff.mp hr
  exact Arenas.registers_of_arena (has ▸ ha) (Arena.ref?_eq_some.mp hr).2

theorem newProducer_reads (source : Value) (isFactory : Bool) :
    Reads C as (newProducer source isFactory) fun _ => True :=
  fun _ _ hs => ⟨trivial, ⟨rfl, fun _ => rfl⟩, hs.arenas, hs.memo, hs.waiting⟩

theorem producerOf_reads (source : Value) : Reads C as (producerOf source) fun _ => True := by
  unfold producerOf
  cases Producer.ofData? source with
  | some p => exact .pure trivial
  | none => exact newProducer_reads _ _

include h in
theorem spreadOf_reads (scope : Option Nat) (d : Value) {s : Schema} (hs : s.Within l) :
    Reads C as (spreadOf scope d s) fun es => ∀ e ∈ es, e.value.Within l := by
  refine (Reads.env scope).bind fun env henv => ?_
  refine Reads.bind (.lift fun t ht => (h.encloses.env henv).deref hs ht) fun t ht => ?_
  cases t with
  | tuple es => exact .pure (Schema.within_tuple.mp ht)
  | _ => exact .throw

theorem warnOverlaps_reads {scope : Option Nat} (index : IndexSignature Schema) (ps : List (Property Schema)) :
    Reads C as (warnOverlaps scope index ps) fun _ => True := by
  have warn : ∀ w : OverlapWarning,
      Reads C as (modify fun s => { s with warnings := s.warnings ++ [w] } : Engine Unit) fun _ => True :=
    fun _ _ _ hs => ⟨trivial, ⟨rfl, fun _ => rfl⟩, hs.arenas, hs.memo, hs.waiting⟩
  induction ps with
  | nil => exact .pure trivial
  | cons p ps ih =>
    unfold warnOverlaps
    refine (Reads.env scope).bind fun e _ => Reads.bind (P := fun _ => True) (.lift fun _ _ => trivial) fun taken _ => ?_
    cases taken with
    | false => exact ih
    | true =>
      refine Reads.bind (P := fun _ => True) (.lift fun _ _ => trivial) fun below _ => ?_
      cases below with
      | true => exact ih
      | false => exact (warn _).bind fun _ _ => ih

include h in
/-- The key of an index signature passes the check of the object. -/
theorem buildObject_reads {o : ObjectShape Schema} (hproperties : ∀ p ∈ o.properties, p.value.Within l)
    (hindex : ∀ i, o.index = some i → i.key.IsNamed l ∧ i.value.Within l) :
    Reads C as (buildObject (some id) o) (Schema.Within l) := by
  unfold buildObject
  refine (Reads.env _).bind fun e he => Reads.bind (P := Schema.Within l) (.lift fun s hs => ?_) fun s hs => ?_
  · exact Env.makeObject_within ⟨hproperties, fun i hi =>
      ⟨(hindex i hi).1.within, (hindex i hi).2, h.keys e _ s i he hs hi (hindex i hi).1⟩⟩ hs
  · cases o.index with
    | none => exact .pure hs
    | some index =>
      refine (defer_reads _ (by rintro p q ⟨⟩)).bind fun waits _ => ?_
      cases waits with
      | true => exact .pure hs
      | false => exact (warnOverlaps_reads index _).bind fun _ _ => .pure hs

/-- Schemas within the limits, and among them those that names stand for. -/
def Traits.within (l : Limits) : Traits :=
  ⟨Schema.Within l, Schema.IsNamed l, fun _ => True, fun _ => True, fun _ => True⟩

include h in
theorem Reader.upkeep (s₀ : Session) : Upkeep (Beside C as s₀) (fun _ => True) (some id) (.within l) where
  refuses _ _ := trivial
  keyword := Schema.isNamed_ofKeyword
  ref text := reads_iff_runs.mp ((ref?_reads text).mono fun _ hr r heq =>
    ⟨Schema.within_ref.mpr (h.names r (hr r heq)), Or.inl trivial⟩) s₀
  array hs := .array hs.within
  key _ hs := IndexSignature.normalized_isNamed hs
  named hs := hs.within
  scalar _ := Schema.within_literal
  constrain hs _ := Schema.within_constrain.mpr hs
  tuple hes := Schema.within_tuple.mpr fun e he => (hes e he).value
  producer _ := reads_iff_runs.mp (producerOf_reads _) s₀
  union hss := reads_iff_runs.mp (union_reads _ hss) s₀
  meetAll hs hss := reads_iff_runs.mp (meetAll_reads h _ hs hss) s₀
  spread d _ hs := reads_iff_runs.mp ((spreadOf_reads h _ d hs).mono fun _ hes e he =>
    ⟨hes e he, fun _ _ => trivial⟩) s₀
  build hproperties hindex :=
    reads_iff_runs.mp (buildObject_reads h (fun p hp => (hproperties p hp).value) hindex) s₀

include h in
theorem nameReversed_reads (cs : List Char) : Reads C as (nameReversed (some id) cs) (Schema.IsNamed l) :=
  reads_iff_runs.mpr fun s₀ => (h.upkeep s₀).nameReversed_kept cs

/-- Closing a part of a definition leaves records what they are. -/
def KeepsRecords (close : Value → Value) : Prop :=
  ∀ kind token parts, ∃ parts', close (.record kind token parts) = .record kind token parts'

theorem KeepsRecords.bind {close : Value → Value} (h : KeepsRecords close) (label : Token) (v : Value) :
    KeepsRecords (close ∘ Value.bind label v) :=
  fun kind token _ => h kind token _

/-- Plain definitions can be read, whatever is put around their parts. -/
theorem plain_readable : Readable (fun close d => d.isPlain = true ∧ KeepsRecords close) (.within l) := by
  have listed : ∀ {close : Value → Value} {items : List Value}, Value.allPlain items = true → KeepsRecords close →
      Listed (fun close d => d.isPlain = true ∧ KeepsRecords close) (.within l) close items := fun hitems hclose =>
    ⟨fun v hv => ⟨Value.allPlain_iff.mp hitems v hv, hclose⟩, fun _ _ _ _ => Schema.within_literal,
      fun _ _ _ _ => trivial⟩
  refine ⟨fun h => listed h.1 h.2, fun h => listed h.1 h.2, fun h e he => ⟨Value.allItemsPlain_iff.mp h.1 e he, h.2⟩,
    fun h => ⟨h.1, h.2.bind _ _⟩, fun {close kind token parts} h => ?_, fun _ _ => trivial⟩
  obtain ⟨parts', hparts⟩ := h.2 kind token parts
  rw [hparts]
  exact Schema.ofData?_record (by simpa [Value.isPlain] using h.1) token parts'

theorem ofData?_of_isPlain {d : Value} (h : d.isPlain = true) : Schema.ofData? d = none := by
  cases d with
  | record kind token parts => exact Schema.ofData?_record (by simpa [Value.isPlain] using h) token parts
  | _ => rfl

/-- A plain definition is read, not looked up. -/
theorem schemaOf_of_isPlain (scope : Option Nat) (given : Option Config) {d : Value} (h : d.isPlain = true) :
    schemaOf scope given d = parse scope given d := by
  unfold schemaOf
  rw [ofData?_of_isPlain h]

theorem config_reads (scope : Option Nat) (given : Option Config) : Reads C as (config scope given) fun _ => True := by
  cases given with
  | some c => exact .pure trivial
  | none => exact .get fun _ _ _ => .lift fun _ _ => trivial

include h in
theorem parse_reads (given : Option Config) {d : Value} (hd : d.isPlain = true) :
    Reads C as (parse (some id) given d) (Schema.Within l) := by
  refine (config_reads _ given).bind fun c _ => reads_iff_runs.mpr fun s₀ => ?_
  exact Upkeep.read_kept c.undeclared (h.upkeep s₀) plain_readable d ⟨hd, fun _ _ parts => ⟨parts, rfl⟩⟩

/-- A plain definition becomes a schema that refers to names of the scope, whatever its index keys. -/
theorem parse_orderly (id : Nat) (given : Option Config) {d : Value} (hd : d.isPlain = true) {s : Session} (hs : s.Tidy) :
    Ends ((parse (some id) given d).run s).1 (Schema.Into (Arenas.Named s.arenas id)) (fun _ => True) ∧
      s.Steady ((parse (some id) given d).run s).2 ∧ ((parse (some id) given d).run s).2.Tidy := by
  obtain ⟨hends, hrest⟩ := (parse_reads (Reader.lenient hs.arenas id) given hd).orderly rfl hs
  exact ⟨hends.mono (fun _ => Schema.into_iff_within.mpr) fun _ h => h, hrest⟩

end Engine
end Schemata
