import Schemata.Definition.Reading
import Schemata.Proofs.Algebra.Faults
import Schemata.Proofs.Session

/-! Reading definitions, once for all properties of schemas that the steps of the reading keep. What the steps need to
know of sessions, and what is asked of the parts of a definition, are left open. -/
namespace Schemata

theorem IndexSignature.normalized_value {key value : Schema} : (IndexSignature.normalized key value).value = value := by
  unfold normalized
  split <;> rfl

namespace Engine

/-- Properties of what is put together in reading: of schemas and of those that names stand for, of constraints, of
defaults and of the data that these come from. -/
structure Traits where
  schema : Schema → Prop
  name : Schema → Prop
  constraint : Constraint → Prop
  default : Producer → Prop
  source : Value → Prop

/-- The steps of the reading keep the properties, from sessions of `I` to such sessions, with errors of `Q`. -/
structure Upkeep (I : Session → Prop) (Q : Fault → Prop) (scope : Option Nat) (k : Traits) : Prop where
  refuses : ∀ e : SchemaError, e.isUnended = false → Q (.schema e)
  keyword : ∀ {text s}, Schema.ofKeyword? text = some s → k.name s
  ref : ∀ text, Runs I (ref? scope text) (fun r? => ∀ r, r? = some r → k.name (.ref r)) Q
  array : ∀ {s}, k.name s → k.name (.array s)
  key : ∀ {s} value, k.name s → k.name (IndexSignature.normalized s value).key
  named : ∀ {s}, k.name s → k.schema s
  scalar : ∀ {v}, v.isScalar = true → k.schema (.literal v)
  constrain : ∀ {s cs}, k.schema s → (∀ c ∈ cs, k.constraint c) → k.schema (s.constrain cs)
  tuple : ∀ {es}, (∀ e ∈ es, e.Made k.schema k.default) → k.schema (.tuple es)
  producer : ∀ {source}, k.source source → Runs I (producerOf source) k.default Q
  union : ∀ {ss}, (∀ s ∈ ss, k.schema s) → Runs I (union scope ss) k.schema Q
  meetAll : ∀ {s ss}, k.schema s → (∀ t ∈ ss, k.schema t) → Runs I (meetAll scope s ss) k.schema Q
  spread : ∀ d {s}, k.schema s → Runs I (spreadOf scope d s) (fun es => ∀ e ∈ es, e.Made k.schema k.default) Q
  build : ∀ {o}, (∀ p ∈ o.properties, p.Made k.schema k.default) →
    (∀ i, o.index = some i → k.name i.key ∧ k.schema i.value) → Runs I (buildObject scope o) k.schema Q

/-- What is asked of the items of a list: that all can be read in turn, and that what is quoted behind the literal mark
and what is a constraint has the properties. -/
structure Listed (T : (Value → Value) → Value → Prop) (k : Traits) (close : Value → Value) (items : List Value) :
    Prop where
  parts : ∀ v ∈ items, T close v
  literals : ∀ {mark rest}, items = mark :: rest → mark.isToken "===" = true → ∀ v ∈ rest, k.schema (.literal (close v))
  constraints : ∀ v ∈ items, ∀ c, Constraint.ofData? (close v) = some c → k.constraint c

/-- What is asked of a definition `d` where `close` puts the containers around its parts. A schema in it is not asked
for. -/
structure Readable (T : (Value → Value) → Value → Prop) (k : Traits) : Prop where
  list : ∀ {close items}, T close (.list items) → Listed T k close items
  tuple : ∀ {close label items}, T close (.tuple label items) → Listed T k close items
  mapping : ∀ {close entries}, T close (.mapping entries) → ∀ e ∈ entries, T close e.2
  knot : ∀ {close label body}, T close (.knot label body) → T (close ∘ Value.bind label (.knot label body)) body
  record : ∀ {close kind token parts}, T close (.record kind token parts) →
    Schema.ofData? (close (.record kind token parts)) = none
  default : ∀ {close d source}, T close d → d.form = .default source → k.source (close source)

/-- The parts of an object under construction have the properties. -/
structure Draft.Made (k : Traits) (draft : Draft) : Prop where
  properties : ∀ p ∈ draft.properties, p.Made k.schema k.default
  index : ∀ i, draft.index = some i → k.name i.key ∧ k.schema i.value

theorem Draft.made_empty (k : Traits) (policy : Policy) : Draft.Made k ⟨policy, none, []⟩ := ⟨by simp, by simp⟩

/-- Splicing may make elements trailing, and changes nothing else. -/
theorem spliced_made {k : Traits} {seen : Bool} {es : List (Element Schema)}
    (h : ∀ e ∈ es, e.Made k.schema k.default) : ∀ e ∈ (spliced seen es).2, e.Made k.schema k.default := by
  induction es generalizing seen with
  | nil => exact h
  | cons e es ih =>
    obtain ⟨he, hes⟩ := List.forall_mem_cons.mp h
    refine List.forall_mem_cons.mpr ⟨?_, ih hes⟩
    split_ifs
    · exact ⟨he.value, by simp [Role.default?]⟩
    · exact he

namespace Upkeep

variable {I : Session → Prop} {Q : Fault → Prop} {scope : Option Nat} {k : Traits}

section Parts

variable (h : Upkeep I Q scope k)
include h

theorem refused {α : Type} {P : α → Prop} {e : SchemaError} (he : e.isUnended = false) :
    Runs I (MonadExcept.throw (.schema e)) P Q := .throw (h.refuses e he)

theorem never : k.schema .never :=
  h.named (h.keyword (show Schema.ofKeyword? "never" = some .never from rfl))

/-- A name becomes a keyword, a reference to it, or an array of these. -/
theorem nameReversed_kept (cs : List Char) : Runs I (nameReversed scope cs) k.name Q := by
  fun_induction nameReversed scope cs with
  | case1 rest ih => exact ih.bind fun s hs => .pure (h.array hs)
  | case2 cs _ name s hs => exact .pure (h.keyword hs)
  | case3 cs _ name hnone =>
    refine (h.ref name).bind fun r? hr => ?_
    cases r? with
    | some r => exact .pure (hr r rfl)
    | none => exact h.refused rfl

theorem propertyKey_kept (raw : Value) : Runs I (propertyKey raw) (fun _ => True) Q := by
  unfold propertyKey
  split
  · exact .pure trivial
  · split
    · exact .pure trivial
    · exact h.refused rfl

theorem policyOf_kept (d : Value) : Runs I (policyOf d) (fun _ => True) Q := by
  unfold policyOf
  split
  · exact .pure trivial
  · exact h.refused rfl

theorem literals_kept {vs : List Value} (hvs : ∀ v ∈ vs, k.schema (.literal v)) :
    Runs I (literals scope vs) k.schema Q := by
  unfold literals
  split_ifs
  · exact .pure h.never
  · exact h.union (List.forall_mem_map.mpr hvs)

theorem joined_kept (isUnion : Bool) {ss : List Schema} (hss : ∀ s ∈ ss, k.schema s) :
    Runs I (joined scope isUnion ss) k.schema Q := by
  cases isUnion with
  | true => exact h.union hss
  | false =>
    cases ss with
    | nil => exact .pure h.never
    | cons s ss =>
      obtain ⟨hs, hss⟩ := List.forall_mem_cons.mp hss
      exact h.meetAll hs hss

section Members

variable {close : Value → Value} {d : Value} {head plain : Engine Schema} (hhead : Runs I head k.schema Q)
  (hplain : Runs I plain k.schema Q) (hsource : ∀ source, d.form = .default source → k.source (close source))
include hhead hplain hsource

theorem element_kept (seen : Bool) :
    Runs I (element scope close seen d head plain) (fun e => e.Made k.schema k.default) Q := by
  unfold element
  cases optionalElement? d with
  | some text => exact (h.nameReversed_kept _).bind fun s hs => .pure ⟨h.named hs, by simp [Role.default?]⟩
  | none =>
    dsimp only
    cases hform : d.form with
    | optional => exact hhead.bind fun s hs => .pure ⟨hs, by simp [Role.default?]⟩
    | default source =>
      refine hhead.bind fun s hs => (h.producer (hsource source hform)).bind fun p hp => .pure ⟨hs, ?_⟩
      simpa [Role.default?] using hp
    | plain =>
      refine hplain.bind fun s hs => .pure ⟨hs, ?_⟩
      cases seen <;> simp [Role.default?]

theorem property_kept (raw : Value) :
    Runs I (property close raw d head plain) (fun p => p.Made k.schema k.default) Q := by
  have made : ∀ {key : Key} {s : Schema} {presence : Presence}, k.schema s →
      (∀ p, presence.default? = some p → k.default p) →
      Runs I (lift (Property.make key s presence)) (fun p => p.Made k.schema k.default) Q := by
    refine fun {key s presence} hs hp => .lift ?_
    unfold Property.make
    cases key with
    | index => exact h.refuses _ rfl
    | _ => exact ⟨hs, hp⟩
  unfold property
  refine (h.propertyKey_kept _).bind fun key _ => ?_
  dsimp only
  cases hform : d.form with
  | default source =>
    dsimp only
    split_ifs
    · exact h.refused rfl
    · refine hhead.bind fun s hs => (h.producer (hsource source hform)).bind fun p hp => made hs ?_
      simpa [Presence.default?] using hp
  | optional => exact hhead.bind fun s hs => made hs (by simp [Presence.default?])
  | plain =>
    refine hplain.bind fun s hs => made hs ?_
    split_ifs <;> simp [Presence.default?]

theorem member_kept {draft : Draft} (raw : Value) (hdraft : draft.Made k) :
    Runs I (member scope close draft raw d head plain) (Draft.Made k) Q := by
  unfold member
  by_cases hpolicy : raw.isToken "+" = true
  · rw [if_pos hpolicy]
    exact (h.policyOf_kept _).bind fun u _ => .pure ⟨hdraft.properties, hdraft.index⟩
  · rw [if_neg hpolicy]
    cases indexName? raw with
    | some keys =>
      dsimp only
      split_ifs
      · exact h.refused rfl
      · refine (h.nameReversed_kept _).bind fun key hkey => hplain.bind fun s hs => .pure ⟨hdraft.properties, ?_⟩
        rintro i ⟨⟩
        exact ⟨h.key s hkey, IndexSignature.normalized_value ▸ hs⟩
    | none =>
      refine (h.property_kept hhead hplain hsource raw).bind fun p hp => .pure ⟨?_, hdraft.index⟩
      exact List.forall_mem_append.mpr ⟨hdraft.properties, by simpa using hp⟩

end Members

theorem finish_kept {draft : Draft} (hdraft : draft.Made k) : Runs I (finish scope draft) k.schema Q :=
  h.build hdraft.properties hdraft.index

theorem assemble_kept {T : (Value → Value) → Value → Prop} {close : Value → Value} {items : List Value}
    {head : Engine Schema} {operands : Engine (List Schema)} {elements : Engine (List (Element Schema))} (whole : Value)
    (hitems : Listed T k close items) (hhead : Runs I head k.schema Q)
    (hoperands : Runs I operands (fun ss => ∀ s ∈ ss, k.schema s) Q)
    (helements : Runs I elements (fun es => ∀ e ∈ es, e.Made k.schema k.default) Q) :
    Runs I (assemble scope close whole items head operands elements) k.schema Q := by
  unfold assemble
  cases hreading : readingOf items with
  | literals =>
    cases items with
    | nil => cases hreading
    | cons mark rest =>
      -- only the literal mark in the first place makes the list one of literals
      have hmark : mark.isToken "===" = true := by
        by_contra hmark
        simp only [readingOf, if_neg hmark] at hreading
        split_ifs at hreading
        split at hreading <;> cases hreading
      exact h.literals_kept (List.forall_mem_map.mpr (hitems.literals rfl hmark))
  | operation isUnion => exact hoperands.bind fun ss hss => h.joined_kept isUnion hss
  | mixed => exact h.refused rfl
  | constrained =>
    refine hhead.bind fun s hs => .pure (h.constrain hs fun c hc => ?_)
    obtain ⟨v, hv, hc⟩ := List.mem_filterMap.mp hc
    exact hitems.constraints v (List.mem_of_mem_drop hv) c hc
  | misplaced => exact h.refused rfl
  | tuple =>
    refine helements.bind fun es hes => .lift ?_
    unfold Schema.makeTuple
    split
    · exact h.refuses _ rfl
    · exact h.tuple hes

end Parts

variable {T : (Value → Value) → Value → Prop} (policy : Policy)

mutual
/-- What is read of a definition has the properties, or the definition is refused. -/
theorem read_kept (h : Upkeep I Q scope k) (hT : Readable T k) {close : Value → Value} :
    (d : Value) → T close d → Runs I (read scope policy close d) k.schema Q
  | .string s, _ => (h.nameReversed_kept _).mono (fun _ => h.named) fun _ he => he
  | .null, _ => .pure (h.scalar rfl)
  | .undefined, _ => .pure (h.scalar rfl)
  | .bool b, _ => .pure (h.scalar rfl)
  | .number n, _ => .pure (h.scalar rfl)
  | .symbol s, _ => .pure (h.scalar rfl)
  | .mapping entries, hd =>
    (readMembers_kept h hT entries (hT.mapping hd) (Draft.made_empty k policy)).bind fun _ hdraft => h.finish_kept hdraft
  | .list items, hd =>
    have hitems := hT.list hd
    h.assemble_kept _ hitems (readFirst_kept h hT items hitems.parts) (readOperands_kept h hT items hitems.parts)
      (readElements_kept h hT _ false items hitems.parts)
  | .tuple label items, hd =>
    have hitems := hT.tuple hd
    h.assemble_kept _ hitems (readFirst_kept h hT items hitems.parts) (readOperands_kept h hT items hitems.parts)
      (readElements_kept h hT _ false items hitems.parts)
  | .record kind token parts, hd => by
    unfold read
    rw [hT.record hd]
    exact h.refused rfl
  | .bytes _, _ | .foreign _, _ | .callable _, _ | .choice _ _, _ | .back _ _, _ => h.refused rfl
  | .knot label body, hd => by
    have hbody := hT.knot hd
    cases body with
    | mapping entries =>
      exact (readMembers_kept h hT entries (hT.mapping hbody) (Draft.made_empty k policy)).bind fun _ hdraft =>
        h.finish_kept hdraft
    | list items =>
      have hitems := hT.list hbody
      exact h.assemble_kept _ hitems (readFirst_kept h hT items hitems.parts) (readOperands_kept h hT items hitems.parts)
        (readElements_kept h hT _ false items hitems.parts)
    | tuple l items =>
      have hitems := hT.tuple hbody
      exact h.assemble_kept _ hitems (readFirst_kept h hT items hitems.parts) (readOperands_kept h hT items hitems.parts)
        (readElements_kept h hT _ false items hitems.parts)
    | _ => exact h.refused rfl
termination_by structural d => d
theorem readHead_kept (h : Upkeep I Q scope k) (hT : Readable T k) {close : Value → Value} :
    (d : Value) → T close d → Runs I (readHead scope policy close d) k.schema Q
  | .list items, hd => readFirst_kept h hT items (hT.list hd).parts
  | .tuple _ items, hd => readFirst_kept h hT items (hT.tuple hd).parts
  | .knot label body, hd => by
    have hbody := hT.knot hd
    cases body with
    | list items => exact readFirst_kept h hT items (hT.list hbody).parts
    | tuple l items => exact readFirst_kept h hT items (hT.tuple hbody).parts
    | _ => exact .pure h.never
  | .null, _ | .undefined, _ | .bool _, _ | .number _, _ | .string _, _ | .symbol _, _ | .bytes _, _ | .foreign _, _
  | .callable _, _ | .choice _ _, _ | .mapping _, _ | .record _ _ _, _ | .back _ _, _ => .pure h.never
termination_by structural d => d
theorem readFirst_kept (h : Upkeep I Q scope k) (hT : Readable T k) {close : Value → Value} :
    (ds : List Value) → (∀ d ∈ ds, T close d) → Runs I (readFirst scope policy close ds) k.schema Q
  | d :: _, hds => read_kept h hT d (hds d List.mem_cons_self)
  | [], _ => .pure h.never
termination_by structural ds => ds
theorem readOperands_kept (h : Upkeep I Q scope k) (hT : Readable T k) {close : Value → Value} :
    (ds : List Value) → (∀ d ∈ ds, T close d) →
      Runs I (readOperands scope policy close ds) (fun ss => ∀ s ∈ ss, k.schema s) Q
  | [], _ => .pure (by simp)
  | [d], hds => (read_kept h hT d (hds d (by simp))).bind fun s hs => .pure (by simpa using hs)
  | d :: _ :: rest, hds =>
    (read_kept h hT d (hds d (by simp))).bind fun s hs =>
      (readOperands_kept h hT rest fun d hd => hds d (by simp [hd])).bind fun ss hss =>
        .pure (List.forall_mem_cons.mpr ⟨hs, hss⟩)
termination_by structural ds => ds
theorem readElements_kept (h : Upkeep I Q scope k) (hT : Readable T k) {close : Value → Value} (whole : Value) :
    (seen : Bool) → (ds : List Value) → (∀ d ∈ ds, T close d) →
      Runs I (readElements scope policy close whole seen ds) (fun es => ∀ e ∈ es, e.Made k.schema k.default) Q
  | _, [], _ => .pure (by simp)
  | seen, [d], hds => by
    have hd := hds d (by simp)
    unfold readElements
    split_ifs
    · exact h.refused rfl
    · exact (h.element_kept (readHead_kept h hT d hd) (read_kept h hT d hd) (fun _ => hT.default hd) seen).bind
        fun e he => .pure (by simpa using he)
  | seen, d :: next :: rest, hds => by
    have hd := hds d (by simp)
    unfold readElements
    split_ifs
    · refine (read_kept h hT next (hds next (by simp))).bind fun s hs => (h.spread _ hs).bind fun es hes => ?_
      refine (readElements_kept h hT whole _ rest fun d hd => hds d (by simp [hd])).bind fun fs hfs => .pure ?_
      exact List.forall_mem_append.mpr ⟨spliced_made hes, hfs⟩
    · refine (h.element_kept (readHead_kept h hT d hd) (read_kept h hT d hd) (fun _ => hT.default hd) seen).bind
        fun e he => ?_
      exact (readElements_kept h hT whole seen (next :: rest) fun d hd => hds d (by simp [List.mem_cons.mp hd])).bind
        fun es hes => .pure (List.forall_mem_cons.mpr ⟨he, hes⟩)
termination_by structural _ ds => ds
theorem readMembers_kept (h : Upkeep I Q scope k) (hT : Readable T k) {close : Value → Value} :
    (es : List (Value × Value)) → (∀ e ∈ es, T close e.2) → {draft : Draft} → draft.Made k →
      Runs I (readMembers scope policy close draft es) (Draft.Made k) Q
  | [], _, _, hdraft => .pure hdraft
  | (raw, d) :: rest, hes, _, hdraft =>
    have hd := hes (raw, d) List.mem_cons_self
    (h.member_kept (readHead_kept h hT d hd) (read_kept h hT d hd) (fun _ => hT.default hd) raw hdraft).bind
      fun _ hdraft => readMembers_kept h hT rest (fun e he => hes e (List.mem_cons_of_mem _ he)) hdraft
termination_by structural es => es
end

end Upkeep
end Engine
end Schemata
