import Schemata.Proofs.Validation.Expansion
import Schemata.Schema.Data

/-! Constants filled in for what is absent. What is filled in is a copy, and the symbols in a copy are others; so a schema
that takes the constant takes what is filled in, unless it names a symbol of the constant. -/
namespace Schemata

/-- Data that can be copied, of which all symbols are originals: no two of them are copies of one. -/
structure Value.Original (v : Value) : Prop where
  isTree : v.isTree = true
  isCopyable : v.isCopyable = true
  apart : ∀ s ∈ v.symbols, ∀ t ∈ v.symbols, s.token.id = t.token.id → s.token = t.token

/-- Narrowing functions do not tell the symbols of `ids` from their copies, and factories make none of them. -/
structure Hooks.Unaware (hooks : Hooks) (ids : List Nat) : Prop where
  judge : ∀ f : Token → Token, f.Injective → (∀ t, (f t).id = t.id) → (∀ t, t.id ∉ ids → f t = t) → hooks.Ignores f
  make : ∀ c v, hooks.make c = .ok v → ∀ s ∈ v.symbols, s.token.id ∉ ids

namespace Schema

variable {f : Token → Token} {kept : Symbol → Prop} {s t : Schema} {made : Producer → Prop}

theorem symbols_allToData (ss : List Schema) :
    Value.allSymbols (allToData ss) = ss.flatMap fun s => s.toData.symbols := by
  induction ss with
  | nil => rfl
  | cons s ss ih => rw [allToData, Value.allSymbols, ih, List.flatMap_cons]

theorem symbols_propertiesToData (ps : List (Property Schema)) : Value.allSymbols (propertiesToData ps) =
    ps.flatMap fun p => (Property.dataWith p.key p.presence p.value.toData).symbols := by
  induction ps with
  | nil => rfl
  | cons p ps ih => rw [propertiesToData, Value.allSymbols, ih, List.flatMap_cons]

theorem symbols_elementsToData (es : List (Element Schema)) : Value.allSymbols (elementsToData es) =
    es.flatMap fun e => (Element.dataWith e.role e.value.toData).symbols := by
  induction es with
  | nil => rfl
  | cons e es ih => rw [elementsToData, Value.allSymbols, ih, List.flatMap_cons]

/-- A schema names what its parts name. -/
theorem symbols_of_part (ht : t ∈ s.parts) : t.toData.symbols ⊆ s.toData.symbols := by
  intro x hx
  cases s with
  | constrained s cs =>
    obtain rfl := List.mem_singleton.mp ht
    simp [toData, Value.symbols, Value.allSymbols, hx]
  | union bs =>
    simp only [toData, Value.symbols, Value.allSymbols, symbols_allToData, List.append_nil, List.mem_flatMap]
    exact ⟨t, ht, hx⟩
  | intersection ms =>
    simp only [toData, Value.symbols, Value.allSymbols, symbols_allToData, List.append_nil, List.mem_flatMap]
    exact ⟨t, ht, hx⟩
  | object o =>
    obtain ⟨ps, i, u⟩ := o
    simp only [toData, Value.symbols, Value.allSymbols, symbols_propertiesToData, List.mem_append, List.mem_flatMap]
    rcases List.mem_append.mp ht with hvalue | hi
    · obtain ⟨p, hp, rfl⟩ := List.mem_map.mp hvalue
      exact Or.inl ⟨p, hp, by simp [Property.dataWith, Value.symbols, Value.allSymbols, hx]⟩
    · cases i with
      | none => simp [IndexSignature.parts] at hi
      | some i =>
        right
        left
        rcases List.mem_pair.mp hi with rfl | rfl <;> simp [indexToData, Value.symbols, Value.allSymbols, hx]
  | tuple es =>
    obtain ⟨e, he, rfl⟩ := List.mem_map.mp ht
    simp only [toData, Value.symbols, Value.allSymbols, symbols_elementsToData, List.append_nil, List.mem_flatMap]
    exact ⟨e, he, by simp [Element.dataWith, Value.symbols, Value.allSymbols, hx]⟩
  | _ => simp [parts] at ht

/-- Where all symbols that a schema names keep their names, those of its root do. -/
theorem keepsNode_of_data (hf : ∀ x, kept x → f x.token = x.token) (hs : ∀ x ∈ s.toData.symbols, kept x)
    (hmade : ∀ d : Producer, (∀ x ∈ d.source.symbols, kept x) → made d) : s.KeepsNode f made := by
  cases s with
  | literal a => exact fun x hx => hf x (hs x (by simp [toData, Value.symbols, Value.allSymbols, hx]))
  | constrained s cs =>
    intro c hc
    cases c with
    | equals a =>
      have hmem : ∀ cs : List Constraint, .equals a ∈ cs →
          a.symbols ⊆ Value.allSymbols (cs.map Constraint.toData) := by
        intro cs hc x hx
        rw [Value.allSymbols_eq]
        exact List.mem_flatMap.mpr ⟨_, List.mem_map_of_mem hc, by
          simpa [Constraint.toData, Value.symbols, Value.allSymbols] using hx⟩
      exact fun x hx => hf x (hs x (by simp [toData, Value.symbols, Value.allSymbols, hmem cs hc hx]))
    | _ => trivial
  | object o =>
    obtain ⟨ps, i, u⟩ := o
    intro p hp
    have hproperty : ∀ x ∈ (Property.dataWith p.key p.presence p.value.toData).symbols, kept x := fun x hx => hs x (by
      simp only [toData, Value.symbols, Value.allSymbols, symbols_propertiesToData, List.mem_append, List.mem_flatMap]
      exact Or.inl ⟨p, hp, hx⟩)
    refine ⟨?_, fun d hd => hmade d fun x hx => hproperty x ?_⟩
    · cases hkey : p.key with
      | symbol y =>
        have hy : f y.token = y.token := hf y (hproperty y (by
          simp [Property.dataWith, Key.toData, Key.toValue, Value.symbols, Value.allSymbols, hkey]))
        simp only [Key.recast, Symbol.recast, hy]
      | _ => rfl
    · simp [Property.dataWith, Presence.default?, Producer.toData, Value.ofOption, Value.symbols, Value.allSymbols, hd,
        hx]
  | tuple es =>
    intro e he d hd
    refine hmade d fun x hx => hs x ?_
    simp only [toData, Value.symbols, Value.allSymbols, symbols_elementsToData, List.append_nil, List.mem_flatMap]
    exact ⟨e, he, by
      simp [Element.dataWith, Role.default?, Producer.toData, Value.ofOption, Value.symbols, Value.allSymbols, hd, hx]⟩
  | _ => trivial

theorem every_keepsNode (hf : ∀ x, kept x → f x.token = x.token) (hs : ∀ x ∈ s.toData.symbols, kept x)
    (hmade : ∀ d : Producer, (∀ x ∈ d.source.symbols, kept x) → made d) : s.Every (KeepsNode f made) := by
  induction s using induction_on_parts with
  | _ s ih =>
    exact .intro (keepsNode_of_data hf hs hmade) fun t ht => ih t ht fun x hx => hs x (symbols_of_part ht hx)

end Schema

namespace Check

variable {config : Config} {hooks : Hooks} {c : Check} {p : Producer} {visit : Visit} {o : Outcome}

/-- An absent property is put out with its default. -/
theorem object_fills {key : Key} (index : Option (IndexSignature Check)) (policy : Policy)
    (h : c.default config hooks p (.ofKey key) visit = .ok o) :
    object config hooks ⟨[⟨key, c, .defaultable p⟩], index, policy⟩ visit (.mapping []) =
      .ok ⟨.mapping [(key.toValue, o.output)], true, o.failures⟩ := by
  have hproperties : properties config hooks visit [] [⟨key, c, .defaultable p⟩] = .ok (.item key o) := by
    show ((c.default config hooks p (.ofKey key) visit).map (Rebuilt.item key) >>= fun r =>
      .ok (r.append .empty)) = _
    rw [h]
    show Except.ok ((Rebuilt.item key o).append .empty) = _
    simp only [Rebuilt.append, Rebuilt.empty, List.append_nil]
  show (properties config hooks visit [] [⟨key, c, .defaultable p⟩] >>= fun declared =>
    .ok (⟨.mapping (declared.append .empty).entries, true, [] ++ (declared.append .empty).failures⟩ : Outcome)) = _
  rw [hproperties]
  show Except.ok _ = _
  simp only [Rebuilt.append, Rebuilt.empty, Rebuilt.item, List.append_nil, List.nil_append]

/-- A missing element is put out with its default. -/
theorem tuple_fills (shape : List (Element Schema)) (h : c.default config hooks p (.position 0) visit = .ok o) :
    tuple config hooks shape [⟨.defaultable p, c⟩] visit (.list []) = .ok ⟨.list [o.output], true, o.failures⟩ := by
  show (((c.default config hooks p (.position 0) visit >>= fun o => .ok [o]) >>= fun head => .ok head) >>= fun os =>
    .ok (⟨.list (Outcome.outputs os), true, Outcome.allFailures os⟩ : Outcome)) = _
  rw [h]
  show Except.ok _ = _
  simp only [Outcome.outputs, Outcome.allFailures, List.map_cons, List.map_nil, List.flatMap_cons, List.flatMap_nil,
    List.append_nil]

end Check

namespace Env

variable {env : Env} {config : Config} {follow : Ref → Check} {s : Schema} {p : Producer}

/-- A default makes none of the symbols that it does not name. -/
theorem names_of_produce {ids : List Nat} (hhooks : env.hooks.Unaware ids)
    (hp : ∀ x ∈ p.source.symbols, x.token.id ∉ ids) {n : Nat} {v : Value} (h : p.produce env.hooks n = .ok v) :
    ∀ x ∈ v.symbols, x.token.id ∉ ids := by
  unfold Producer.produce at h
  split_ifs at h
  · cases hsource : p.source with
    | callable c =>
      rw [hsource] at h
      cases hmake : env.hooks.make c with
      | error e => simp [hmake, Except.mapError] at h
      | ok w =>
        obtain rfl : w = v := by simpa [hmake, Except.mapError] using h
        exact hhooks.make c w hmake
    | _ => simp [hsource] at h
  · obtain rfl := Except.ok.inj h
    intro x hx
    rw [Value.symbols_copied] at hx
    obtain ⟨y, hy, rfl⟩ := List.mem_map.mp hx
    exact hp y hy

/-- A check that follows no reference answers alike on a value and on its copy, if the schema names none of the symbols
that are copied. -/
theorem checkWith_copied (config : Config) (follow : Ref → Check) (hfree : s.Into fun _ => False) {v : Value}
    (hv : v.Original)
    (hnames : ∀ x ∈ s.toData.symbols, ∀ y ∈ v.symbols, x.token.id ≠ y.token.id)
    (hhooks : env.hooks.Unaware (v.symbols.map (·.token.id))) (n : Nat) (visit : Visit) :
    ∃ f, Agree (· = ·) (Outcome.Recasts f) (s.checkWith env config follow visit v)
      (s.checkWith env config follow visit (v.copied n)) := by
  let ts := v.symbols.map (·.token)
  let f := Token.exchanged ts n
  have hf : f.Injective := Token.exchanged_injective ts n
  have hstay : ∀ t : Token, t.id ∉ v.symbols.map (·.token.id) → f t = t := fun t ht =>
    Token.exchanged_of_ne fun u hu hid => ht (by
      obtain ⟨x, hx, rfl⟩ := List.mem_map.mp hu
      exact hid ▸ List.mem_map_of_mem hx)
  have hcopied : ∀ x ∈ v.symbols, f x.token = x.token.copied n := fun x hx => by
    refine Token.exchanged_of_mem ?_ (List.mem_map_of_mem hx)
    simp only [ts, List.forall_mem_map]
    exact hv.apart
  have hkept : ∀ x ∈ s.toData.symbols, x.token.id ∉ v.symbols.map (·.token.id) := fun x hx hmem => by
    obtain ⟨y, hy, hid⟩ := List.mem_map.mp hmem
    exact hnames x hx y hy hid.symm
  have hkeeps : s.Every (Schema.KeepsNode f fun d => ∀ visit visit' : Visit, visit.depth = visit'.depth →
      d.Keeps env.hooks f (visit.depth + 1) (visit'.depth + 1)) :=
    s.every_keepsNode (fun x hx => hstay x.token hx) hkept fun d hd visit visit' hdepth => by
      unfold Producer.Keeps
      rw [hdepth]
      cases hmade : d.produce env.hooks (visit'.depth + 1) with
      | error e => rfl
      | ok w => exact Value.Keeps.recasts fun x hx => hstay x.token (names_of_produce hhooks hd hmade x hx)
  have hrecasts : (s.checkWith env config follow).Recasts f (fun visit visit' => visit.depth = visit'.depth)
      ((s.replaced .ref).checkWith env config follow) := Schema.checkWith_replaced (S := fun _ => False) hf
    (hhooks.judge f hf (Token.id_exchanged ts n) hstay) ⟨id, id⟩ (fun r hr => hr.elim)
    (fun t _ => by rw [t.replaced_ref]) hfree hkeeps
  rw [s.replaced_ref] at hrecasts
  exact ⟨f, hrecasts visit visit v (v.copied n) rfl (Value.recast_copied hv.isTree hcopied)⟩

/-- What a schema accepts as a constant it accepts as a default, if it names none of the constant's symbols. -/
theorem default_of_accepted (hconfig : config.defensiveDefaults = true) (hfree : s.Into fun _ => False)
    (hconstant : p.isFactory = false) (hp : p.source.Original)
    (hnames : ∀ x ∈ s.toData.symbols, ∀ y ∈ p.source.symbols, x.token.id ≠ y.token.id)
    (hhooks : env.hooks.Unaware (p.source.symbols.map (·.token.id))) (haccepts : env.accepts config s p.source = .ok true)
    (segment : Segment) : ∃ o : Outcome,
      (env.check config s).default config env.hooks p segment .root = .ok o ∧ o.failures = [] := by
  have hproduced : p.produce env.hooks (Visit.root.depth + 1) = .ok (p.source.copied 1) := by
    simp [Producer.produce, hconstant, hp.isCopyable, Visit.root]
  obtain ⟨o, ho, hok⟩ : ∃ o, env.run config s p.source = .ok o ∧ o.isOk = true := by
    unfold accepts at haccepts
    cases hrun : env.run config s p.source with
    | error e => simp [hrun, Except.map] at haccepts
    | ok o => exact ⟨o, rfl, by simpa [hrun, Except.map] using haccepts⟩
  obtain ⟨f, hagree⟩ := checkWith_copied config (env.followWithin config config.maxDepth) hfree hp hnames hhooks 1 .root
  rw [← checkWithin_eq] at hagree
  rw [show env.checkWithin config config.maxDepth s .root p.source = .ok o from ho] at hagree
  cases hcopy : env.check config s .root (p.source.copied 1) with
  | error e =>
    rw [show env.checkWithin config config.maxDepth s .root (p.source.copied 1) = .error e from hcopy] at hagree
    exact hagree.elim
  | ok o' =>
    rw [show env.checkWithin config config.maxDepth s .root (p.source.copied 1) = .ok o' from hcopy] at hagree
    refine ⟨o'.within segment, ?_, ?_⟩
    · simp only [Check.default, hproduced, hconfig, Check.inside, bind, Except.bind, if_true]
      rw [show Visit.root.renewed = Visit.root from rfl, hcopy]
      rfl
    · have hok' : o'.failures = [] := o'.isOk_iff.mp (hagree.isOk ▸ hok)
      simp [Outcome.within, hok']

/-- A constant that a schema accepts stands when it is filled in. The schema follows no reference and names none of the
constant's symbols, nor a copy of one. Then with checked defaults the empty mapping is put out with the default under its
key, and the empty list with the default in its place. -/
theorem default_stands (hconfig : config.defensiveDefaults = true) (hfree : s.Into fun _ => False)
    (hconstant : p.isFactory = false) (hp : p.source.Original)
    (hnames : ∀ x ∈ s.toData.symbols, ∀ y ∈ p.source.symbols, x.token.id ≠ y.token.id)
    (hhooks : env.hooks.Unaware (p.source.symbols.map (·.token.id))) (haccepts : env.accepts config s p.source = .ok true)
    (key : Key) (index : Option (IndexSignature Schema)) (policy : Policy) :
    (∃ v, env.validate config (.object ⟨[⟨key, s, .defaultable p⟩], index, policy⟩) (.mapping []) =
        .ok (.ok (.mapping [(key.toValue, v)]))) ∧
      ∃ v, env.validate config (.tuple [⟨.defaultable p, s⟩]) (.list []) = .ok (.ok (.list [v])) := by
  have hdefault := default_of_accepted hconfig hfree hconstant hp hnames hhooks haccepts
  refine ⟨?_, ?_⟩
  · obtain ⟨o, ho, hok⟩ := hdefault (.ofKey key)
    have hobject := Check.object_fills (Schema.indexCheck env config (env.followWithin config config.maxDepth) index)
      policy ho
    rw [check, checkWithin_eq] at hobject
    refine ⟨o.output, ?_⟩
    rw [validate, run, check, checkWithin_eq, Schema.checkWith, Schema.propertyChecks, Schema.propertyChecks, hobject,
      hok]
    rfl
  · obtain ⟨o, ho, hok⟩ := hdefault (.position 0)
    have htuple := Check.tuple_fills [⟨.defaultable p, s⟩] ho
    rw [check, checkWithin_eq] at htuple
    refine ⟨o.output, ?_⟩
    rw [validate, run, check, checkWithin_eq, Schema.checkWith, Schema.elementChecks, Schema.elementChecks, htuple, hok]
    rfl

/-- A scope whose narrowing functions ask for a length. -/
def measured : Env := ⟨⟨fun _ v => .value (.bool v.length?.isSome), fun _ => .ok .null⟩, [], .ok Config.default⟩

/-- A mark for everything, or a list of any marks. -/
def marks : Schema :=
  .union [.literal (.symbol ⟨⟨2, 0⟩, "all"⟩), .constrained (.array .unknown) [.predicate ⟨"sized", "sized"⟩]]

theorem default_stands_marks :
    let config : Config := { Config.default with defensiveDefaults := true }
    let p : Producer := ⟨⟨0, 0⟩, .list [.symbol ⟨⟨1, 0⟩, "new"⟩], false⟩
    p.source.Original ∧ measured.hooks.Unaware (p.source.symbols.map (·.token.id)) ∧
      measured.accepts config marks p.source = .ok true ∧
      (∃ v, measured.validate config (.object ⟨[⟨.name "marks", marks, .defaultable p⟩], none, .ignore⟩) (.mapping []) =
          .ok (.ok (.mapping [(.string "marks", v)]))) ∧
        ∃ v, measured.validate config (.tuple [⟨.defaultable p, marks⟩]) (.list []) = .ok (.ok (.list [v])) := by
  intro config p
  have hp : p.source.Original := ⟨rfl, rfl, by decide⟩
  have hhooks : measured.hooks.Unaware (p.source.symbols.map (·.token.id)) := by
    refine ⟨fun f _ _ _ g v w h => ?_, fun c v hv => ?_⟩
    · show (Answer.value (.bool v.length?.isSome)).code? = (Answer.value (.bool w.length?.isSome)).code?
      rw [h.length?]
    · obtain rfl := Except.ok.inj hv
      exact List.forall_mem_nil _
  have hfree : marks.Into fun _ => False := by simp [marks, Schema.unknown]
  exact ⟨hp, hhooks, rfl, default_stands rfl hfree rfl hp (by decide) hhooks rfl (.name "marks") none .ignore⟩

/-- A schema that names the symbol refuses its copy. -/
theorem literal_default_refused (hconfig : config.defensiveDefaults = true) (y : Symbol) (hy : y.token.copy ≠ 1)
    (token : Token) (key : Key) (index : Option (IndexSignature Schema)) (policy : Policy) :
    env.accepts config (.literal (.symbol y)) (.symbol y) = .ok true ∧ ∃ fs, env.validate config
      (.object ⟨[⟨key, .literal (.symbol y), .defaultable ⟨token, .symbol y, false⟩⟩], index, policy⟩) (.mapping []) =
        .ok (.error fs) := by
  have hself : (Value.symbol y).literalEqual (.symbol y) = true := by
    simp [Value.literalEqual, Value.typeName, Value.equal, Value.isNaN, Value.same]
  have hother : (Value.symbol y).literalEqual (.symbol ⟨y.token.copied 1, y.description⟩) = false := by
    have hne : y ≠ ⟨y.token.copied 1, y.description⟩ := fun h => hy (congrArg (·.token.copy) h)
    simpa [Value.literalEqual, Value.typeName, Value.equal, Value.isNaN, Value.same] using hne
  refine ⟨?_, ?_⟩
  · simp [accepts, run, check, checkWithin_eq, Schema.checkWith, Check.literal, hself, Except.map, Outcome.isOk,
      Outcome.pass]
  · obtain ⟨o, ho, hfail⟩ : ∃ o, Check.literal (.symbol y) .root (.symbol ⟨y.token.copied 1, y.description⟩) = .ok o ∧
        o.isOk = false := ⟨_, rfl, by simp [hother, Outcome.isOk, Outcome.fail]⟩
    have hdefault : (Check.literal (.symbol y)).default config env.hooks ⟨token, .symbol y, false⟩ (.ofKey key) .root =
        .ok (o.within (.ofKey key)) := by
      show (if config.defensiveDefaults = true then (Check.literal (.symbol y) .root _).map _ else _) = _
      rw [if_pos hconfig]
      exact congrArg (Except.map (Outcome.within (.ofKey key))) ho
    have hobject := Check.object_fills (Schema.indexCheck env config (env.followWithin config config.maxDepth) index)
      policy hdefault
    have hfailures : (o.failures.map (Failure.within (.ofKey key))).isEmpty = false := by
      rw [List.isEmpty_map]
      exact hfail
    refine ⟨o.failures.map (Failure.within (.ofKey key)), ?_⟩
    rw [validate, run, check, checkWithin_eq, Schema.checkWith, Schema.propertyChecks, Schema.propertyChecks,
      Schema.checkWith, hobject]
    simp only [Except.map, Outcome.isOk, Outcome.within, hfailures]
    rfl

end Env
end Schemata
