import Schemata.Proofs.Validation.Reports

/-! Reports on objects. Every key is reported on by itself: declared properties in the order of their declaration,
then all other keys in theirs. -/
namespace Schemata

/-- Entries of an output under construction hold what the parts put out, once no part has failures. -/
def Rebuilt.Tells (r : Rebuilt) (parts : List (Part Value.Pair)) : Prop :=
  r.failures = parts.flatMap (·.failures) ∧
    (r.failures = [] → r.entries = (parts.flatMap (·.outputs)).map fun t => (t.1.toValue, t.2))

namespace Rebuilt

variable {r q : Rebuilt} {parts more : List (Part Value.Pair)}

theorem tells_empty : Rebuilt.empty.Tells [] := ⟨rfl, fun _ => rfl⟩

theorem Tells.append (hr : r.Tells parts) (hq : q.Tells more) : (r.append q).Tells (parts ++ more) := by
  refine ⟨by simp [Rebuilt.append, hr.1, hq.1], fun hnone => ?_⟩
  obtain ⟨hleft, hright⟩ := List.append_eq_nil_iff.mp (show r.failures ++ q.failures = [] from hnone)
  simp [Rebuilt.append, hr.2 hleft, hq.2 hright]

theorem tells_item {key : Key} {o : Outcome} {p : Part Value.Pair} (h : Part.Tells (fun w => (key, w)) o p) :
    (Rebuilt.item key o).Tells [p] :=
  ⟨by simp [Rebuilt.item, h.1], fun hnone => by simp [Rebuilt.item, h.2 hnone]⟩

/-- The outcome of an object is the report of its parts. -/
theorem Tells.report (h : r.Tells parts) :
    (if r.failures.isEmpty then .ok (.mapping r.entries) else .error r.failures) = Part.report Value.ofPairs parts := by
  simp only [Part.report, ← h.1, List.isEmpty_iff]
  split_ifs with hnone
  · rw [h.2 hnone, Value.ofPairs]
  · rfl

end Rebuilt

namespace Env

variable {env : Env} {config : Config} {es : List Entry}

/-- What a declared property adds. A key that is given reports on its item; of the absent ones only a required key is
a failure, and a default takes the place of the item. -/
def propertyPart (env : Env) (config : Config) (es : List Entry) (p : Property Schema) :
    Except Fault (Part Value.Pair) :=
  match Entry.given? config.exactOptional es p.key p.presence with
  | some e => (env.validate config p.value e.item).map (.under (.ofKey p.key) fun w => (p.key, w))
  | none =>
    match p.presence with
    | .required =>
      .ok (.failure ⟨[.ofKey p.key], "must be present", "required[" ++ p.key.text ++ "]", .requiredKeyMissing, .null⟩)
    | .optional => .ok .nothing
    | .defaultable d => env.byDefault config d p.value (.ofKey p.key) fun w => (p.key, w)

/-- The values that the index signature of an object has under a key, if it takes the key. -/
def indexed (env : Env) (config : Config) (o : ObjectShape Schema) (key : Key) : Except Fault (Option Schema) :=
  match o.index with
  | none => .ok none
  | some i => do pure (if ← env.accepts config i.key key.toValue then some i.value else none)

/-- What an entry adds whose key is not declared: the report on its item under the index signature, or what the policy
says of such keys. -/
def entryPart (env : Env) (config : Config) (o : ObjectShape Schema) (e : Entry) : Except Fault (Part Value.Pair) := do
  match ← env.indexed config o e.key with
  | some value => (env.validate config value e.item).map (.under (.ofKey e.key) fun w => (e.key, w))
  | none =>
    match o.undeclared with
    | .reject =>
      pure (.failure ⟨[.ofKey e.key], "must be removed (undeclared key " ++ e.key.text ++ ")", "undeclared",
        .undeclaredKey, e.raw⟩)
    | .ignore => pure (.output (e.key, e.item))
    | .delete => pure .nothing

theorem property_tells (p : Property Schema) :
    Agree (· = ·) (fun r part => r.Tells [part])
      (Check.property config env.hooks .root es ⟨p.key, env.check config p.value, p.presence⟩)
      (env.propertyPart config es p) := by
  unfold Check.property propertyPart
  rw [show Check.given? config es ⟨p.key, env.check config p.value, p.presence⟩ =
    Entry.given? config.exactOptional es p.key p.presence from rfl]
  cases Entry.given? config.exactOptional es p.key p.presence with
  | some e => exact (inside_tells (.ofKey p.key) e.item).mapLeft fun _ _ h => Rebuilt.tells_item h
  | none =>
    obtain ⟨key, value, presence⟩ := p
    cases presence with
    | required => exact ⟨rfl, nofun⟩
    | optional => exact ⟨rfl, fun _ => rfl⟩
    | defaultable d => exact (default_tells d (.ofKey key)).mapLeft fun _ _ h => Rebuilt.tells_item h

theorem properties_tell (ps : List (Property Schema)) :
    Agree (· = ·) Rebuilt.Tells
      (Check.properties config env.hooks .root es (ps.map fun p => ⟨p.key, env.check config p.value, p.presence⟩))
      (ps.mapM (env.propertyPart config es)) := by
  induction ps with
  | nil => exact Rebuilt.tells_empty
  | cons p ps ih =>
    rw [List.mapM_cons]
    exact (property_tells p).bind fun _ _ hr => ih.bind fun _ _ hq => hr.append hq

theorem undeclared_tells (o : ObjectShape Schema) (e : Entry) :
    Agree (· = ·) (fun r part => r.Tells [part]) (Check.undeclared (env.shapeChecks config o) .root e)
      (env.entryPart config o e) := by
  have policy : Agree (· = ·) (fun r part => r.Tells [part])
      (Check.undeclared { env.shapeChecks config o with index := none } .root e)
      (env.entryPart config { o with index := none } e) := by
    unfold shapeChecks
    cases o.undeclared with
    | reject => exact ⟨rfl, nofun⟩
    | ignore => exact ⟨rfl, fun _ => rfl⟩
    | delete => exact ⟨rfl, fun _ => rfl⟩
  unfold Check.undeclared Check.indexTakes entryPart indexed shapeChecks
  cases hi : o.index with
  | none => exact policy
  | some i =>
    dsimp only [Option.map_some]
    rw [show (env.check config i.key).accepts (Visit.root.renewed) e.key.toValue =
      env.accepts config i.key e.key.toValue from rfl]
    cases env.accepts config i.key e.key.toValue with
    | error f => exact rfl
    | ok taken =>
      cases taken with
      | false => exact policy
      | true => exact (inside_tells (.ofKey e.key) e.item).mapLeft fun _ _ h => Rebuilt.tells_item h

theorem undeclaredAll_tells (o : ObjectShape Schema) (es : List Entry) :
    Agree (· = ·) Rebuilt.Tells (Check.undeclaredAll (env.shapeChecks config o) .root es)
      ((es.filter fun e => !o.declares e.key).mapM (env.entryPart config o)) := by
  induction es with
  | nil => exact Rebuilt.tells_empty
  | cons e es ih =>
    unfold Check.undeclaredAll
    rw [shapeChecks_declares]
    cases hdeclared : o.declares e.key with
    | true =>
      rw [List.filter_cons_of_neg (by simp [hdeclared]), if_pos rfl, ← bind_pure (List.mapM _ _)]
      exact ih.bind fun _ _ hq => Rebuilt.tells_empty.append hq
    | false =>
      rw [List.filter_cons_of_pos (by simp [hdeclared]), if_neg Bool.false_ne_true, List.mapM_cons]
      exact (undeclared_tells o e).bind fun _ _ hr => ih.bind fun _ _ hq => hr.append hq

/-- Validation of an object reports on its keys side by side. It answers when all constraints are sound and all
defaults can be made. -/
theorem validate_object {o : ObjectShape Schema} {v : Value} {raw : List (Value × Value)} (hraw : v.entries? = some raw)
    (hes : List.Forall₂ Entry.Of es raw) (hkeys : (Entry.keys es).Nodup) :
    (env.validate config (.object o) v = do
      let declared ← o.properties.mapM (env.propertyPart config es)
      let others ← (es.filter fun e => !o.declares e.key).mapM (env.entryPart config o)
      pure (Part.report Value.ofPairs (declared ++ others))) ∧
    ((Schema.object o).Every (fun s => s.isRef = false ∧ s.Sound ∧ s.Supplied env.hooks) →
      ∃ report, env.validate config (.object o) v = .ok report) := by
  constructor
  · have hcollect : Entry.collect [] raw = (es, []) :=
      (Entry.collect_eq (by simp [Entry.keys])).mpr ⟨es, rfl, hes, hkeys⟩
    refine validate_of_run ?_
    rw [run, check_object, Check.object, hraw]
    dsimp only
    rw [hcollect]
    exact (properties_tell o.properties).bind fun _ _ hr => (undeclaredAll_tells o es).bind fun _ _ hq =>
      (hr.append hq).report
  · exact validate_reports

/-- An account of a person. -/
def account : ObjectShape Schema :=
  ⟨[⟨.name "name", .keyword .string, .required⟩, ⟨.name "age", .keyword .integer, .optional⟩,
      ⟨.name "limits", .object ⟨[⟨.name "low", .keyword .number, .required⟩], none, .ignore⟩,
        .defaultable ⟨⟨0, 0⟩, .mapping [], false⟩⟩],
    some ⟨.keyword .symbol, .keyword .boolean⟩, .reject⟩

/-- The name is missing, the age is none, the default lacks a part of its own, one key is undeclared and one symbol
holds no truth value. -/
theorem validate_object_account :
    let config : Config := { Config.default with defensiveDefaults := true }
    let flag : Symbol := ⟨⟨7, 0⟩, "flag"⟩
    let es : List Entry := [⟨.name "age", .string "age", .string "old"⟩, ⟨.name "5", .int 5, .null⟩,
      ⟨.symbol flag, .symbol flag, .int 1⟩]
    let v : Value := .mapping (es.map fun e => (e.raw, e.item))
    v.entries? = some (es.map fun e => (e.raw, e.item)) ∧
      List.Forall₂ Entry.Of es (es.map fun e => (e.raw, e.item)) ∧ (Entry.keys es).Nodup ∧
      (Schema.object account).Every (fun s => s.isRef = false ∧ s.Sound ∧ s.Supplied bare.hooks) ∧
      bare.validate config (.object account) v = .ok (.error
        [⟨[.name "name"], "must be present", "required[name]", .requiredKeyMissing, .null⟩,
          ⟨[.name "age"], "must be an integer (was \"old\")", "integer", .invalidType, .string "old"⟩,
          ⟨[.name "limits", .name "low"], "must be present", "required[low]", .requiredKeyMissing, .null⟩,
          ⟨[.name "5"], "must be removed (undeclared key 5)", "undeclared", .undeclaredKey, .int 5⟩,
          ⟨[.symbol flag], "must be a boolean (was 1)", "boolean", .invalidType, .int 1⟩]) ∧
      ∃ report, bare.validate config (.object account) v = .ok report := by
  intro config flag es v
  have hes : List.Forall₂ Entry.Of es (es.map fun e => (e.raw, e.item)) :=
    .cons ⟨rfl, rfl, rfl⟩ (.cons ⟨rfl, rfl, rfl⟩ (.cons ⟨rfl, rfl, rfl⟩ .nil))
  have hkeys : (Entry.keys es).Nodup := by decide
  have hs : (Schema.object account).Every fun s => s.isRef = false ∧ s.Sound ∧ s.Supplied bare.hooks := by
    refine .intro ⟨rfl, trivial, ?_⟩ ?_
    · intro p hp copy
      obtain rfl : p = ⟨⟨0, 0⟩, .mapping [], false⟩ := by simpa [account, Schema.defaults, Presence.default?] using hp
      exact ⟨_, rfl⟩
    · have limits : (Schema.object ⟨[⟨.name "low", .keyword .number, .required⟩], none, .ignore⟩).Every
          fun s => s.isRef = false ∧ s.Sound ∧ s.Supplied bare.hooks :=
        .intro ⟨rfl, trivial, fun _ hp => absurd hp List.not_mem_nil⟩
          (by simpa [Schema.parts, IndexSignature.parts] using every_keyword .number)
      simp only [account, Schema.parts, IndexSignature.parts, List.map_cons, List.map_nil, List.cons_append,
        List.nil_append, List.forall_mem_cons, List.not_mem_nil, IsEmpty.forall_iff, implies_true, and_true]
      exact ⟨every_keyword .string, every_keyword .integer, limits, every_keyword .symbol, every_keyword .boolean⟩
  obtain ⟨hequal, hanswers⟩ := @validate_object bare config _ account v _ rfl hes hkeys
  exact ⟨rfl, hes, hkeys, hs, hequal.trans rfl, hanswers hs⟩

end Env
end Schemata
