import Schemata.Proofs.Scope.Mirror

/-! The reading of orderly definitions, part by part. -/
namespace Schemata

/-- The schema of a keyword, or of a name that stands for one schema everywhere. -/
theorem Schema.ofKeyword_cases {name : String} {s : Schema} (h : Schema.ofKeyword? name = some s) :
    s.isWord = true ∨ s = .never := by
  obtain ⟨k, rfl⟩ | ⟨b, rfl⟩ | rfl := form_of_ofKeyword h
  · exact Or.inl rfl
  · exact Or.inl rfl
  · exact Or.inr rfl

namespace Mirror

variable (w : Mirror)

/-- What the text of a name is read as. -/
def Named (text : String) (s : Schema) : Prop :=
  (Value.isArrayName text = true ∧ s.isStructure = true) ∨
    Value.isArrayName text = false ∧ (Schema.ofKeyword? text = some s ∨
      Schema.ofKeyword? text = none ∧ ∃ r, s = .ref r ∧ Arenas.ref? w.left w.id text = some r)

/-- What a leaf is compared with in a union without looking behind names. -/
def Beside (b : Schema) : Prop :=
  b.isLeaf = true ∨ b.isStructure = true ∨
    ∃ name r, b = .ref r ∧ w.outlook.structures name = true ∧ Arenas.ref? w.left w.id name = some r

/-- What the form of a definition says about the schema that it is read as. -/
structure Kept (d : Value) (s : Schema) : Prop where
  isWord : d.isWord = true → s.isWord = true
  isLeaf : d.isLeaf = true → s.isLeaf = true
  isStructure : d.isStructure = true → s.isStructure = true
  operand : d.isOperand w.outlook = true → ∀ b ∈ s.branches, w.Beside b
  compound : d.isCompound = true → ∀ b ∈ s.branches, b.isPlain = false

/-- The second schema mirrors the first, which fits the definition. -/
def Shows (d : Value) (s t : Schema) : Prop := t = w.schema s ∧ w.Kept d s

variable {w}

theorem Named.isWord {text : String} {s : Schema} (h : w.Named text s) (htext : (Value.string text).isWord = true) :
    s.isWord = true := by
  rcases h with ⟨harray, -⟩ | ⟨harray, hs | ⟨hnone, -⟩⟩
  · simp [Value.isWord, harray] at htext
  · simpa [Value.isWord, harray, hs] using htext
  · simp [Value.isWord, hnone] at htext

/-- A text is read as its form says. -/
theorem Named.kept {text : String} {s : Schema} (h : w.Named text s) : w.Kept (.string text) s := by
  have hword := h.isWord
  rcases h with ⟨harray, hs⟩ | ⟨harray, hs | ⟨hnone, r, rfl, hr⟩⟩
  · have hbranches : s.branches = [s] := by cases s <;> first | rfl | simp [Schema.isStructure] at hs
    refine ⟨hword, fun h => ?_, fun _ => hs, fun _ => ?_, fun _ => ?_⟩
    · simp [Value.isLeaf, Value.listed?, Value.isWord, harray] at h
    · rw [hbranches, List.forall_mem_singleton]
      exact Or.inr (Or.inl hs)
    · rw [hbranches, List.forall_mem_singleton]
      cases s <;> first | rfl | simp [Schema.isStructure] at hs
  · have hbranches : ∀ b ∈ s.branches, b.isLeaf = true := by
      rcases Schema.ofKeyword_cases hs with hs | rfl
      · have hself : s.branches = [s] := by cases s <;> first | rfl | simp [Schema.isWord] at hs
        rw [hself, List.forall_mem_singleton]
        exact Schema.isLeaf_of_isWord hs
      · simp [Schema.never, Schema.branches]
    refine ⟨hword, fun hleaf => ?_, fun h => ?_, fun _ b hb => Or.inl (hbranches b hb), fun h => ?_⟩
    · exact Schema.isLeaf_of_isWord (hword (by simpa [Value.isLeaf, Value.listed?] using hleaf))
    · simp [Value.isStructure, harray] at h
    · simp [Value.isCompound, Value.isStructure, harray, hs] at h
  · refine ⟨hword, fun h => ?_, fun h => ?_, fun h => ?_, fun _ => by simp [Schema.branches, Schema.isPlain]⟩
    · simp [Value.isLeaf, Value.listed?, Value.isWord, hnone] at h
    · simp [Value.isStructure, harray] at h
    · have hstructures : w.outlook.structures text = true := by
        simpa [Value.isOperand, Value.isLeaf, Value.listed?, Value.isWord, Value.isStructure, harray, hnone] using h
      rw [show (Schema.ref r).branches = [.ref r] from rfl, List.forall_mem_singleton]
      exact Or.inr (Or.inr ⟨text, r, rfl, hstructures, hr⟩)

theorem Kept.literal {d : Value} (v : Value) (hstructure : d.isStructure = false) (hcompound : d.isCompound = false) :
    w.Kept d (.literal v) :=
  ⟨fun _ => rfl, fun _ => rfl, by simp [hstructure], fun _ => List.forall_mem_singleton.mpr (Or.inl rfl),
    by simp [hcompound]⟩

/-- An object stands for a mapping. -/
theorem Kept.mapping {entries : List (Value × Value)} {s : Schema} (hs : s.isStructure = true) :
    w.Kept (.mapping entries) s := by
  have hself : s.branches = [s] := by cases s <;> first | rfl | simp [Schema.isStructure] at hs
  refine ⟨fun h => ?_, fun h => ?_, fun _ => hs, fun _ => ?_, fun _ => ?_⟩
  · simp [Value.isWord] at h
  · simp [Value.isLeaf, Value.listed?, Value.isWord] at h
  · rw [hself, List.forall_mem_singleton]
    exact Or.inr (Or.inl hs)
  · rw [hself, List.forall_mem_singleton]
    cases s <;> first | rfl | simp [Schema.isStructure] at hs

/-- A list is read as its reading says. -/
theorem Kept.of_reading {d : Value} {items : List Value} {s : Schema} (hd : d.listed? = some items)
    (hconstrained : Engine.readingOf items = .constrained → ∀ head rest, items = head :: rest → head.isWord = true →
      s.isLeaf = true)
    (htuple : Engine.readingOf items = .tuple → s.isStructure = true)
    (hliterals : Engine.readingOf items = .literals → ∀ b ∈ s.branches, b.isLeaf = true) : w.Kept d s := by
  have hword : d.isWord = false := by cases d <;> first | rfl | simp [Value.listed?] at hd
  have hself : s.isLeaf = true ∨ s.isStructure = true → s.branches = [s] := by
    intro h
    cases s <;> first | rfl | simp [Schema.isLeaf, Schema.isWord, Schema.isStructure] at h
  have hleaf : d.isLeaf = true → s.isLeaf = true := by
    intro h
    unfold Value.isLeaf at h
    rw [hd] at h
    cases items with
    | nil => simp [hword] at h
    | cons head rest =>
      dsimp only at h
      cases hreading : Engine.readingOf (head :: rest) <;> rw [hreading] at h <;> first | cases h | skip
      exact hconstrained hreading head rest rfl h
  have hstructure : d.isStructure = true → s.isStructure = true := by
    intro h
    refine htuple ?_
    cases d <;> simp only [Value.listed?, reduceCtorEq, Option.some.injEq] at hd
    all_goals
      subst hd
      simp only [Value.isStructure, Value.listed?, Option.map_some] at h
      split at h <;> simp_all
  refine ⟨by simp [hword], hleaf, hstructure, fun h => ?_, fun h => ?_⟩
  · unfold Value.isOperand at h
    rw [Bool.or_eq_true, Bool.or_eq_true] at h
    rcases h with (h | h) | h
    · rw [hself (Or.inl (hleaf h)), List.forall_mem_singleton]
      exact Or.inl (hleaf h)
    · rw [hself (Or.inr (hstructure h)), List.forall_mem_singleton]
      exact Or.inr (Or.inl (hstructure h))
    · refine fun b hb => Or.inl (hliterals ?_ b hb)
      cases d <;> simp only [Value.listed?, reduceCtorEq, Option.some.injEq] at hd
      all_goals
        subst hd
        simp only [Value.listed?, Option.map_some] at h
        split at h <;> simp_all
  · have h : d.isStructure = true := by
      cases d <;> simp_all [Value.isCompound, Value.listed?]
    rw [hself (Or.inr (hstructure h)), List.forall_mem_singleton]
    have hs := hstructure h
    cases s <;> first | rfl | simp [Schema.isStructure] at hs

end Mirror

namespace Engine

variable {w : Mirror}

theorem isArrayName_ofList (cs : List Char) : Value.isArrayName (String.ofList cs.reverse) = true ↔
    ∃ rest, cs = ']' :: '[' :: rest := by
  unfold Value.isArrayName
  rw [String.toList_ofList, List.reverse_reverse]
  split
  · exact ⟨fun _ => ⟨_, rfl⟩, fun _ => rfl⟩
  · rename_i h
    refine ⟨fun h => by simp at h, ?_⟩
    rintro ⟨rest, rfl⟩
    exact (h rest rfl).elim

theorem isArrayName_eq_false {cs : List Char} (h : ∀ rest, cs = ']' :: '[' :: rest → False) :
    Value.isArrayName (String.ofList cs.reverse) = false := by
  rw [← Bool.not_eq_true, isArrayName_ofList]
  rintro ⟨rest, hrest⟩
  exact h rest hrest

theorem nameReversed_mirrors (hw : w.Sound) (cs : List Char) :
    Mirrors w (nameReversed (some w.id) cs) (nameReversed (some w.id) cs)
      fun s t => t = w.schema s ∧ w.Named (String.ofList cs.reverse) s := by
  fun_induction nameReversed (some w.id) cs with
  | case1 rest ih =>
    refine ih.bind fun s t hst => .pure ⟨?_, Or.inl ⟨(isArrayName_ofList _).mpr ⟨rest, rfl⟩, rfl⟩⟩
    rw [hst.1]
    exact (Schema.moved_array s).symm
  | case2 cs h name s hs =>
    have harray : Value.isArrayName name = false := isArrayName_eq_false h
    refine .pure ⟨?_, Or.inr ⟨harray, Or.inl hs⟩⟩
    rcases Schema.ofKeyword_cases hs with hword | rfl
    · exact (Schema.moved_word hword).symm
    · rfl
  | case3 cs h name hnone =>
    have harray : Value.isArrayName name = false := isArrayName_eq_false h
    refine (ref?_mirrors hw name).bind fun r q hrq => ?_
    obtain ⟨rfl, hr⟩ := hrq
    cases r with
    | none => exact .throw
    | some r => exact .pure ⟨rfl, Or.inr ⟨harray, Or.inr ⟨hnone, r, rfl, hr⟩⟩⟩

theorem name_mirrors (hw : w.Sound) (text : String) :
    Mirrors w (name (some w.id) text) (name (some w.id) text) fun s t => t = w.schema s ∧ w.Named text s := by
  have h := nameReversed_mirrors hw text.toList.reverse
  rwa [List.reverse_reverse, String.ofList_toList] at h

section Unions

variable {ss : List Schema}

/-- A union of leaves beside what they can be compared with, or of no leaves at all. -/
theorem union_mirrors (hw : w.Sound) (hss : (∀ s ∈ ss, ∀ b ∈ s.branches, w.Beside b) ∨
      ∀ s ∈ ss, ∀ b ∈ s.branches, b.isPlain = false) :
    Mirrors w (union (some w.id) ss) (union (some w.id) (ss.map w.schema))
      fun u t => t = w.schema u ∧ ∃ env : Env, env.union ss = .ok u := by
  refine Mirrors.env.bind fun env env' henv => .lift ?_
  have hbeside : ∀ b, w.Beside b → env.Beside w.moving env' b := by
    rintro b (hb | hb | ⟨name, r, rfl, hname, hr⟩)
    · exact Or.inl hb
    · exact Or.inr (Or.inl hb)
    · exact Or.inr (Or.inr ⟨r, rfl, hw.structures name r hname hr env env' henv⟩)
  have hunion : env'.union (ss.map w.schema) = (env.union ss).map w.schema := by
    refine Env.union_moved henv.hooks fun s hs hplain => ?_
    rcases hss with hss | hss
    · have hflat : ∀ t ∈ Schema.flat ss, w.Beside t := by
        intro t ht
        rcases Schema.mem_flat ht with ⟨u, hu, ht⟩ | ⟨rfl, -⟩
        · exact hss u hu t ht
        · exact Or.inl rfl
      refine ⟨?_, fun t ht => hbeside t (hflat t ht)⟩
      rcases hflat s hs with hleaf | hstructure | ⟨name, r, rfl, -⟩
      · exact hleaf
      · cases s <;> simp [Schema.isPlain, Schema.isStructure] at hplain hstructure
      · simp [Schema.isPlain] at hplain
    · rcases Schema.mem_flat hs with ⟨u, hu, hs⟩ | ⟨-, u, hu, b, hb, hplain⟩
      · simp [hss u hu s hs] at hplain
      · simp [hss u hu b hb] at hplain
  rw [hunion]
  cases hu : env.union ss with
  | error e => trivial
  | ok u => exact ⟨rfl, env, hu⟩

theorem literals_mirrors (hw : w.Sound) (vs : List Value) :
    Mirrors w (literals (some w.id) vs) (literals (some w.id) vs)
      fun s t => t = w.schema s ∧ ∀ b ∈ s.branches, b.isLeaf = true := by
  unfold literals
  split_ifs
  · exact .pure ⟨rfl, by simp [Schema.never, Schema.branches]⟩
  · have hleaves : ∀ s ∈ vs.map Schema.literal, s.isLeaf = true := List.forall_mem_map.mpr fun v _ => rfl
    have hself : (vs.map Schema.literal).map w.schema = vs.map Schema.literal := by
      rw [List.map_map]
      rfl
    have hbeside : ∀ s ∈ vs.map Schema.literal, ∀ b ∈ s.branches, w.Beside b :=
      List.forall_mem_map.mpr fun v _ b hb => Or.inl (List.mem_singleton.mp hb ▸ rfl)
    have hunion := union_mirrors hw (Or.inl hbeside)
    rw [hself] at hunion
    refine hunion.mono fun u t h => ⟨h.1, ?_⟩
    obtain ⟨env, hu⟩ := h.2
    exact Env.union_leaves hleaves hu

end Unions

end Engine

section Overlaps

variable {env env' : Env} {key : Schema}

theorem Schema.checkWith_leaf (hhooks : env'.hooks = env.hooks) (hkey : key.isLeaf = true) (config : Config)
    (follow follow' : Ref → Check) : key.checkWith env' config follow' = key.checkWith env config follow := by
  have word : ∀ {s : Schema}, s.isWord = true → s.checkWith env' config follow' = s.checkWith env config follow := by
    intro s hs
    cases s <;> first | rfl | simp [isWord] at hs
  cases key with
  | constrained s cs => rw [checkWith, checkWith, word hkey, hhooks]
  | _ => exact word hkey

theorem Env.admits_leaf (hhooks : env'.hooks = env.hooks) (htrial : env'.trial = env.trial) (hkey : key.isLeaf = true)
    (v : Value) : env'.admits key v = env.admits key v := by
  have hcheck : ∀ config : Config, env'.check config key = env.check config key := by
    intro config
    unfold Env.check
    cases config.maxDepth with
    | zero => exact Schema.checkWith_leaf hhooks hkey config _ _
    | succ n => exact Schema.checkWith_leaf hhooks hkey config _ _
  unfold Env.admits Env.accepts Env.run
  rw [htrial]
  simp only [hcheck]

namespace Engine

/-- Whether leaves of an object overlap its index signature can be told or not, whatever stands in the arenas. -/
theorem warnOverlaps_leaves {id : Nat} {index : IndexSignature Schema} (hkey : index.key.isLeaf = true)
    (hvalue : index.value.isLeaf = true) (m : Moving) (n : Nat) {ps : List (Property Schema)}
    (hps : ∀ p ∈ ps, p.value.isLeaf = true) (s t : Session) (hhooks : t.hooks = s.hooks)
    (hconfig : t.configOf (some id) = s.configOf (some id)) :
    (∃ a, ((warnOverlaps (some id) index ps).run s).1 = .ok a) ↔
      ∃ a, ((warnOverlaps (some id) index (ps.map (Property.moved m n))).run t).1 = .ok a := by
  induction ps generalizing s t with
  | nil => exact ⟨fun _ => ⟨(), rfl⟩, fun _ => ⟨(), rfl⟩⟩
  | cons p ps ih =>
    obtain ⟨hp, hps⟩ := List.forall_mem_cons.mp hps
    have hadmits : (t.env (some id)).admits index.key p.key.toValue = (s.env (some id)).admits index.key p.key.toValue :=
      Env.admits_leaf hhooks hconfig hkey p.key.toValue
    have hsubset : (t.env (some id)).isSubset p.value index.value = (s.env (some id)).isSubset p.value index.value :=
      Env.isSubset_leaves hhooks hp hvalue
    have hmoved : Property.moved m n p = ⟨p.key, p.value, p.presence.moved n⟩ := by
      rw [Property.moved, Schema.moved_leaf hp]
    rw [List.map_cons, hmoved]
    unfold warnOverlaps
    simp only [run_bind, run_env, run_lift, hadmits, hsubset]
    cases (s.env (some id)).admits index.key p.key.toValue with
    | error e => simp
    | ok taken =>
      cases taken with
      | false => exact ih hps s t hhooks hconfig
      | true =>
        simp only [if_true, run_bind, run_lift]
        cases (s.env (some id)).isSubset p.value index.value with
        | error e => simp
        | ok inside =>
          cases inside with
          | true => exact ih hps s t hhooks hconfig
          | false => exact ih hps _ _ hhooks hconfig

end Engine

end Overlaps

namespace Engine

variable {w : Mirror}

/-- The object under construction in the second session. -/
def Draft.moved (m : Moving) (n : Nat) (draft : Draft) : Draft :=
  ⟨draft.policy, draft.index.map (IndexSignature.moved m n), draft.properties.map (Property.moved m n)⟩

/-- The parts of an object under construction whose members are of one kind. -/
def Draft.Keeps (draft : Draft) : Value.Membership → Prop
  | .properties => draft.index = none
  | .signature => draft.properties = []
  | .leaves => (∀ i, draft.index = some i → i.key.isLeaf = true ∧ i.value.isLeaf = true) ∧
      ∀ p ∈ draft.properties, p.value.isLeaf = true

/-- The keys of the index signature have the same domains in both sessions. -/
def Draft.Bounded (w : Mirror) (draft : Draft) : Prop :=
  ∀ i, draft.index = some i → ∀ env env', w.Faces env env' → env'.domains? (w.schema i.key) = env.domains? i.key

section Elements

theorem spliced_moved (m : Moving) (n : Nat) (seen : Bool) (es : List (Element Schema)) :
    spliced seen (es.map (Element.moved m n)) = ((spliced seen es).1, (spliced seen es).2.map (Element.moved m n)) := by
  induction es generalizing seen with
  | nil => rfl
  | cons e es ih =>
    rw [List.map_cons]
    unfold spliced
    have hrole : (Element.moved m n e).role = e.role.moved n := rfl
    rw [hrole, Role.moved_isVariadic, Role.moved_isLeading]
    dsimp only
    rw [ih, List.map_cons]
    split_ifs <;> rfl

/-- What is spread is no reference. -/
theorem spreadOf_mirrors (d : Value) {s : Schema} (hs : s.isStructure = true) :
    Mirrors w (spreadOf (some w.id) d s) (spreadOf (some w.id) d (w.schema s))
      fun es fs => fs = es.map (Element.moved w.moving w.raised) := by
  have hderef : ∀ (env : Env) (s : Schema), s.isStructure = true → env.deref s = .ok s := by
    intro env s hs
    cases s <;> first | rfl | simp [Schema.isStructure] at hs
  unfold spreadOf
  refine Mirrors.env.bind fun env env' _ => ?_
  rw [hderef env s hs, hderef env' (w.schema s) ((Schema.moved_isStructure s).trans hs)]
  cases s with
  | tuple es =>
    refine Mirrors.bind (R := fun s t => s = Schema.tuple es ∧ t = w.schema (.tuple es)) (.pure ⟨rfl, rfl⟩) ?_
    rintro _ _ ⟨rfl, rfl⟩
    rw [Mirror.schema, Schema.moved_tuple]
    exact .pure rfl
  | object o =>
    refine Mirrors.bind (R := fun s t => s = Schema.object o ∧ t = w.schema (.object o)) (.pure ⟨rfl, rfl⟩) ?_
    rintro _ _ ⟨rfl, rfl⟩
    rw [Mirror.schema, Schema.moved_object]
    exact .throw
  | _ => simp [Schema.isStructure] at hs

theorem propertyKey_mirrors (raw : Value) : Mirrors w (propertyKey raw) (propertyKey raw) (· = ·) := by
  unfold propertyKey
  split
  · exact .pure rfl
  · split
    · exact .pure rfl
    · exact .throw

theorem policyOf_mirrors (d : Value) : Mirrors w (policyOf d) (policyOf d) (· = ·) := by
  unfold policyOf
  split
  · exact .pure rfl
  · exact .throw

theorem propertyMake_mirrors (key : Key) (s : Schema) (presence : Presence) :
    Mirrors w (lift (Property.make key s presence)) (lift (Property.make key (w.schema s) (presence.moved w.raised)))
      fun p q => q = p.moved w.moving w.raised ∧ p.value = s := by
  unfold Property.make
  split
  · exact .throw
  · exact .pure ⟨rfl, rfl⟩

variable {head plain : Engine Schema} {firstOrderly wholeOrderly : Bool} {d : Value}

section Places

variable (hhead : firstOrderly = true → Mirrors w head head fun s t =>
    t = w.schema s ∧ ((d.listed?.bind List.head?).any Value.isLeaf = true → s.isLeaf = true))
  (hplain : wholeOrderly = true → Mirrors w plain plain (w.Shows d))
  (hform : d.fitsForm firstOrderly wholeOrderly = true)

include hhead hplain hform

theorem element_mirrors (hw : w.Sound) (seen : Bool) :
    Mirrors w (element (some w.id) id seen d head plain) (element (some w.id) id seen d head plain)
      fun e f => f = e.moved w.moving w.raised := by
  unfold element
  cases optionalElement? d with
  | some text =>
    refine (name_mirrors hw text).bind fun s t hst => .pure ?_
    rw [hst.1]
    rfl
  | none =>
    dsimp only
    unfold Value.fitsForm at hform
    cases hd : d.form with
    | optional =>
      rw [hd] at hform
      refine (hhead hform).bind fun s t hst => .pure ?_
      rw [hst.1]
      rfl
    | default source =>
      rw [hd] at hform
      obtain ⟨hfirst, hsource⟩ := Bool.and_eq_true_iff.mp hform
      refine (hhead hfirst).bind fun s t hst => (producerOf_mirrors hsource).bind fun p q hpq => .pure ?_
      rw [hst.1, hpq]
      rfl
    | plain =>
      rw [hd] at hform
      refine (hplain hform).bind fun s t hst => .pure ?_
      rw [hst.1]
      cases seen <;> rfl

theorem property_mirrors (raw : Value) :
    Mirrors w (property id raw d head plain) (property id raw d head plain)
      fun p q => q = p.moved w.moving w.raised ∧ (d.hasLeaf = true → p.value.isLeaf = true) := by
  unfold property
  refine (propertyKey_mirrors _).bind ?_
  rintro ⟨key, optional⟩ _ rfl
  dsimp only
  unfold Value.fitsForm at hform
  unfold Value.hasLeaf
  cases hd : d.form with
  | optional =>
    rw [hd] at hform
    refine (hhead hform).bind fun s t hst => ?_
    rw [hst.1]
    exact (propertyMake_mirrors key s .optional).mono fun p q hpq => ⟨hpq.1, fun h => hpq.2 ▸ hst.2 h⟩
  | default source =>
    rw [hd] at hform
    obtain ⟨hfirst, hsource⟩ := Bool.and_eq_true_iff.mp hform
    dsimp only
    split_ifs
    · exact .throw
    · refine (hhead hfirst).bind fun s t hst => (producerOf_mirrors hsource).bind fun p q hpq => ?_
      rw [hst.1, hpq]
      exact (propertyMake_mirrors key s (.defaultable p)).mono fun p q hpq => ⟨hpq.1, fun h => hpq.2 ▸ hst.2 h⟩
  | plain =>
    rw [hd] at hform
    refine (hplain hform).bind fun s t hst => ?_
    rw [hst.1]
    have hpresence : (if optional = true then Presence.optional else .required).moved w.raised =
        if optional = true then Presence.optional else .required := by cases optional <;> rfl
    have hmake := propertyMake_mirrors (w := w) key s (if optional = true then .optional else .required)
    rw [hpresence] at hmake
    exact hmake.mono fun p q hpq => ⟨hpq.1, fun h => hpq.2 ▸ hst.2.isLeaf h⟩

end Places

section Objects

theorem normalized_moved (m : Moving) (n : Nat) (key value : Schema) :
    (IndexSignature.normalized key value).moved m n = .normalized (key.moved m n) (value.moved m n) := by
  unfold IndexSignature.normalized
  cases key with
  | keyword k => cases k <;> rfl
  | object o => rw [Schema.moved_object, IndexSignature.moved, Schema.moved_object]
  | tuple es => rw [Schema.moved_tuple, IndexSignature.moved, Schema.moved_tuple]
  | _ => rfl

/-- An index signature whose keys no name of the batch stands for. -/
theorem normalized_bounded (hw : w.Sound) {keys : String} {key : Schema} (hkeys : w.outlook.defines keys = false)
    (hkey : w.Named keys key) (value : Schema) {env env' : Env} (henv : w.Faces env env') :
    env'.domains? (w.schema (IndexSignature.normalized key value).key) =
      env.domains? (IndexSignature.normalized key value).key := by
  rcases hkey with ⟨-, hkey⟩ | ⟨-, hkey | ⟨-, r, rfl, hr⟩⟩
  · cases key with
    | object o =>
      show env'.domains? ((Schema.object o).moved w.moving w.raised) = env.domains? (.object o)
      rw [Schema.moved_object]
      rfl
    | tuple es =>
      show env'.domains? ((Schema.tuple es).moved w.moving w.raised) = env.domains? (.tuple es)
      rw [Schema.moved_tuple]
      rfl
    | _ => simp [Schema.isStructure] at hkey
  · rcases Schema.ofKeyword_cases hkey with hword | rfl
    · cases key with
      | keyword k => cases k <;> rfl
      | literal v => rfl
      | _ => simp [Schema.isWord] at hword
    · rfl
  · exact hw.domains keys r hkeys hr env env' henv

theorem normalized_leaf {key value : Schema} (hkey : key.isWord = true) :
    (IndexSignature.normalized key value).key.isLeaf = true := by
  cases key with
  | keyword k => cases k <;> rfl
  | literal v => rfl
  | _ => simp [Schema.isWord] at hkey

variable {raw : Value}

section Member

variable (hhead : firstOrderly = true → Mirrors w head head fun s t =>
    t = w.schema s ∧ ((d.listed?.bind List.head?).any Value.isLeaf = true → s.isLeaf = true))
  (hplain : wholeOrderly = true → Mirrors w plain plain (w.Shows d))
  (hform : ∀ keys, Value.indexed? raw = some keys → w.outlook.defines keys = false ∧ wholeOrderly = true)
  (hform' : Value.indexed? raw = none → raw.isToken "+" = false → d.fitsForm firstOrderly wholeOrderly = true)

include hhead hplain hform hform'

/-- A member leaves the object under construction of its kind. -/
theorem member_mirrors (hw : w.Sound) {draft : Draft} {k : Value.Membership} (hbounded : draft.Bounded w)
    (hkeeps : draft.Keeps k) (hfits : raw.isToken "+" = true ∨ Value.fitsMembership raw d k = true) :
    Mirrors w (member (some w.id) id draft raw d head plain)
      (member (some w.id) id (draft.moved w.moving w.raised) raw d head plain)
      fun draft draft' => draft' = draft.moved w.moving w.raised ∧ draft.Bounded w ∧ draft.Keeps k := by
  unfold member
  by_cases hpolicy : raw.isToken "+" = true
  · rw [if_pos hpolicy, if_pos hpolicy]
    refine (policyOf_mirrors _).bind ?_
    rintro u _ rfl
    exact .pure ⟨rfl, hbounded, by cases k <;> exact hkeeps⟩
  · rw [if_neg hpolicy, if_neg hpolicy]
    have hfits := hfits.resolve_left hpolicy
    have hindexed : Value.indexed? raw = indexName? raw := if_neg hpolicy
    unfold Value.fitsMembership at hfits
    rw [hindexed] at hform hform' hfits
    cases hname : indexName? raw with
    | some keys =>
      rw [hname] at hfits
      obtain ⟨hdefines, hwhole⟩ := hform keys hname
      have hsome : (draft.moved w.moving w.raised).index.isSome = draft.index.isSome := by simp [Draft.moved]
      dsimp only
      rw [hsome]
      split_ifs
      · exact .throw
      · refine (name_mirrors hw keys).bind fun key key' hkey => (hplain hwhole).bind fun s t hst => .pure ⟨?_, ?_, ?_⟩
        · rw [hkey.1, hst.1]
          simp [Draft.moved, Mirror.schema, normalized_moved]
        · rintro i ⟨⟩ env env' henv
          exact normalized_bounded hw hdefines hkey.2 s henv
        · cases k with
          | properties => simp at hfits
          | signature => exact hkeeps
          | leaves =>
            obtain ⟨hword, hleaf⟩ := Bool.and_eq_true_iff.mp hfits
            refine ⟨?_, hkeeps.2⟩
            rintro i ⟨⟩
            refine ⟨normalized_leaf (hkey.2.isWord hword), ?_⟩
            rw [IndexSignature.normalized_value]
            exact hst.2.isLeaf hleaf
    | none =>
      rw [hname] at hfits
      refine (property_mirrors hhead hplain (hform' hname (by simpa using hpolicy)) raw).bind fun p q hpq =>
        .pure ⟨?_, hbounded, ?_⟩
      · rw [hpq.1]
        simp [Draft.moved]
      · cases k with
        | properties => exact hkeeps
        | signature => simp at hfits
        | leaves => exact ⟨hkeeps.1, List.forall_mem_append.mpr ⟨hkeeps.2, List.forall_mem_singleton.mpr (hpq.2 hfits)⟩⟩

end Member

/-- Of an object of one kind, an overlap is told alike in both sessions. -/
theorem overlap_like {draft : Draft} {k : Value.Membership} (hkeeps : draft.Keeps k) {index : IndexSignature Schema}
    (hindex : draft.index = some index) (id : Nat) (m : Moving) (n : Nat) {o q : ObjectShape Schema}
    (ho : o.properties = draft.properties) (hq : q.properties = draft.properties.map (Property.moved m n)) :
    (DeferredCheck.overlap o index).Like id (.overlap q (index.moved m n)) := by
  refine ⟨⟨_, _, rfl⟩, fun s t hhooks hconfig => ?_⟩
  unfold DeferredCheck.Passes runDeferred
  dsimp only
  rw [ho, hq]
  cases k with
  | properties => simp [Draft.Keeps, hindex] at hkeeps
  | signature =>
    rw [show draft.properties = [] from hkeeps]
    exact ⟨fun _ => ⟨(), rfl⟩, fun _ => ⟨(), rfl⟩⟩
  | leaves =>
    obtain ⟨hkey, hvalue⟩ := hkeeps.1 index hindex
    have hmoved : index.moved m n = index := by
      rw [IndexSignature.moved, Schema.moved_leaf hkey, Schema.moved_leaf hvalue]
    rw [hmoved]
    exact warnOverlaps_leaves hkey hvalue m n hkeeps.2 s t hhooks hconfig

/-- An object is made alike when the keys of its index signature have the same domains. -/
theorem makeObject_moved {m : Moving} {n : Nat} {env env' : Env} {o : ObjectShape Schema}
    (h : ∀ i, o.index = some i → env'.domains? (i.key.moved m n) = env.domains? i.key) :
    Agree (fun _ _ => True) (fun s t => t = s.moved m n ∧ s.isStructure = true) (env.makeObject o)
      (env'.makeObject (o.moved m n)) := by
  have hobject : Schema.object (o.moved m n) = (Schema.object o).moved m n := (Schema.moved_object o).symm
  unfold Env.makeObject
  rw [ObjectShape.moved_keys, hobject]
  cases ObjectShape.repeatedKey? [] o.keys with
  | some key => trivial
  | none =>
    dsimp only [ObjectShape.moved]
    cases hindex : o.index with
    | none => exact ⟨rfl, rfl⟩
    | some i =>
      dsimp only [Option.map_some, IndexSignature.moved]
      rw [h i hindex]
      cases env.domains? i.key with
      | error e => trivial
      | ok d =>
        cases d with
        | none => exact ⟨rfl, rfl⟩
        | some d =>
          show Agree _ _ (if d.subset ObjectShape.keyDomains then _ else _)
            (if d.subset ObjectShape.keyDomains then _ else _)
          split_ifs
          · exact ⟨rfl, rfl⟩
          · trivial

/-- The object that a draft has come to. -/
theorem finish_mirrors {draft : Draft} {k : Value.Membership} (hbounded : draft.Bounded w) (hkeeps : draft.Keeps k) :
    Mirrors w (finish (some w.id) draft) (finish (some w.id) (draft.moved w.moving w.raised))
      fun s t => t = w.schema s ∧ s.isStructure = true := by
  have hshape : (⟨(draft.moved w.moving w.raised).properties, (draft.moved w.moving w.raised).index,
      (draft.moved w.moving w.raised).policy⟩ : ObjectShape Schema) =
        (⟨draft.properties, draft.index, draft.policy⟩ : ObjectShape Schema).moved w.moving w.raised := rfl
  unfold finish buildObject
  rw [hshape]
  refine Mirrors.env.bind fun env env' henv => ?_
  refine Mirrors.bind (R := fun s t => t = w.schema s ∧ s.isStructure = true) (.lift ?_) fun s t hst => ?_
  · exact makeObject_moved fun i hi => hbounded i hi env env' henv
  · obtain ⟨rfl, hs⟩ := hst
    dsimp only [ObjectShape.moved]
    cases hindex : draft.index with
    | none => exact .pure ⟨rfl, hs⟩
    | some index =>
      refine (defer_mirrors (overlap_like hkeeps hindex w.id w.moving w.raised rfl rfl)).bind ?_
      rintro _ _ ⟨rfl, rfl⟩
      exact .pure ⟨rfl, hs⟩

end Objects

end Elements

section Lists

variable {items : List Value} {head : Engine Schema} {operands : Engine (List Schema)}
  {elements : Engine (List (Element Schema))} {first each all : Bool}

/-- A list is put together alike when its parts are read alike. -/
theorem assemble_mirrors (hw : w.Sound) {d : Value} (hd : d.listed? = some items) (whole : Value)
    (hhead : first = true → Mirrors w head head fun s t => t = w.schema s ∧ ∀ d ds, items = d :: ds → w.Kept d s)
    (hoperands : each = true → Mirrors w operands operands fun ss ts =>
      ts = ss.map w.schema ∧ List.Forall₂ w.Kept (Value.operands items) ss)
    (helements : all = true → Mirrors w elements elements fun es fs =>
      fs = es.map (Element.moved w.moving w.raised))
    (h : Value.listOrderly w.outlook items first each all = true) :
    Mirrors w (assemble (some w.id) id whole items head operands elements)
      (assemble (some w.id) id whole items head operands elements) (w.Shows d) := by
  unfold Value.listOrderly at h
  unfold assemble
  cases hreading : readingOf items with
  | literals =>
    refine (literals_mirrors hw _).mono fun s t hst => ⟨hst.1, ?_⟩
    exact .of_reading hd (by simp [hreading]) (by simp [hreading]) fun _ => hst.2
  | operation isUnion =>
    rw [hreading] at h
    simp only [Bool.and_eq_true, Bool.or_eq_true, List.all_eq_true] at h
    obtain ⟨⟨rfl, heach⟩, hkinds⟩ := h
    refine (hoperands heach).bind fun ss ts hss => ?_
    rw [hss.1]
    refine (union_mirrors hw ?_).mono fun u t hut => ⟨hut.1, .of_reading hd ?_ ?_ ?_⟩
    · refine hkinds.imp (fun h s hs => ?_) fun h s hs => ?_
      · obtain ⟨d, hd, hkept⟩ := forall₂_exists_right hss.2 hs
        exact hkept.operand (h d hd)
      · obtain ⟨d, hd, hkept⟩ := forall₂_exists_right hss.2 hs
        exact hkept.compound (h d hd)
    all_goals simp [hreading]
  | mixed => exact .throw
  | constrained =>
    rw [hreading] at h
    refine (hhead h).bind fun s t hst => .pure ⟨?_, .of_reading hd ?_ ?_ ?_⟩
    · rw [hst.1]
      exact (Schema.moved_constrain s _).symm
    · intro _ d ds hitems hword
      have hs := (hst.2 d ds hitems).isWord hword
      cases s <;> simp only [Schema.isWord, Bool.false_eq_true] at hs
      all_goals
        unfold Schema.constrain
        split <;> first | rfl | simp_all
    all_goals simp [hreading]
  | misplaced => exact .throw
  | tuple =>
    rw [hreading] at h
    refine (helements h).bind fun es fs hes => .lift ?_
    rw [hes, Schema.makeTuple_moved]
    unfold Schema.makeTuple
    split
    · trivial
    · exact ⟨rfl, .of_reading hd (by simp [hreading]) (fun _ => rfl) (by simp [hreading])⟩

end Lists

section Definitions

variable (policy : Policy)

mutual
/-- An orderly definition is read alike in twin sessions. -/
theorem read_mirrors (hw : w.Sound) : (d : Value) → d.isOrderly w.outlook = true →
    Mirrors w (read (some w.id) policy id d) (read (some w.id) policy id d) (w.Shows d)
  | .string s, _ => (name_mirrors hw s).mono fun _ _ hst => ⟨hst.1, hst.2.kept⟩
  | .null, _ => .pure ⟨rfl, .literal _ rfl rfl⟩
  | .undefined, _ => .pure ⟨rfl, .literal _ rfl rfl⟩
  | .bool b, _ => .pure ⟨rfl, .literal _ rfl rfl⟩
  | .number n, _ => .pure ⟨rfl, .literal _ rfl rfl⟩
  | .symbol s, _ => .pure ⟨rfl, .literal _ rfl rfl⟩
  | .mapping entries, h => by
    obtain ⟨hmembers, hoverlaps⟩ := Bool.and_eq_true_iff.mp h
    obtain ⟨k, -, hk⟩ := List.any_eq_true.mp hoverlaps
    have hdraft : (Draft.mk policy none []).moved w.moving w.raised = ⟨policy, none, []⟩ := rfl
    have hread := readMembers_mirrors hw entries hmembers k (fun e he => List.all_eq_true.mp hk e he)
      ⟨policy, none, []⟩ (by simp [Draft.Bounded]) (by cases k <;> simp [Draft.Keeps])
    rw [hdraft] at hread
    refine hread.bind fun draft draft' hdraft => ?_
    rw [hdraft.1]
    exact (finish_mirrors hdraft.2.1 hdraft.2.2).mono fun s t hst => ⟨hst.1, .mapping hst.2⟩
  | .list items, h => assemble_mirrors hw rfl _ (readFirst_mirrors hw items) (readOperands_mirrors hw items)
      (readElements_mirrors hw _ false items) h
  | .tuple label items, h => assemble_mirrors hw rfl _ (readFirst_mirrors hw items) (readOperands_mirrors hw items)
      (readElements_mirrors hw _ false items) h
  | .record kind token parts, h => by
    have hnone := Schema.ofData?_record (by simpa [Value.isOrderly] using h) token parts
    unfold read
    rw [show id (Value.record kind token parts) = .record kind token parts from rfl, hnone]
    exact .throw
  | .bytes _, _ | .foreign _, _ | .callable _, _ | .choice _ _, _ | .back _ _, _ => .throw
  | .knot _ _, h => by simp [Value.isOrderly] at h
termination_by structural d => d
theorem readHead_mirrors (hw : w.Sound) : (d : Value) → d.headOrderly w.outlook = true →
    Mirrors w (readHead (some w.id) policy id d) (readHead (some w.id) policy id d) fun s t =>
      t = w.schema s ∧ ((d.listed?.bind List.head?).any Value.isLeaf = true → s.isLeaf = true)
  | .list items, h => (readFirst_mirrors hw items h).mono fun s t hst => ⟨hst.1, fun hleaf => by
      cases items with
      | nil => simp [Value.listed?] at hleaf
      | cons d ds => exact (hst.2 d ds rfl).isLeaf (by simpa [Value.listed?] using hleaf)⟩
  | .tuple _ items, h => (readFirst_mirrors hw items h).mono fun s t hst => ⟨hst.1, fun hleaf => by
      cases items with
      | nil => simp [Value.listed?] at hleaf
      | cons d ds => exact (hst.2 d ds rfl).isLeaf (by simpa [Value.listed?] using hleaf)⟩
  | .knot _ _, h => by simp [Value.headOrderly] at h
  | .null, _ | .undefined, _ | .bool _, _ | .number _, _ | .string _, _ | .symbol _, _ | .bytes _, _ | .foreign _, _
  | .callable _, _ | .choice _ _, _ | .mapping _, _ | .record _ _ _, _ | .back _ _, _ =>
    .pure ⟨rfl, by simp [Value.listed?]⟩
termination_by structural d => d
theorem readFirst_mirrors (hw : w.Sound) : (ds : List Value) → Value.firstOrderly w.outlook ds = true →
    Mirrors w (readFirst (some w.id) policy id ds) (readFirst (some w.id) policy id ds) fun s t =>
      t = w.schema s ∧ ∀ d rest, ds = d :: rest → w.Kept d s
  | d :: rest, h => (read_mirrors hw d h).mono fun s t hst => ⟨hst.1, fun d' rest' heq => by
      obtain ⟨rfl, -⟩ := List.cons.inj heq
      exact hst.2⟩
  | [], _ => .pure ⟨rfl, by simp⟩
termination_by structural ds => ds
theorem readOperands_mirrors (hw : w.Sound) : (ds : List Value) → Value.operandsOrderly w.outlook ds = true →
    Mirrors w (readOperands (some w.id) policy id ds) (readOperands (some w.id) policy id ds) fun ss ts =>
      ts = ss.map w.schema ∧ List.Forall₂ w.Kept (Value.operands ds) ss
  | [], _ => .pure ⟨rfl, .nil⟩
  | [d], h => (read_mirrors hw d h).bind fun s t hst => .pure ⟨by rw [hst.1]; rfl, .cons hst.2 .nil⟩
  | d :: _ :: rest, h => by
    obtain ⟨hd, hrest⟩ := Bool.and_eq_true_iff.mp h
    refine (read_mirrors hw d hd).bind fun s t hst => (readOperands_mirrors hw rest hrest).bind fun ss ts hss =>
      .pure ⟨?_, .cons hst.2 hss.2⟩
    rw [hst.1, hss.1]
    rfl
termination_by structural ds => ds
theorem readElements_mirrors (hw : w.Sound) (whole : Value) : (seen : Bool) → (ds : List Value) →
    Value.elementsOrderly w.outlook ds = true →
    Mirrors w (readElements (some w.id) policy id whole seen ds) (readElements (some w.id) policy id whole seen ds)
      fun es fs => fs = es.map (Element.moved w.moving w.raised)
  | _, [], _ => .pure rfl
  | seen, [d], h => by
    unfold readElements
    by_cases hspread : d.isToken "..." = true
    · rw [if_pos hspread]
      exact .throw
    · rw [if_neg hspread]
      have hform := (Bool.or_eq_true_iff.mp h).resolve_left hspread
      refine (element_mirrors (readHead_mirrors hw d) (read_mirrors hw d) hform hw seen).bind fun e f hef => .pure ?_
      rw [hef]
      rfl
  | seen, d :: next :: rest, h => by
    unfold readElements
    unfold Value.elementsOrderly at h
    by_cases hspread : d.isToken "..." = true
    · rw [if_pos hspread] at h ⊢
      simp only [Bool.and_eq_true] at h
      obtain ⟨⟨hstructure, hnext⟩, hrest⟩ := h
      refine (read_mirrors hw next hnext).bind fun s t hst => ?_
      rw [hst.1]
      refine (spreadOf_mirrors _ (hst.2.isStructure hstructure)).bind fun es fs hes => ?_
      dsimp only
      rw [hes, spliced_moved]
      refine (readElements_mirrors hw whole _ rest hrest).bind fun es' fs' hes' => .pure ?_
      rw [hes', List.map_append]
    · rw [if_neg hspread] at h ⊢
      obtain ⟨hform, hrest⟩ := Bool.and_eq_true_iff.mp h
      refine (element_mirrors (readHead_mirrors hw d) (read_mirrors hw d) hform hw seen).bind fun e f hef => ?_
      refine (readElements_mirrors hw whole seen (next :: rest) hrest).bind fun es fs hes => .pure ?_
      rw [hef, hes]
      rfl
termination_by structural _ ds => ds
theorem readMembers_mirrors (hw : w.Sound) : (es : List (Value × Value)) → Value.membersOrderly w.outlook es = true →
    (k : Value.Membership) → (∀ e ∈ es, (e.1.isToken "+" || Value.fitsMembership e.1 e.2 k) = true) → (draft : Draft) →
    draft.Bounded w → draft.Keeps k →
    Mirrors w (readMembers (some w.id) policy id draft es)
      (readMembers (some w.id) policy id (draft.moved w.moving w.raised) es)
      fun draft draft' => draft' = draft.moved w.moving w.raised ∧ draft.Bounded w ∧ draft.Keeps k
  | [], _, _, _, _, hbounded, hkeeps => .pure ⟨rfl, hbounded, hkeeps⟩
  | (raw, d) :: rest, h, k, hk, draft, hbounded, hkeeps => by
    obtain ⟨hmember, hrest⟩ := Bool.and_eq_true_iff.mp h
    obtain ⟨hfits, hk⟩ := List.forall_mem_cons.mp hk
    have hform : ∀ keys, Value.indexed? raw = some keys →
        w.outlook.defines keys = false ∧ d.isOrderly w.outlook = true := by
      intro keys hkeys
      have hpolicy : raw.isToken "+" = false := by
        by_contra hpolicy
        simp [Value.indexed?, hpolicy] at hkeys
      simpa [hpolicy, hkeys] using hmember
    have hform' : Value.indexed? raw = none → raw.isToken "+" = false →
        d.fitsForm (d.headOrderly w.outlook) (d.isOrderly w.outlook) = true := by
      intro hnone hpolicy
      simpa [hpolicy, hnone] using hmember
    refine (member_mirrors (readHead_mirrors hw d) (read_mirrors hw d) hform hform' hw hbounded hkeeps
      (Bool.or_eq_true_iff.mp hfits)).bind fun draft draft' hdraft => ?_
    rw [hdraft.1]
    exact readMembers_mirrors hw rest hrest k hk draft hdraft.2.1 hdraft.2.2
termination_by structural es => es
end

end Definitions

end Engine

end Schemata
