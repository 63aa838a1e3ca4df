import Schemata.Proofs.Scope.Calls
import Schemata.Proofs.Scope.KeyDomains
import Schemata.Proofs.Validation.Expansion

/-! Scopes in which no name leads back to itself. Each name is ranked by the number of names that it leads to; names
then only spell schemas in a shorter way, and validation does not tell the two spellings apart. -/
namespace Schemata
namespace Schema

variable {s t : Schema} {r : Ref} {S : Ref → Prop}

/-- The reference stands somewhere in the schema. -/
inductive Mentions : Schema → Ref → Prop
  | here {r : Ref} : Mentions (.ref r) r
  | inside {s t : Schema} {r : Ref} : t ∈ s.parts → Mentions t r → Mentions s r

theorem Mentions.of_into (h : s.Mentions r) (hs : s.Into S) : S r := by
  induction h with
  | here => exact into_ref.mp hs
  | inside ht _ ih => exact ih (hs.part ht)

theorem into_mentions (s : Schema) : s.Into s.Mentions := by
  induction s using induction_on_parts with
  | _ s ih =>
    refine .intro (fun r hr => ?_) fun t ht => (ih t ht).mono fun r hr => .inside ht hr
    subst hr
    exact .here

end Schema

namespace Arena

variable {a : Arena} {r q : Ref}

/-- The second name stands in the definition of the first. -/
def LeadsTo (a : Arena) (r q : Ref) : Prop := ∃ t, a.target r = .filled t ∧ t.Mentions q

/-- No name leads back to itself, not even through others. -/
def Acyclic (a : Arena) : Prop := ∀ r, ¬ Relation.TransGen a.LeadsTo r r

/-- Names are in an order in which their definitions go down. -/
theorem acyclic_of_rank (rank : Ref → Nat) (h : ∀ r q, a.LeadsTo r q → rank q < rank r) : a.Acyclic := by
  intro r hr
  have down : ∀ q, Relation.TransGen a.LeadsTo r q → rank q < rank r := by
    intro q hq
    induction hq with
    | single hrq => exact h _ _ hrq
    | tail _ hpq ih => exact (h _ _ hpq).trans ih
  exact lt_irrefl _ (down r hr)

open Classical in
/-- The names that a name leads to, itself or through others. -/
noncomputable def behind (a : Arena) (r : Ref) : Finset Ref := a.refs.toFinset.filter (Relation.TransGen a.LeadsTo r)

theorem mem_behind : q ∈ a.behind r ↔ q ∈ a.refs ∧ Relation.TransGen a.LeadsTo r q := by simp [behind]

theorem Acyclic.card_behind_lt (h : a.Acyclic) (hq : q ∈ a.refs) (hrq : a.LeadsTo r q) :
    (a.behind q).card < (a.behind r).card := by
  refine Finset.card_lt_card (Finset.ssubset_iff_subset_ne.mpr ⟨fun p hp => ?_, fun heq => ?_⟩)
  · obtain ⟨hp, hqp⟩ := mem_behind.mp hp
    exact mem_behind.mpr ⟨hp, .head hrq hqp⟩
  · have hmem : q ∈ a.behind q := heq ▸ mem_behind.mpr ⟨hq, .single hrq⟩
    exact h q (mem_behind.mp hmem).2

theorem length_refs_eq (a : Arena) : a.refs.length = a.names.length := by simp [Arena.names, refs]

theorem Acyclic.card_behind_lt_length (h : a.Acyclic) (hr : r ∈ a.refs) : (a.behind r).card < a.names.length := by
  classical
  rw [← length_refs_eq]
  refine lt_of_lt_of_le (Finset.card_lt_card (t := a.refs.toFinset) ?_) (List.toFinset_card_le _)
  refine Finset.ssubset_iff_subset_ne.mpr ⟨Finset.filter_subset _ _, fun heq => ?_⟩
  have hmem : r ∈ a.behind r := heq ▸ List.mem_toFinset.mpr hr
  exact h r (mem_behind.mp hmem).2

end Arena

/-- The names of a full arena without cycles are ranked by the number of names behind them. -/
theorem Env.ranked_of_acyclic {env : Env} {a : Arena} (ha : a.Sound) (hfull : a.Full) (hacyclic : a.Acyclic)
    (htarget : ∀ r, a.Registers r → env.target r = a.target r) :
    env.Ranked a.Registers fun r => (a.behind r).card := by
  refine ⟨fun r hr => ?_, fun r q hr hq hslot => ?_⟩
  · obtain ⟨t, ht⟩ := hfull r hr
    have hinto := ha.refers _ _ (Arena.target_eq_filled.mp ht)
    refine ⟨t, (htarget r hr).trans ht, (hinto.and (Schema.into_mentions t)).mono ?_⟩
    rintro q ⟨hq, hmentions⟩
    exact ⟨hq, hacyclic.card_behind_lt (ha.mem_refs hq) ⟨t, ht, hmentions⟩⟩
  · have hhandle : r.handle = q.handle := (Prod.mk.inj hslot).2
    have hname : q.name = r.name := ha.name_unique (ha.mem hq) (hhandle ▸ ha.mem hr)
    exact (Arena.registers_unique hr hq hname).symm

namespace Session

/-- In a scope of plain definitions where no name leads back to itself, names are transparent. As many references may be
followed as there are names. Then validation against a schema over the names, and against the schema with every name
replaced until none is left, stop with one error, or both put out values that are the same but for the labels of tuples,
or both refuse the value in the same places under the same codes. -/
theorem validate_without_names (application : String) (hooks : Hooks) (environment : Variables) (calls : List ScopeCall)
    (hplain : ∀ c ∈ calls, c.IsPlain) :
    let s := { start application hooks with environment := environment }.afterCalls calls
    ∀ id a, s.arena? id = some a → a.Acyclic → (∀ r t, a.target r = .filled t → t.Nameless) →
      s.hooks.Unlabelled →
      ∀ (t : Schema) (config : Config) (v : Value), t.Into a.Registers → t.Nameless →
        a.names.length ≤ config.maxDepth →
        let env := s.env (some id)
        let unnamed := env.expanded a.names.length t
        unnamed.Into (fun _ => False) ∧
          Agree (· = ·) Env.SameAnswer (env.validate config t v) (env.validate config unnamed v) := by
  intro s id a ha hacyclic hstored hhooks t config v hinto hnameless hdepth env unnamed
  have hs : s.Settled := ((settled_start application hooks environment).afterCalls hplain).1
  have hsound := hs.tidy.arenas id a ha
  have htarget : ∀ r, a.Registers r → env.target r = a.target r := by
    intro r hr
    have hid : r.arena = id := (Arena.registers_iff.mp hr).1.trans (Arenas.id_of_find ha)
    exact (Arenas.env_target rfl r).trans (Arenas.target_of_find (hid ▸ ha))
  have hranked := Env.ranked_of_acyclic hsound (hs.full id a ha) hacyclic htarget
  have hbelow : t.Into fun r => a.Registers r ∧ (a.behind r).card < a.names.length :=
    hinto.mono fun r hr => ⟨hr, hacyclic.card_behind_lt_length (hsound.mem_refs hr)⟩
  have hslots : a.names.length ≤ env.slotCount + 1 := by
    have := a.length_refs_eq
    have := hsound.length_refs
    have : a.slots.length ≤ env.slotCount := Arenas.length_le_slotCount rfl ha
    omega
  exact ⟨hranked.expanded_into hbelow le_rfl, hranked.validate_expanded hhooks
    (fun r u hr hu => hstored r u ((htarget r hr).symm.trans hu)) hbelow hnameless hdepth hslots v⟩

/-- A pair of leaves, one of which may be missing, and a list of such pairs. -/
theorem validate_without_names_pairs :
    let calls : List ScopeCall := [.openScope none, .defineAll 1 [
      (.string "pair", .mapping [(.string "left", .string "leaf"),
        (.string "right", .list [.string "leaf", .string "=", .tuple (some ⟨7, 0⟩) [.list []]])]),
      (.string "leaf", .list [.string "string", .string "|", .string "unknown[]"])]]
    let s := (start "app" ⟨fun _ v => .value v, fun _ => .ok .null⟩).afterCalls calls
    let pairs : Schema := .array (.ref ⟨1, 0, "pair"⟩)
    let v : Value := .list [.mapping [(.string "left", .string "x")], .mapping [(.string "left", .int 1)]]
    (∀ c ∈ calls, c.IsPlain) ∧ ∃ a, s.arena? 1 = some a ∧ a.Acyclic ∧ a.names.length = 2 ∧
      ((s.env (some 1)).expanded 2 pairs).Into (fun _ => False) ∧
      Agree (· = ·) Env.SameAnswer ((s.env (some 1)).validate Config.default pairs v)
        ((s.env (some 1)).validate Config.default ((s.env (some 1)).expanded 2 pairs) v) := by
  intro calls s pairs v
  have hplain : ∀ c ∈ calls, c.IsPlain := by decide +kernel
  let leaf : Schema := .union [.keyword .string, .array (.keyword .unknown)]
  let pair : Schema := .object ⟨[⟨.name "left", .ref ⟨1, 1, "leaf"⟩, .required⟩,
    ⟨.name "right", .ref ⟨1, 1, "leaf"⟩, .defaultable ⟨⟨0, 0⟩, .tuple (some ⟨7, 0⟩) [.list []], false⟩⟩],
    none, .ignore⟩
  have harena : s.arena? 1 = some ⟨1, [some pair, some leaf], [("pair", 0), ("leaf", 1)]⟩ := by rfl
  refine ⟨hplain, _, harena, ?_⟩
  have hfilled : ∀ r t, (Arena.mk 1 [some pair, some leaf] [("pair", 0), ("leaf", 1)]).target r = .filled t →
      r.handle = 0 ∧ t = pair ∨ r.handle = 1 ∧ t = leaf := by
    rintro ⟨id, handle, name⟩ t ht
    rw [Arena.target_eq_filled] at ht
    rcases handle with _ | _ | handle
    · exact Or.inl ⟨rfl, (Option.some.inj (Option.some.inj ht)).symm⟩
    · exact Or.inr ⟨rfl, (Option.some.inj (Option.some.inj ht)).symm⟩
    · simp at ht
  have hpair : pair.Into fun q => q.handle = 1 := Schema.into_object.mpr ⟨by simp, by simp⟩
  have hleaf : leaf.Into fun _ => False := Schema.into_union.mpr (by simp)
  have hacyclic : (Arena.mk 1 [some pair, some leaf] [("pair", 0), ("leaf", 1)]).Acyclic := by
    refine Arena.acyclic_of_rank (fun r => 1 - r.handle) ?_
    rintro r q ⟨t, ht, hq⟩
    rcases hfilled r t ht with ⟨hr, rfl⟩ | ⟨-, rfl⟩
    · have := hq.of_into hpair
      omega
    · exact (hq.of_into hleaf).elim
  have hword : ∀ k, (Schema.keyword k).Nameless := fun k => .intro trivial (by simp [Schema.parts])
  have hname : ∀ r, (Schema.ref r).Nameless := fun r => .intro trivial (by simp [Schema.parts])
  have harray : ∀ t : Schema, t.Nameless → (Schema.array t).Nameless := fun t ht =>
    .intro (by simp [Schema.array, Schema.NamelessNode]) (List.forall_mem_singleton.mpr ht)
  have hstored : ∀ r t, (Arena.mk 1 [some pair, some leaf] [("pair", 0), ("leaf", 1)]).target r = .filled t →
      t.Nameless := by
    intro r t ht
    rcases hfilled r t ht with ⟨-, rfl⟩ | ⟨-, rfl⟩
    · refine .intro (fun p hp d hd => ?_) (List.forall_mem_cons.mpr ⟨hname _, List.forall_mem_singleton.mpr (hname _)⟩)
      rcases List.mem_pair.mp hp with rfl | rfl
      · simp at hd
      · obtain rfl := Presence.defaultable.inj hd
        exact Or.inr rfl
    · exact .intro trivial (List.forall_mem_cons.mpr ⟨hword _, List.forall_mem_singleton.mpr (harray _ (hword _))⟩)
  have hhooks : s.hooks.Unlabelled := by
    intro f v w h
    have htruthy : ∀ x : Value, x.unlabelled.truthy = x.truthy := fun x => by
      cases x <;> simp [Value.unlabelled, Value.truthy, Value.unlabelledAll_eq, Value.unlabelledEntries_eq]
    show (Answer.value v).code? = (Answer.value w).code?
    rw [Answer.code?, Answer.code?, ← htruthy v, h, htruthy w]
  have hpairs : pairs.Into (Arena.mk 1 [some pair, some leaf] [("pair", 0), ("leaf", 1)]).Registers :=
    Schema.into_array.mpr (Schema.into_ref.mpr rfl)
  exact ⟨hacyclic, rfl, validate_without_names "app" _ [] calls hplain 1 _ harena hacyclic hstored hhooks pairs
    Config.default v hpairs (harray _ (hname _)) (by decide)⟩

end Session

namespace Env

/-- A scope with one name. -/
def naming (t : Schema) : Env := ⟨bare.hooks, [⟨1, [some t], [("name", 0)]⟩], .ok Config.default⟩

/-- A tuple that fills in the constant. -/
def filling (source : Value) : Schema := .tuple [⟨.defaultable ⟨⟨0, 0⟩, source, false⟩, .keyword .unknown⟩]

/-- A pattern that cannot be read stops both checks with its error. And of a default that equals only itself, or that
contains itself, the copies put out are not equal. -/
theorem named_unlike :
    let name : Schema := .ref ⟨1, 0, "name"⟩
    let unreadable : Schema := .constrained (.keyword .string) [.pattern ⟨"[", 0, none⟩]
    (∃ e, (naming unreadable).validate Config.default name (.string "x") = .error e ∧
        (naming unreadable).validate Config.default unreadable (.string "x") = .error e) ∧
      ∀ source ∈ [Value.record .producer (some ⟨1, 0⟩) [.null, .bool false],
        .knot ⟨1, 0⟩ (.list [.back ⟨1, 0⟩ .list])],
        ∃ w w', (naming (filling source)).validate Config.default name (.list []) = .ok (.ok w) ∧
          (naming (filling source)).validate Config.default (filling source) (.list []) = .ok (.ok w') ∧
            w.same w' = false := by
  refine ⟨⟨_, rfl, rfl⟩, List.forall_mem_cons.mpr ⟨⟨_, _, rfl, rfl, rfl⟩, List.forall_mem_singleton.mpr
    ⟨_, _, rfl, rfl, rfl⟩⟩⟩

end Env
end Schemata
