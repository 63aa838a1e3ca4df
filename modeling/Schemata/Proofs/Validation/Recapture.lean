import Schemata.Proofs.Validation.Faults
import Schemata.Proofs.Validation.Idempotence

/-! Unions of objects validated again and again. What a branch puts out is accepted again, but a branch before it,
which refused the value, may take the output and make something else of it. Each such turn goes to an earlier
branch, so the turns come to an end. -/
namespace Schemata

namespace Schema

/-- An object of keywords without an index signature. Its defaults can be made and belong to their keywords. -/
def Flat (hooks : Hooks) : Schema → Prop
  | .object o => o.index = none ∧ o.keys.Nodup ∧ .index ∉ o.keys ∧ ∀ p ∈ o.properties, ∃ k, p.value = .keyword k ∧
      ∀ d, p.presence = .defaultable d → ∀ copy, Succeeds (d.produce hooks copy) fun w => k.holds w = true
  | _ => False

end Schema

namespace Value

/-- The mapping itself does not have the index marker among its keys. -/
def Unmarked (v : Value) : Prop := ∀ es, v.fields? = some es → .index ∉ Entry.keys es

end Value

namespace Env

variable {env : Env} {config : Config} {s : Schema} {bs : List Schema} {v o : Value}

/-- Such an object answers: no keyword stops, and its defaults can be made. -/
theorem flat_total (h : s.Flat env.hooks) : (env.check config s).Total := by
  cases s with
  | object o =>
    obtain ⟨hi, -, -, hp⟩ := h
    rw [check_eq]
    refine (Schema.checkWith_stops (.intro ?_ fun t ht => ?_)).total
    · intro d hd copy
      obtain ⟨p, hmem, hpres⟩ := List.mem_filterMap.mp hd
      obtain ⟨k, -, hmade⟩ := hp p hmem
      cases hpresence : p.presence with
      | defaultable e =>
        obtain rfl : e = d := by simpa [hpresence, Presence.default?] using hpres
        obtain ⟨w, hw, -⟩ := hmade e hpresence copy
        rw [hw]
        trivial
      | _ => simp [hpresence, Presence.default?] at hpres
    · have hparts : (Schema.object o).parts = o.properties.map (·.value) := by
        simp [Schema.parts, hi, IndexSignature.parts]
      rw [hparts] at ht
      obtain ⟨p, hmem, rfl⟩ := List.mem_map.mp ht
      obtain ⟨k, hk, -⟩ := hp p hmem
      exact hk ▸ Schema.keyword_stopsWith
  | _ => exact h.elim

theorem flat_settles (h : s.Flat env.hooks) (hv : v.Unmarked) (hput : (env.check config s).Puts v o) :
    (env.check config s).Puts o o := by
  cases s with
  | object shape =>
    obtain ⟨hi, hkeys, hnamed, hp⟩ := h
    rw [check_object] at hput ⊢
    obtain ⟨es, -, -, hes, -⟩ := Check.object_puts.mp hput
    refine Check.object_settles (by rwa [shapeChecks_keys]) (by rwa [shapeChecks_keys]) hes (hv es hes) ?_ ?_ hput
    · intro q hq x hx
      obtain ⟨p, hmem, rfl⟩ := List.mem_map.mp hq
      obtain ⟨k, hk, hd⟩ := hp p hmem
      rw [hk, check_keyword] at hx ⊢
      rcases Check.contributes_some.mp hx with ⟨e, -, habsent, -, hitem⟩ | ⟨-, d, hpres, w, hw, hout⟩
      · obtain ⟨hholds, rfl⟩ := Check.keyword_puts.mp hitem
        exact ⟨hitem, habsent⟩
      · have hpres : p.presence = .defaultable d := hpres
        have hx : w = x := by
          split_ifs at hout
          · exact (Check.keyword_puts.mp hout).2
          · exact hout
        obtain ⟨w', hw', hholds⟩ := hd d hpres 1
        obtain rfl := Except.ok.inj (hw.symm.trans hw')
        exact ⟨Check.keyword_puts.mpr ⟨hx ▸ hholds, rfl⟩, by simp [hpres, Presence.isOptional]⟩
    · intro i hsome
      simp [shapeChecks, hi] at hsome
  | _ => exact h.elim

theorem unmarked_of_puts (h : s.Flat env.hooks) (hput : (env.check config s).Puts v o) : o.Unmarked := by
  cases s with
  | object shape =>
    rw [check_object] at hput
    obtain ⟨_, _, _, _, _, _, rfl⟩ := Check.object_puts.mp hput
    intro es hes hmem
    obtain ⟨raw, hraw, hall, -⟩ := Value.fields?_eq_some.mp hes
    obtain rfl := Option.some.inj hraw
    obtain ⟨e, he, hkey⟩ := List.mem_map.mp hmem
    obtain ⟨_, hpair, hof, -⟩ := forall₂_exists_left hall he
    obtain ⟨⟨k, x⟩, -, rfl⟩ := List.mem_map.mp hpair
    rw [hkey] at hof
    cases k <;> simp [Key.toValue, Key.ofValue?] at hof
  | _ => exact h.elim

theorem check_union (bs : List Schema) : env.check config (.union bs) =
    .union env.domains? (bs.map fun s => (s, env.check config s)) := by
  rw [check_eq, Schema.checkWith, Schema.branchChecks_eq]
  congr 1
  exact List.map_congr_left fun s _ => by rw [check_eq]

theorem accepts_eq_false : env.accepts config s v = .ok false ↔
    Succeeds (env.check config s .root v) fun r => r.isOk = false := by
  unfold accepts run
  cases env.check config s .root v <;> simp [Except.map]

/-- The first branch of a union that accepts a value, and what it puts out. -/
def Chooses (env : Env) (config : Config) (bs : List Schema) (v : Value) (before : List Schema) (s : Schema)
    (o : Value) : Prop :=
  (∃ after, bs = before ++ s :: after) ∧ (∀ t ∈ before, env.accepts config t v = .ok false) ∧
    env.validate config s v = .ok (.ok o)

theorem validate_union : env.validate config (.union bs) v = .ok (.ok o) ↔
    ∃ before s, env.Chooses config bs v before s o := by
  rw [validate_iff, check_union, Check.union_puts]
  simp only [Chooses, validate_iff, accepts_eq_false, Check.First]
  constructor
  · rintro ⟨b, before, ⟨⟨after, heq⟩, hbefore⟩, hput⟩
    obtain ⟨front, back, rfl, rfl, hback⟩ := List.map_eq_append_iff.mp heq
    obtain ⟨s, rest, rfl, rfl, -⟩ := List.map_eq_cons_iff.mp hback
    exact ⟨front, s, ⟨rest, rfl⟩, fun t ht => hbefore _ (List.mem_map_of_mem ht), hput⟩
  · rintro ⟨before, s, ⟨after, rfl⟩, hbefore, hput⟩
    refine ⟨(s, env.check config s), before.map fun s => (s, env.check config s),
      ⟨⟨after.map fun s => (s, env.check config s), by simp⟩, fun c hc => ?_⟩, hput⟩
    obtain ⟨t, ht, rfl⟩ := List.mem_map.mp hc
    exact hbefore t ht

/-- A union accepts what one of its branches accepts, with that branch or one before it, if those before it answer. -/
theorem chooses_of_accepts (after : List Schema) {before : List Schema} (hbefore : ∀ t ∈ before, (env.check config t).Total)
    (h : env.validate config s v = .ok (.ok o)) : ∃ first t p, env.Chooses config (before ++ s :: after) v first t p ∧
      (first = before ∧ t = s ∧ p = o ∨ first.length < before.length ∧ t ∈ before) := by
  induction before with
  | nil => exact ⟨[], s, o, ⟨⟨after, rfl⟩, by simp, h⟩, Or.inl ⟨rfl, rfl, rfl⟩⟩
  | cons t before ih =>
    obtain ⟨ht, hbefore⟩ := List.forall_mem_cons.mp hbefore
    obtain ⟨r, hr⟩ := ht .root v
    cases hok : r.isOk with
    | true =>
      refine ⟨[], t, r.output, ⟨⟨before ++ s :: after, rfl⟩, by simp, ?_⟩, Or.inr ⟨by simp, by simp⟩⟩
      exact validate_iff.mpr ⟨r, hr, hok, rfl⟩
    | false =>
      obtain ⟨first, u, p, ⟨⟨rest, heq⟩, hfirst, hput⟩, hcase⟩ := ih hbefore
      have hchooses : env.Chooses config (t :: before ++ s :: after) v (t :: first) u p :=
        ⟨⟨rest, congrArg (t :: ·) heq⟩, List.forall_mem_cons.mpr ⟨accepts_eq_false.mpr ⟨r, hr, hok⟩, hfirst⟩, hput⟩
      refine ⟨t :: first, u, p, hchooses, ?_⟩
      rcases hcase with ⟨rfl, rfl, rfl⟩ | ⟨hlt, hmem⟩
      · exact Or.inl ⟨rfl, rfl, rfl⟩
      · exact Or.inr ⟨by simpa using hlt, List.mem_cons_of_mem _ hmem⟩

/-- The second time a union of objects takes the same branch, which lets its output stand, or one before it. -/
theorem chooses_again (hb : ∀ s ∈ bs, s.Flat env.hooks) (hv : v.Unmarked) {before : List Schema}
    (h : env.Chooses config bs v before s o) : ∃ first t p, env.Chooses config bs o first t p ∧
      (p = o ∨ first.length < before.length ∧ t ∈ before) := by
  obtain ⟨⟨after, rfl⟩, -, hput⟩ := h
  have hstands := validate_iff.mpr (flat_settles (hb s (by simp)) hv (validate_iff.mp hput))
  obtain ⟨first, t, p, hchooses, hcase⟩ := chooses_of_accepts after
    (fun t ht => flat_total (hb t (List.mem_append_left _ ht))) hstands
  exact ⟨first, t, p, hchooses, hcase.imp_left fun h => h.2.2⟩

/-- Validated again, what a union of objects put out is accepted. It is put out again, unless a branch that refused
the first value stands before the one that took it and takes the output. -/
theorem validate_union_output (hb : ∀ s ∈ bs, s.Flat env.hooks) (hv : v.Unmarked)
    (h : env.validate config (.union bs) v = .ok (.ok o)) :
    ∃ p, env.validate config (.union bs) o = .ok (.ok p) ∧
      (p = o ∨ ∃ before s, env.Chooses config bs v before s o ∧
        ∃ t ∈ before, env.accepts config t v = .ok false ∧ env.validate config t o = .ok (.ok p)) := by
  obtain ⟨before, s, hchooses⟩ := validate_union.mp h
  obtain ⟨first, t, p, hagain, hcase⟩ := chooses_again hb hv hchooses
  refine ⟨p, validate_union.mpr ⟨first, t, hagain⟩, hcase.imp_right fun ⟨_, ht⟩ => ?_⟩
  exact ⟨before, s, hchooses, t, ht, hchooses.2.1 t ht, hagain.2.2⟩

/-- A limit that is 1 unless it is given, and nothing else; or nothing at all. -/
def limits : List Schema :=
  [.object ⟨[⟨.name "limit", .keyword .number, .defaultable one⟩], none, .reject⟩, .object ⟨[], none, .delete⟩]

/-- What the second branch puts out the first one takes and completes. -/
theorem validate_union_output_limits :
    Env.bare.validate Config.default (.union limits) (.mapping [(.string "speed", .int 1)]) = .ok (.ok (.mapping [])) ∧
      ∃ p, Env.bare.validate Config.default (.union limits) (.mapping []) = .ok (.ok p) ∧
        p = .mapping [(.string "limit", .int 1)] := by
  have hrun : Env.bare.validate Config.default (.union limits) (.mapping [(.string "speed", .int 1)]) =
      .ok (.ok (.mapping [])) := rfl
  have hflat : ∀ s ∈ limits, s.Flat Env.bare.hooks := by
    simp only [limits, List.forall_mem_cons, List.not_mem_nil, false_implies, implies_true, and_true]
    refine ⟨⟨rfl, by decide, by decide, ?_⟩, rfl, by decide, by decide, nofun⟩
    rintro p hp
    obtain rfl := List.mem_singleton.mp hp
    refine ⟨.number, rfl, fun d hd copy => ?_⟩
    obtain rfl : one = d := Presence.defaultable.inj hd
    exact ⟨.int 1, rfl, rfl⟩
  have hunmarked : (Value.mapping [(.string "speed", .int 1)]).Unmarked := by
    intro es hes
    rw [← Option.some.inj hes]
    decide
  obtain ⟨p, hp, -⟩ := validate_union_output hflat hunmarked hrun
  refine ⟨hrun, p, hp, ?_⟩
  exact (Except.ok.inj (Except.ok.inj hp)).symm

/-- A value validated again and again against a union of objects is at rest when it was validated once for every
branch. -/
theorem validate_union_rests (hb : ∀ s ∈ bs, s.Flat env.hooks) {passes : Nat → Value} (hv : (passes 0).Unmarked)
    (h : ∀ n, env.validate config (.union bs) (passes n) = .ok (.ok (passes (n + 1)))) {n : Nat}
    (hn : bs.length ≤ n) : passes (n + 1) = passes n := by
  have unique : ∀ {v o p}, env.validate config (.union bs) v = .ok (.ok o) →
      env.validate config (.union bs) v = .ok (.ok p) → o = p := fun h h' =>
    Except.ok.inj (Except.ok.inj (h.symm.trans h'))
  -- Until the values rest the branch that takes them moves to the front.
  have turn : ∀ n, (passes n).Unmarked ∧ ∃ before s, env.Chooses config bs (passes n) before s (passes (n + 1)) ∧
      (before.length + n < bs.length ∨ passes (n + 1) = passes n) := by
    intro n
    induction n with
    | zero =>
      obtain ⟨before, s, hchooses⟩ := validate_union.mp (h 0)
      obtain ⟨⟨after, heq⟩, -⟩ := id hchooses
      exact ⟨hv, before, s, hchooses, Or.inl (by simp [heq])⟩
    | succ n ih =>
      obtain ⟨hn, before, s, hchooses, hcase⟩ := ih
      obtain ⟨first, t, p, hagain, hmove⟩ := chooses_again hb hn hchooses
      obtain rfl := unique (validate_union.mpr ⟨first, t, hagain⟩) (h (n + 1))
      have hs : s ∈ bs := by
        obtain ⟨⟨after, rfl⟩, -⟩ := hchooses
        simp
      refine ⟨unmarked_of_puts (hb s hs) (validate_iff.mp hchooses.2.2), first, t, hagain, ?_⟩
      rcases hmove with hrest | ⟨hlt, -⟩
      · exact Or.inr hrest
      · rcases hcase with hlt' | hrest
        · exact Or.inl (by omega)
        · exact Or.inr (unique (h (n + 1)) (hrest ▸ h n) )
  obtain ⟨-, before, s, -, hcase⟩ := turn n
  exact hcase.resolve_left (by omega)

end Env
end Schemata
