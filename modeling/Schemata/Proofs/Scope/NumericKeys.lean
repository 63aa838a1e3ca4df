import Schemata.Proofs.Regex.Words
import Schemata.Proofs.Scope.Definitions
import Schemata.Proofs.Validation.Entries

/-! Index signatures for numbers. The keys of a mapping are texts, and the signature takes those that are numerals; the
text of a number with an exponent is none. -/
namespace Schemata

theorem Pattern.check_numeric {p : Pattern} (hflags : p.flags = 0) (hsource : p.source = "^-?\\d+(\\.\\d+)?$")
    (s : String) : p.check (.string s) = .ok (if Regex.numeric.search s then .valid else p.mismatch s) := by
  rw [Pattern.check, hflags, hsource, Regex.read_numeric]
  rfl

namespace Env

variable {env : Env} {config : Config} {T : Schema} {policy : Policy}

theorem accepts_numericKey (s : String) :
    env.accepts config IndexSignature.numericKey (.string s) = .ok (Regex.numeric.search s) := by
  unfold IndexSignature.numericKey
  generalize hp : (⟨"^-?\\d+(\\.\\d+)?$", 0, some "numeric string"⟩ : Pattern) = p
  have hpattern : p.check (.string s) = .ok (if Regex.numeric.search s then .valid else p.mismatch s) :=
    Pattern.check_numeric (hp ▸ rfl) (hp ▸ rfl) s
  have hrun : env.run config (.constrained (.keyword .string) [.pattern p]) (.string s) =
      (Check.constraintFailures env.hooks (.string s) [.pattern p]).map fun fs => ⟨.string s, false, fs⟩ := by
    rw [run, check_eq]
    rfl
  rw [accepts, hrun, Check.constraintFailures, Constraint.check, hpattern]
  cases Regex.numeric.search s <;> rfl

/-- An object with an index signature for numbers and nothing else. -/
def numericObject (T : Schema) (policy : Policy) : Schema := .object ⟨[], some (.normalized (.keyword .number) T), policy⟩

/-- Under a numeric key an item has to be accepted, but for the keys that are tiny: what stands under those is left to
the policy. -/
def Numbered (env : Env) (config : Config) (T : Schema) (policy : Policy) (n : Number) (x : Value) : Prop :=
  (¬ n.IsTiny → env.accepts config T x = .ok true) ∧ (n.IsTiny → policy ≠ .reject)

theorem spares_number {n : Number} (hn : n.IsFinite) (raw x : Value) :
    env.Spares config ⟨[], some (.normalized (.keyword .number) T), policy⟩ ⟨.name n.keyText, raw, x⟩ ↔
      env.Numbered config T policy n x := by
  show Succeeds (env.accepts config IndexSignature.numericKey (.string n.keyText)) _ ↔ _
  rw [accepts_numericKey, Succeeds.ok]
  have hsearch := Regex.search_keyText hn
  by_cases htiny : n.IsTiny
  · rw [if_neg fun h => hsearch.mp h htiny]
    simp [Numbered, htiny]
  · rw [if_pos (hsearch.mpr htiny)]
    simp [Numbered, htiny, IndexSignature.normalized]

/-- A mapping of finite numbers, no two of which are one key, is accepted when its entries are in order. -/
theorem accepts_numericObject {v : Value} {raw : List (Value × Value)} (hraw : v.entries? = some raw)
    (hkeys : ∀ e ∈ raw, ∃ n, e.1 = .number n ∧ n.IsFinite) (hapart : (Value.mapping raw).KeysApart) :
    env.accepts config (numericObject T policy) v = .ok true ↔
      ∀ n x, (.number n, x) ∈ raw → env.Numbered config T policy n x := by
  have hnodup : (Entry.keys ([] ++ raw.filterMap Entry.ofPair?)).Nodup := by
    rw [List.nil_append, Entry.keys_filterMap]
    exact hapart
  obtain ⟨hentries, hfailures⟩ := Entry.collect_of_nodup hnodup
  have hclean : (Entry.collect [] raw).2 = [] := by
    refine hfailures.mpr fun e he => ?_
    obtain ⟨n, hn, -⟩ := hkeys e he
    rw [hn, Number.ofValue?_number]
    rfl
  have hfields : v.fields? = some (raw.filterMap Entry.ofPair?) := by
    have hcollect : Entry.collect [] raw = (raw.filterMap Entry.ofPair?, []) := Prod.ext hentries hclean
    simp only [Value.fields?, hraw, Option.bind_some, hcollect]
  rw [numericObject, accepts_object]
  simp only [hfields, Option.some.injEq, exists_eq_left']
  constructor
  · rintro ⟨-, h⟩ n x hx
    obtain ⟨m, hm, hfinite⟩ := hkeys _ hx
    obtain rfl : n = m := by simpa using hm
    refine (spares_number hfinite (.number n) x).mp (h _ (List.mem_filterMap.mpr ⟨_, hx, rfl⟩) rfl)
  · intro h
    refine ⟨List.forall_mem_nil _, fun e he _ => ?_⟩
    obtain ⟨⟨k, x⟩, hpair, hof⟩ := List.mem_filterMap.mp he
    obtain ⟨n, rfl, hfinite⟩ := hkeys _ hpair
    obtain rfl : (⟨.name n.keyText, .number n, x⟩ : Entry) = e := Option.some.inj hof
    exact (spares_number hfinite (.number n) x).mpr (h n x hpair)

theorem makeObject_numeric : env.makeObject ⟨[], some (.normalized (.keyword .number) T), policy⟩ =
    .ok (numericObject T policy) := by
  rfl

end Env

namespace Engine

variable {scope : Option Nat} {policy : Policy} {close : Value → Value} {d : Value} {s t : Session} {T : Schema}

theorem buildObject_numeric (scope : Option Nat) (policy : Policy) (T : Schema) (s : Session) : ∃ t,
    (buildObject scope ⟨[], some (.normalized (.keyword .number) T), policy⟩).run s =
      (.ok (Env.numericObject T policy), t) := by
  obtain ⟨waits, t, hdefer⟩ := run_defer scope (.overlap ⟨[], some (.normalized (.keyword .number) T), policy⟩
    (.normalized (.keyword .number) T)) s
  refine ⟨t, ?_⟩
  unfold buildObject
  simp only [run_bind, run_lift, Env.makeObject_numeric, env, run_get, run_pure, hdefer]
  cases waits <;> rfl

theorem member_numeric (draft : Draft) (hdraft : draft.index = none) (head plain : Engine Schema) :
    member scope close draft (.string "[number]") d head plain =
      plain >>= fun T => pure { draft with index := some (.normalized (.keyword .number) T) } := by
  have hname : indexName? (.string "[number]") = some "number" := by decide
  have hkeyword : name scope "number" = pure (.keyword .number) := rfl
  unfold member
  rw [if_neg (by decide), hname]
  simp only [hdraft, Option.isSome_none, Bool.false_eq_true, if_false, hkeyword, pure_bind]

theorem read_numbers (h : (read scope policy close d).run s = (.ok T, t)) :
    ∃ u, (read scope policy close (.mapping [(.string "[number]", d)])).run s =
      (.ok (Env.numericObject T policy), u) := by
  obtain ⟨u, hu⟩ := buildObject_numeric scope policy T t
  refine ⟨u, ?_⟩
  rw [read, readMembers, member_numeric _ rfl]
  simp only [bind_assoc, pure_bind, run_bind, h]
  exact hu

/-- An index signature for numbers asks its schema for what stands under finite numbers. Only the tiny ones escape it:
they are written with an exponent, and the policy of the configuration decides about them. -/
theorem parse_numbers {given : Option Config} {c : Config} (hc : (config scope given).run s = (.ok c, s))
    (h : (parse scope given d).run s = (.ok T, t)) :
    ∃ O u, (parse scope given (.mapping [(.string "[number]", d)])).run s = (.ok O, u) ∧
      ∀ (env : Env) (config : Config) (v : Value) (raw : List (Value × Value)), v.entries? = some raw →
        (∀ e ∈ raw, ∃ n, e.1 = .number n ∧ n.IsFinite) → (Value.mapping raw).KeysApart →
          (env.accepts config O v = .ok true ↔
            ∀ n x, (.number n, x) ∈ raw → env.Numbered config T c.undeclared n x) := by
  unfold parse at h ⊢
  simp only [run_bind, hc] at h ⊢
  obtain ⟨u, hu⟩ := read_numbers h
  exact ⟨_, u, hu, fun env config v raw hraw hkeys hapart => Env.accepts_numericObject hraw hkeys hapart⟩

/-- One, a half, and less than a millionth. -/
def portions : List (Value × Value) :=
  [(.number (.int 1), .string "all"), (.number (.double (.finite false (twoTo 1073))), .string "some"),
    (.number (.double (.finite false (twoTo 1054))), .int 0)]

/-- Of portions that have to be texts the smallest need not be one. -/
theorem parse_numbers_portions :
    let s := Session.start "app" Env.bare.hooks
    let c : Config := { Config.default with undeclared := .ignore }
    (config none (some c)).run s = (.ok c, s) ∧
      (parse none (some c) (.string "string")).run s = (.ok (.keyword .string), s) ∧
      (∀ e ∈ portions, ∃ n, e.1 = .number n ∧ n.IsFinite) ∧ (Value.mapping portions).KeysApart ∧
        Env.bare.accepts c (.keyword .string) (.int 0) = .ok false ∧
          ∃ O u, (parse none (some c) (.mapping [(.string "[number]", .string "string")])).run s = (.ok O, u) ∧
            Env.bare.accepts c O (.mapping portions) = .ok true := by
  intro s c
  have hc : (config none (some c)).run s = (.ok c, s) := rfl
  have hT : (parse none (some c) (.string "string")).run s = (.ok (.keyword .string), s) := rfl
  have hkeys : ∀ e ∈ portions, ∃ n, e.1 = .number n ∧ n.IsFinite := by
    simp [portions, Number.IsFinite, Decimal.isBinary64_twoTo]
  have hapart : (Value.mapping portions).KeysApart := by
    show List.Nodup _
    decide +kernel
  obtain ⟨O, u, hO, haccepts⟩ := parse_numbers hc hT
  refine ⟨hc, hT, hkeys, hapart, rfl, O, u, hO, (haccepts Env.bare c _ _ rfl hkeys hapart).mpr fun n x hx => ?_⟩
  have hhalf : ¬ (Number.double (.finite false (twoTo 1073))).IsTiny := by decide +kernel
  have htiny : (Number.double (.finite false (twoTo 1054))).IsTiny := by decide +kernel
  simp only [portions, List.mem_cons, Prod.mk.injEq, Value.number.injEq, List.not_mem_nil, or_false] at hx
  obtain ⟨rfl, rfl⟩ | ⟨rfl, rfl⟩ | ⟨rfl, rfl⟩ := hx
  · exact ⟨fun _ => rfl, False.elim⟩
  · exact ⟨fun _ => rfl, fun h => absurd h hhalf⟩
  · exact ⟨fun h => absurd htiny h, fun _ => by decide⟩

end Engine

end Schemata
