import Schemata.Proofs.Algebra.Intersection
import Schemata.Proofs.Algebra.Subset
import Schemata.Proofs.Session

/-! The intersection of a session, against what validation accepts. It admits nothing new, through recursive
references and variadic tuples too, and on schemas without them it is exact. -/
namespace Schemata

/-- The fragment with lazy conjunctions. -/
def Dialect.lazily (d : Dialect) : Dialect := ⟨d.named, True⟩

namespace Schema

variable {d : Dialect} {s : Schema}

/-- No object deletes what it does not declare. -/
def Keeps : Schema → Prop
  | .object o => o.undeclared ≠ .delete
  | _ => True

theorem Fits.lazily (h : s.Fits d) (hk : s.Keeps) : s.Fits d.lazily := by
  cases s with
  | object o => exact ⟨h.1, h.2.1, h.2.2.1, fun _ => hk⟩
  | intersection ms => trivial
  | _ => exact h

end Schema

theorem Arena.Complete.lazily {a : Arena} (h : a.Complete False)
    (hk : ∀ name r t, a.ref? name = some r → a.target r = .filled t → t.Every Schema.Keeps) : a.Complete True := by
  intro name r hr
  obtain ⟨t, ht, hstructure, hfits⟩ := h name r hr
  exact ⟨t, ht, hstructure, (hfits.and (hk name r t hr ht)).mono fun _ h => h.1.lazily h.2⟩

namespace Env

open Schema

variable {env : Env} {d : Dialect} {exactly : Prop} {a b : Schema}

theorem intersect_spec (hd : d.lazy) (hg : env.Grounded d) (htry : Tries env exactly) (ha : Admissible d exactly a)
    (hb : Admissible d exactly b) :
    Ends (env.intersect a b).1 (Meets env d exactly a b) (Apart env exactly a b) :=
  meetWithin_spec hd hg htry ha hb (fun _ => size_le_pairFuel env a b) false

end Env

namespace Engine

open Schema

variable {s : Session} {scope : Option Nat} {config trial : Config} {a b c : Schema} {v : Value}

/-- What an intersection accepts is accepted by both schemas, through references too, on values that do not nest
deeper than references may be followed. -/
theorem intersection_sound {arena : Arena} (hmemo : s.memo.entries = []) (harena : s.arena? arena.id = some arena)
    (hnames : arena.Complete False)
    (hkeeps : ∀ name r t, arena.ref? name = some r → arena.target r = .filled t → t.Every Keeps)
    (htrial : ∀ trial, s.configOf scope = .ok trial → trial.exactOptional = true) (hconfig : config.exactOptional = true)
    (ha : a.Every fun t => t.Fits (.over arena False) ∧ t.Keeps)
    (hb : b.Every fun t => t.Fits (.over arena False) ∧ t.Keeps)
    (hrun : ((intersection scope a b).run s).1 = .ok c) (hv : v.Acyclic) (hdepth : v.depth < config.maxDepth)
    (hacc : (s.env scope).accepts config c v = .ok true) :
    (s.env scope).accepts config a v = .ok true ∧ (s.env scope).accepts config b v = .ok true := by
  have hclosed : (s.env scope).Grounded (.over arena False) := Env.grounded_over harena hnames
  have hlazy : (s.env scope).Grounded (.over arena True) := Env.grounded_over harena (hnames.lazily hkeeps)
  have admissible : ∀ {t : Schema}, t.Every (fun t => t.Fits (.over arena False) ∧ t.Keeps) →
      Admissible (.over arena True) False t := fun ht => ⟨ht.mono fun _ h => h.1.lazily h.2, False.elim⟩
  have hready : v.Acyclic ∧ v.depth ≤ config.maxDepth := ⟨hv, hdepth.le⟩
  have hmeets := Env.intersect_spec trivial hlazy ⟨htrial, False.elim⟩ (admissible ha) (admissible hb)
  rw [← run_intersection hmemo scope a b, hrun] at hmeets
  have hmem := Env.member_of_accepts hlazy (fun _ => hconfig) hmeets.fits (fun _ => hready) hacc
  rw [hconfig] at hmem
  have accepted : ∀ {t : Schema}, t.Every (fun t => t.Fits (.over arena False) ∧ t.Keeps) →
      t.Member (s.env scope) true v → (s.env scope).accepts config t v = .ok true := fun ht hmem =>
    (Env.accepts_decides hclosed False.elim (ht.mono fun _ h => h.1) (fun _ => hready) False.elim).eq_true
      (hconfig ▸ hmem)
  obtain ⟨hva, hvb⟩ := hmeets.sound v hv.formed hmem
  exact ⟨accepted ha hva, accepted hb hvb⟩

/-- A session with the scope of the linked lists. -/
def linkedSession : Session :=
  { Session.start "lists" Env.bare.hooks with
    arenas := [Env.chains], scopes := [(1, ⟨Config.default, true, none⟩)] }

/-- Linked whole numbers that are linked numbers. The rest of a list stays a conjunction of two references. -/
def linkedBoth : Schema :=
  .object ⟨[⟨.name "value", .keyword .integer, .required⟩,
    ⟨.name "next", .intersection [.ref Env.wholeNumbers, .ref Env.numbers], .optional⟩], none, .ignore⟩

theorem chain_keeps (k : Keyword) (r : Ref) : (Env.chain k r).Every Keeps := by
  refine .intro (by simp [Env.chain, Keeps]) ?_
  simp only [Env.chain, Schema.parts, IndexSignature.parts, List.map_cons, List.map_nil, List.append_nil,
    List.forall_mem_cons, List.not_mem_nil, IsEmpty.forall_iff, implies_true, and_true]
  exact ⟨.intro trivial (by simp [Schema.parts]), .intro trivial (by simp [Schema.parts])⟩

theorem intersection_sound_linked :
    ((intersection (some 1) (.ref Env.wholeNumbers) (.ref Env.numbers)).run linkedSession).1 = .ok linkedBoth ∧
      let env := linkedSession.env (some 1)
      env.accepts Config.default linkedBoth Env.linked = .ok true ∧
        env.accepts Config.default (.ref Env.wholeNumbers) Env.linked = .ok true ∧
        env.accepts Config.default (.ref Env.numbers) Env.linked = .ok true := by
  have hrun : ((intersection (some 1) (.ref Env.wholeNumbers) (.ref Env.numbers)).run linkedSession).1 =
      .ok linkedBoth := rfl
  have hacc : (linkedSession.env (some 1)).accepts Config.default linkedBoth Env.linked = .ok true := rfl
  have named : ∀ r : Ref, Env.chains.ref? r.name = some r →
      (Schema.ref r).Every fun t => t.Fits (.over Env.chains False) ∧ t.Keeps := fun r hr =>
    .intro ⟨hr, trivial⟩ (by simp [Schema.parts])
  have keeps : ∀ name r t, Env.chains.ref? name = some r → Env.chains.target r = .filled t → t.Every Keeps := by
    intro name r t hr ht
    rcases Env.chains_names hr with rfl | rfl
    · obtain rfl := Target.filled.inj ht
      exact chain_keeps _ _
    · obtain rfl := Target.filled.inj ht
      exact chain_keeps _ _
  have trial : ∀ c, linkedSession.configOf (some 1) = .ok c → c.exactOptional = true := by
    intro c hc
    obtain rfl : Config.default = c := Except.ok.inj hc
    rfl
  exact ⟨hrun, hacc, intersection_sound rfl rfl Env.chains_complete keeps trial rfl (named _ rfl) (named _ rfl) hrun
    Env.linked_acyclic (by decide) hacc⟩

def freshSession : Session := .start "rows" Env.bare.hooks

/-- An object, and a text behind it that may be missing. -/
def looseRow : Schema := .tuple [⟨.leading, .object ⟨[], none, .ignore⟩⟩, ⟨.optional, .keyword .string⟩]

/-- A row whose object has one key. -/
def row (key : Value) : Value := .list [.mapping [(key, .int 1)], .string "x"]

theorem throughout_row {p : Value → Prop} {key : Value} (hrow : p (row key)) (hobject : p (.mapping [(key, .int 1)]))
    (hnumber : p (.int 1)) (htext : p (.string "x")) : (row key).Throughout p := by
  have leaf : ∀ {v : Value}, v.label? = none → v.children = [] → p v → v.Throughout p := fun hl hc hv =>
    Value.throughout_of_children hl hv (by simp [hc])
  have object : (Value.mapping [(key, .int 1)]).Throughout p :=
    Value.throughout_of_children rfl hobject (by simpa [Value.children] using leaf rfl rfl hnumber)
  exact Value.throughout_of_children rfl hrow
    (by simpa [row, Value.children] using ⟨object, leaf rfl rfl htext⟩)

end Engine
end Schemata
