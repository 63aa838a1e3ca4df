import Schemata.Proofs.Algebra.CommonObjects
import Schemata.Proofs.Algebra.CommonTuples
import Schemata.Proofs.Algebra.Exactness

/-! The intersection in both orders. What it works out is what the two schemas share, and that does not depend on
their order. -/
namespace Schemata
namespace Schema

/-- A single node of the schemas whose intersections do not depend on the order. -/
def Commuting : Schema → Prop
  | .union bs => ∀ s ∈ bs, s.isNever = false
  | s => s.Elementary

theorem Commuting.elementary {s : Schema} (h : s.Commuting) : s.Elementary := by
  cases s with
  | union bs => trivial
  | _ => exact h

theorem Elementary.ordered {s : Schema} (h : s.Elementary) : s.Ordered := by
  cases s with
  | constrained t cs =>
    obtain ⟨k, rfl⟩ := h
    exact .keyword k
  | intersection ms => exact h.elim
  | ref r => exact h.elim
  | _ => trivial

/-- Schemas of the fragment, to any depth. -/
abbrev Commutes (d : Dialect) (s : Schema) : Prop := s.Every fun t => t.Fits d ∧ t.Commuting

theorem Commutes.orderly {d : Dialect} {s : Schema} (h : s.Commutes d) : s.Orderly d :=
  h.mono fun _ h => ⟨h.1, h.2.elementary.ordered⟩

section Cases

variable {env : Env} {d : Dialect} {a b : Schema} {meet : Schema → Schema → Compose Schema}

/-- What a case needs of the intersections of smaller schemas. -/
structure Composed (env : Env) (d : Dialect) (a b : Schema) (meet : Schema → Schema → Compose Schema) : Prop where
  parts : ∀ s ∈ a.parts, ∀ t ∈ b.parts, Composes env d s t (meet s t)
  core : a.split.1.size + b.split.1.size < a.size + b.size → CorePair a.split.1 b.split.1 →
    (meet a.split.1 b.split.1).Yields (Smaller env a.split.1 b.split.1) (Disjoint env a.split.1 b.split.1)

theorem Composed.constrained (h : Composed env d a b meet) (ha : a.Commutes d) (hb : b.Commutes d)
    (hu : Unsettled a b) (hla : ∀ v, a ≠ .literal v) (hlb : ∀ v, b ≠ .literal v)
    (hcon : a.isConstrained = true ∨ b.isConstrained = true) (htouch : Touches env a b) :
    Composes env d a b (Env.meetConstrained meet a b) := by
  exact meetConstrained_common ha.orderly hb.orderly ha.root.2.elementary hb.root.2.elementary hu hla hlb hcon htouch
    (h.core (split_sizes_lt hcon))

/-- Different schemas that are neither references nor unions meet in what they share. -/
theorem meetPlain_common (hd : d.lazy) (hg : env.Grounded d) (htry : Tries env True) (ha : a.Commutes d)
    (hb : b.Commutes d) (hu : Unsettled a b) (h : Composed env d a b meet) :
    Composes env d a b (env.meetPlain meet a b) := by
  have hfa := ha.orderly.fits
  have hfb := hb.orderly.fits
  refine meetPlain_forms hg hfa hfb hu.direct hu.direct'
    (fun e he => ⟨he.1, fun hoverlap => he.2.1 (hoverlap.touches hu hg hfa hfb)⟩)
    (fun hcore => meetCore_common hcore hu hg ha.orderly hb.orderly) (fun hint => ?_) (fun v hv => ?_) (fun v hv => ?_)
    (fun htouch hla hlb hcon => h.constrained ha hb hu hla hlb hcon htouch) (fun p q hp hq => ?_) fun es fs he hf => ?_
  · rcases hint with hint | hint
    · cases a <;> first | exact ha.root.2.elim | simp [isIntersection] at hint
    · cases b <;> first | exact hb.root.2.elim | simp [isIntersection] at hint
  · subst hv
    exact meetLiteral_common hg htry hfa.root hu.different hfb hu.direct'.2
  · subst hv
    refine (meetLiteral_common hg htry hfb.root (fun hsame => hu.different ?_) hfa hu.direct.2).symm hfa hfb
    exact same_symm hfb hfa hsame
  · subst hp hq
    exact meetObjects_common ha.orderly hb.orderly hu.different fun p hp r hr =>
      h.parts _ (List.mem_append_left _ (List.mem_map_of_mem hp)) _ (List.mem_append_left _ (List.mem_map_of_mem hr))
  · subst he hf
    exact meetTuples_common hd ha.orderly hb.orderly hu.different fun e he f hf =>
      h.parts _ (List.mem_map_of_mem he) _ (List.mem_map_of_mem hf)

end Cases

end Schema

namespace Env

open Schema

variable {env : Env} {d : Dialect} {a b : Schema}

/-- With fuel for all their parts two schemas meet in what they share. -/
theorem meetWithin_common (hd : d.lazy) (hg : env.Grounded d) (htry : Tries env True) {fuel : Nat}
    {expanding : List (Schema × Schema)} (ha : a.Commutes d) (hb : b.Commutes d) (hfuel : a.size + b.size ≤ fuel) :
    Composes env d a b (env.meetWithin fuel expanding a b) := by
  induction fuel generalizing expanding a b with
  | zero =>
    have := a.size_pos
    omega
  | succ fuel ih =>
    have hfa := ha.orderly.fits
    have hfb := hb.orderly.fits
    have meets : ∀ s t : Schema, s.Commutes d → t.Commutes d → s.size + t.size < a.size + b.size →
        Composes env d s t (env.meetWithin fuel expanding s t) := fun s t hs ht hlt => ih hs ht (by omega)
    refine meetWithin_forms (fun hsame => ?_) (fun hua => ?_) (fun hub => ?_) (fun hne hua hub hnever => ?_) (fun href => ?_)
      (fun bs hbs hne hnb => ?_) (fun bs hbs hne hna => ?_) fun hu => meetPlain_common hd hg htry ha hb hu ?_
    · exact ⟨.equal hsame, ha.orderly, fun v _ => ⟨.equal hsame, fun h => (h.sound hfa hfb).1⟩⟩
    · subst hua
      exact ⟨.unknownLeft, hb.orderly, fun v _ => ⟨.unknownLeft, fun h => (h.sound hfa hfb).2⟩⟩
    · subst hub
      exact ⟨.unknownRight, ha.orderly, fun v _ => ⟨.unknownRight, fun h => (h.sound hfa hfb).1⟩⟩
    · refine ⟨rfl, fun hoverlap => ?_⟩
      rcases hnever with hn | hn
      · exact (hoverlap.never hn).elim hne hub
      · exact ((hoverlap.symm hfa hfb).never hn).elim (fun h => hne (same_symm hfb hfa h)) hua
    · rcases href with h | h
      · obtain ⟨r, rfl⟩ := isRef_iff.mp h
        exact ha.root.2.elim
      · obtain ⟨r, rfl⟩ := isRef_iff.mp h
        exact hb.root.2.elim
    · subst hbs
      refine meetBranches_common hne ha.root.2 hnb fun s hs => meets s b (ha.part hs) hb ?_
      have := size_lt_of_part (s := .union bs) hs
      omega
    · subst hbs
      refine (meetBranches_common hne hb.root.2 hna fun t ht =>
        (meets a t ha (hb.part ht) ?_).symm (hfb.part ht) hfa).symm hfa hfb
      have := size_lt_of_part (s := .union bs) ht
      omega
    · refine ⟨fun s hs t ht => meets s t (ha.part hs) (hb.part ht) ?_, fun hlt hpair => ?_⟩
      · have := size_lt_of_part hs
        have := size_lt_of_part ht
        omega
      · have := a.split.1.size_pos
        obtain ⟨n, rfl⟩ : ∃ n, fuel = n + 1 := Nat.exists_eq_succ_of_ne_zero (by omega)
        exact meetWithin_smaller hpair (fits_split hfa).1 (fits_split hfb).1

/-- The intersection of two schemas is what they share. -/
theorem intersect_common (hd : d.lazy) (hg : env.Grounded d) (htry : Tries env True) (ha : a.Commutes d)
    (hb : b.Commutes d) : Ends (env.intersect a b).1 (Common env d a b) (Barred env a b) :=
  meetWithin_common hd hg htry ha hb (size_le_pairFuel env a b) false

end Env

namespace Engine

open Schema

variable {s : Session} {scope : Option Nat} {config trial : Config} {a b : Schema}

/-- A single node of the schemas that can change places in an intersection. -/
def Interchangeable (s : Schema) : Prop := s.Fits Dialect.plain ∧ s.Keeps ∧ s.Commuting

/-- In both orders two schemas meet in schemas that accept the same values, or are without a common value. -/
theorem intersection_comm (hmemo : s.memo.entries = []) (htrial : s.configOf scope = .ok trial)
    (hexact : trial.exactOptional = true) (hconfig : config.exactOptional = true) (ha : a.Every Interchangeable)
    (hb : b.Every Interchangeable) :
    Agree (fun e f => e.isUnsatisfiable = true ∧ f.isUnsatisfiable = true)
      (fun c c' => ∀ v : Value, v.Formed → v.MarkerFree → ∃ r, (s.env scope).accepts config c v = .ok r ∧
        (s.env scope).accepts config c' v = .ok r)
      ((intersection scope a b).run s).1 ((intersection scope b a).run s).1 := by
  have commutes : ∀ {t : Schema}, t.Every Interchangeable → t.Commutes Dialect.plain.lazily := fun ht =>
    ht.mono fun _ h => ⟨h.1.lazily h.2.1, h.2.2⟩
  have htry : Tries (s.env scope) True :=
    ⟨fun c hc => Except.ok.inj (htrial.symm.trans hc) ▸ hexact, fun _ => ⟨trial, htrial⟩⟩
  have hg : (s.env scope).Grounded Dialect.plain.lazily := nofun
  have accepts : ∀ {c : Schema} {v : Value}, c.Orderly Dialect.plain.lazily → v.MarkerFree →
      Decides ((s.env scope).accepts config c v) (c.Member (s.env scope) true v) := by
    intro c v hc hv
    rw [← hconfig]
    exact Env.accepts_decides hg (fun _ => hconfig) hc.fits (fun h => h.elim nofun) fun _ => hv
  have hca := commutes ha
  have hcb := commutes hb
  have hfa := hca.orderly.fits
  have hfb := hcb.orderly.fits
  have hab := Env.intersect_common trivial hg htry hca hcb
  have hba := Env.intersect_common trivial hg htry hcb hca
  rw [run_intersection hmemo scope a b, run_intersection hmemo scope b a]
  cases hx : ((s.env scope).intersect a b).1 with
  | ok c =>
    rw [hx] at hab
    cases hy : ((s.env scope).intersect b a).1 with
    | ok c' =>
      rw [hy] at hba
      intro v hv hm
      have hiff : c.Member (s.env scope) true v ↔ c'.Member (s.env scope) true v := by
        rw [hab.member v hv, hba.member v hv]
        exact ⟨fun h => h.symm hfa hfb, fun h => h.symm hfb hfa⟩
      obtain ⟨r, hr, hmem⟩ := accepts hab.orderly hm
      obtain ⟨r', hr', hmem'⟩ := accepts hba.orderly hm
      have : r = r' := Bool.eq_iff_iff.mpr (hmem.trans (hiff.trans hmem'.symm))
      exact ⟨r, hr, this ▸ hr'⟩
    | error f =>
      rw [hy] at hba
      exact hba.2 (hab.overlap.symm hfa hfb)
  | error e =>
    rw [hx] at hab
    cases hy : ((s.env scope).intersect b a).1 with
    | ok c' =>
      rw [hy] at hba
      exact hab.2 (hba.overlap.symm hfb hfa)
    | error f =>
      rw [hy] at hba
      exact ⟨hab.1, hba.1⟩

/-- A name with a list of texts and numbers. -/
def named : Schema := .object
  ⟨[⟨.name "name", .keyword .string, .required⟩,
    ⟨.name "tags", .array (.union [.keyword .string, .keyword .number]), .required⟩], none, .ignore⟩

/-- Texts with a whole number behind them. -/
def counted : Schema := .tuple [⟨.variadic, .keyword .string⟩, ⟨.trailing, .keyword .integer⟩]

def tagged : Schema := .object
  ⟨[⟨.name "tags", counted, .required⟩, ⟨.name "note", .keyword .string, .optional⟩], none, .ignore⟩

theorem tagged_interchangeable : named.Every Interchangeable ∧ tagged.Every Interchangeable := by
  have keyword : ∀ k : Keyword, (Schema.keyword k).Every Interchangeable := fun _ =>
    .intro ⟨trivial, trivial, trivial⟩ (by simp [parts])
  have either : (Schema.union [.keyword .string, .keyword .number]).Every Interchangeable :=
    .intro ⟨trivial, trivial, by simp [Commuting, isNever]⟩ (by simp [parts, keyword])
  have list : (Schema.array (.union [.keyword .string, .keyword .number])).Every Interchangeable :=
    .intro ⟨⟨rfl, by simp [Role.default?]⟩, trivial, trivial⟩ (by simpa [Schema.array, parts] using either)
  have row : counted.Every Interchangeable :=
    .intro ⟨⟨rfl, by simp [Role.default?]⟩, trivial, trivial⟩ (by simp [counted, parts, keyword])
  constructor
  · refine .intro ⟨⟨rfl, ?_, ?_, ?_⟩, ?_, trivial⟩ ?_
    · simp [ObjectShape.keys]
    · simp [Presence.default?]
    · simp
    · simp [named, Keeps]
    · simp [named, parts, IndexSignature.parts, keyword, list]
  · refine .intro ⟨⟨rfl, ?_, ?_, ?_⟩, ?_, trivial⟩ ?_
    · simp [ObjectShape.keys]
    · simp [Presence.default?]
    · simp
    · simp [tagged, Keeps]
    · simp [tagged, parts, IndexSignature.parts, keyword, row]

/-- The properties stand in the order of the first object. -/
def namedFirst : Schema := .object
  ⟨[⟨.name "name", .keyword .string, .required⟩, ⟨.name "tags", counted, .required⟩,
    ⟨.name "note", .keyword .string, .optional⟩], none, .ignore⟩

def taggedFirst : Schema := .object
  ⟨[⟨.name "tags", counted, .required⟩, ⟨.name "note", .keyword .string, .optional⟩,
    ⟨.name "name", .keyword .string, .required⟩], none, .ignore⟩

def nameAndTags : Value :=
  .mapping [(.string "name", .string "x"), (.string "tags", .list [.string "y", .int 1])]

theorem intersection_comm_tagged :
    ((intersection none named tagged).run freshSession).1 = .ok namedFirst ∧
      ((intersection none tagged named).run freshSession).1 = .ok taggedFirst ∧
      (freshSession.env none).accepts Config.default namedFirst nameAndTags = .ok true ∧
      (freshSession.env none).accepts Config.default taggedFirst nameAndTags = .ok true := by
  have hleft : ((intersection none named tagged).run freshSession).1 = .ok namedFirst := rfl
  have hright : ((intersection none tagged named).run freshSession).1 = .ok taggedFirst := rfl
  have haccepts : (freshSession.env none).accepts Config.default namedFirst nameAndTags = .ok true := rfl
  have hmemo : freshSession.memo.entries = [] := rfl
  have htrial : freshSession.configOf none = .ok Config.default := rfl
  have hconfig : Config.default.exactOptional = true := rfl
  have hcomm := intersection_comm hmemo htrial hconfig hconfig tagged_interchangeable.1 tagged_interchangeable.2
  rw [hleft, hright] at hcomm
  have throughout : ∀ {p : Value → Prop}, p nameAndTags → p (.list [.string "y", .int 1]) → p (.int 1) →
      (∀ t, p (.string t)) → nameAndTags.Throughout p := by
    intro p hrow hlist hnumber htext
    have leaf : ∀ {v : Value}, v.label? = none → v.children = [] → p v → v.Throughout p := fun hl hc hv =>
      Value.throughout_of_children hl hv (by simp [hc])
    have text : ∀ t, (Value.string t).Throughout p := fun t => leaf rfl rfl (htext t)
    have list : (Value.list [.string "y", .int 1]).Throughout p :=
      Value.throughout_of_children rfl hlist (by simpa [Value.children] using ⟨text "y", leaf rfl rfl hnumber⟩)
    exact Value.throughout_of_children rfl hrow (by simpa [nameAndTags, Value.children] using ⟨text "x", list⟩)
  have hformed : nameAndTags.Formed := throughout trivial trivial trivial fun _ => trivial
  have hmarker : nameAndTags.MarkerFree := by
    refine throughout (fun es hes => ?_) (by rintro _ ⟨⟩) (by rintro _ ⟨⟩) (by rintro _ _ ⟨⟩)
    obtain rfl : [⟨.name "name", .string "name", .string "x"⟩,
      ⟨.name "tags", .string "tags", .list [.string "y", .int 1]⟩] = es := Option.some.inj hes
    simp [Entry.keys]
  obtain ⟨r, hr, hr'⟩ := hcomm nameAndTags hformed hmarker
  obtain rfl : r = true := Except.ok.inj (hr.symm.trans haccepts)
  exact ⟨hleft, hright, haccepts, hr'⟩

/-- An object or anything else, with a text behind it. -/
def openRow : Schema :=
  .tuple [⟨.leading, .union [.object ⟨[], none, .ignore⟩, .keyword .unknown]⟩, ⟨.leading, .keyword .string⟩]

/-- The order counts where a value has the index marker for a key, which only the later members of a conjunction do
not see, and where a union has a branch without values. A pattern that does not compile stops both orders. -/
theorem order_counts : (freshSession.memo.entries = [] ∧ freshSession.configOf none = .ok Config.default ∧
      Config.default.exactOptional = true) ∧
    ((row Key.index.toData).Formed ∧
      ∃ c c', ((intersection none looseRow openRow).run freshSession).1 = .ok c ∧
        ((intersection none openRow looseRow).run freshSession).1 = .ok c' ∧
        (freshSession.env none).accepts Config.default c (row Key.index.toData) = .ok true ∧
        (freshSession.env none).accepts Config.default c' (row Key.index.toData) = .ok false) ∧
    (let unreadable : Schema := .constrained (.keyword .string) [.pattern ⟨"[", 0, none⟩]
      ∃ e f, ((intersection none (.literal (.string "x")) unreadable).run freshSession).1 = .error e ∧
        ((intersection none unreadable (.literal (.string "x"))).run freshSession).1 = .error f ∧
        e.isUnsatisfiable = false ∧ f.isUnsatisfiable = false) ∧
    ((intersection none (.union [.keyword .unknown]) (.union [never])).run freshSession).1 = .ok never ∧
      ∃ e, ((intersection none (.union [never]) (.union [.keyword .unknown])).run freshSession).1 = .error e ∧
        e.isUnsatisfiable = true :=
  ⟨⟨rfl, rfl, rfl⟩, ⟨throughout_row trivial trivial trivial trivial, _, _, rfl, rfl, rfl, rfl⟩,
    ⟨_, _, rfl, rfl, rfl, rfl⟩, rfl, _, rfl, rfl⟩

end Engine
end Schemata
