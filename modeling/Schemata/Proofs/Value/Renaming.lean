import Schemata.Proofs.Value.Nesting
import Schemata.Validation.Check
import Mathlib.Data.List.Forall2
import Mathlib.Logic.Equiv.Basic

/-! Symbols under other names. A value recast has its symbols renamed and no labels of tuples; it has the same class, the
same text and the same parts. An equality that names no renamed symbol sees no difference. -/
namespace Schemata

namespace Token

/-- The tokens change places with their copies numbered `n`. -/
def exchanged (ts : List Token) (n : Nat) (t : Token) : Token :=
  match ts.find? fun u => u.id == t.id with
  | some u => Equiv.swap u (u.copied n) t
  | none => t

variable {ts : List Token} {n : Nat} {t : Token}

theorem id_swap (u t : Token) (n : Nat) : (Equiv.swap u (u.copied n) t).id = t.id := by
  rw [Equiv.swap_apply_def]
  split_ifs with h h' <;> simp_all [copied]

theorem id_exchanged (ts : List Token) (n : Nat) (t : Token) : (exchanged ts n t).id = t.id := by
  unfold exchanged
  cases ts.find? fun u => u.id == t.id with
  | none => rfl
  | some u => exact id_swap u t n

theorem exchanged_injective (ts : List Token) (n : Nat) : (exchanged ts n).Injective := by
  intro t u h
  have hid : t.id = u.id := by rw [← id_exchanged ts n t, h, id_exchanged]
  unfold exchanged at h
  rw [hid] at h
  cases hfind : ts.find? fun v => v.id == u.id with
  | none => simpa only [hfind] using h
  | some v =>
    rw [hfind] at h
    exact (Equiv.swap v (v.copied n)).injective h

/-- Where no two tokens are copies of one, each becomes its copy. -/
theorem exchanged_of_mem (hts : ∀ t ∈ ts, ∀ u ∈ ts, t.id = u.id → t = u) (ht : t ∈ ts) :
    exchanged ts n t = t.copied n := by
  obtain ⟨u, hu⟩ := Option.isSome_iff_exists.mp
    (List.find?_isSome (p := fun u : Token => u.id == t.id).mpr ⟨t, ht, beq_self_eq_true _⟩)
  obtain rfl : u = t := hts u (List.mem_of_find?_eq_some hu) t ht (by simpa using List.find?_some hu)
  simp only [exchanged, hu, Equiv.swap_apply_left]

theorem exchanged_of_ne (ht : ∀ u ∈ ts, u.id ≠ t.id) : exchanged ts n t = t := by
  have hfind : ts.find? (fun u => u.id == t.id) = none := List.find?_eq_none.mpr (by simpa using ht)
  simp only [exchanged, hfind]

end Token

/-- The symbol under another name. -/
def Symbol.recast (f : Token → Token) (s : Symbol) : Symbol := ⟨f s.token, s.description⟩

def Key.recast (f : Token → Token) : Key → Key
  | .symbol s => .symbol (s.recast f)
  | k => k

def Segment.recast (f : Token → Token) : Segment → Segment
  | .symbol s => .symbol (s.recast f)
  | s => s

theorem Symbol.recast_injective {f : Token → Token} (hf : f.Injective) : (Symbol.recast f).Injective := by
  rintro ⟨t, d⟩ ⟨u, e⟩ h
  simpa [Symbol.recast, hf.eq_iff] using h

@[simp] theorem Key.recast_id : Key.recast id = id := by
  funext k
  cases k <;> rfl

@[simp] theorem Segment.recast_id : Segment.recast id = id := by
  funext s
  cases s <;> rfl

theorem Segment.recast_ofKey (f : Token → Token) (k : Key) : (ofKey k).recast f = ofKey (k.recast f) := by
  cases k <;> rfl

theorem Key.recast_injective {f : Token → Token} (hf : f.Injective) : (Key.recast f).Injective := by
  intro k l h
  cases k <;> cases l <;> simp_all [Key.recast, (Symbol.recast_injective hf).eq_iff]

namespace Value

/-- Values that stand directly inside a value, the keys of a mapping among them. -/
def parts : Value → List Value
  | .list items => items
  | .tuple _ items => items
  | .mapping entries => entries.flatMap fun e => [e.1, e.2]
  | .record _ _ parts => parts
  | .knot _ body => [body]
  | _ => []

theorem sizeOf_lt_of_part {v w : Value} (h : w ∈ v.parts) : sizeOf w < sizeOf v := by
  cases v <;> simp only [parts, List.not_mem_nil] at h
  case list items =>
    have := List.sizeOf_lt_of_mem h
    simp only [list.sizeOf_spec]
    omega
  case tuple label items =>
    have := List.sizeOf_lt_of_mem h
    simp only [tuple.sizeOf_spec]
    omega
  case mapping entries =>
    obtain ⟨⟨k, x⟩, he, hw⟩ := List.mem_flatMap.mp h
    have := List.sizeOf_lt_of_mem he
    simp only [Prod.mk.sizeOf_spec] at this
    simp only [mapping.sizeOf_spec]
    obtain rfl | rfl : w = k ∨ w = x := by simpa using hw
    · omega
    · omega
  case record kind token parts =>
    have := List.sizeOf_lt_of_mem h
    simp only [record.sizeOf_spec]
    omega
  case knot l body =>
    obtain rfl := List.mem_singleton.mp h
    simp only [knot.sizeOf_spec]
    omega

/-- A value satisfies what holds of a value whenever it holds of its parts. -/
theorem induction_on_parts {P : Value → Prop} (h : ∀ v, (∀ w ∈ v.parts, P w) → P v) (v : Value) : P v := by
  induction hn : sizeOf v using Nat.strongRecOn generalizing v with
  | _ n ih => exact h v fun w hw => ih (sizeOf w) (hn ▸ sizeOf_lt_of_part hw) w rfl

theorem forall_entries {P : Value → Prop} {entries : List (Value × Value)}
    (h : ∀ w ∈ (mapping entries).parts, P w) : ∀ e ∈ entries, P e.1 ∧ P e.2 := fun e he =>
  ⟨h _ (List.mem_flatMap.mpr ⟨e, he, by simp⟩), h _ (List.mem_flatMap.mpr ⟨e, he, by simp⟩)⟩

mutual
/-- The symbols anywhere in the value, keys included. -/
def symbols : Value → List Symbol
  | .symbol s => [s]
  | .list items => allSymbols items
  | .tuple _ items => allSymbols items
  | .mapping entries => entrySymbols entries
  | .record _ _ parts => allSymbols parts
  | .knot _ body => symbols body
  | _ => []
termination_by structural v => v
def allSymbols : List Value → List Symbol
  | [] => []
  | v :: rest => symbols v ++ allSymbols rest
termination_by structural vs => vs
def entrySymbols : List (Value × Value) → List Symbol
  | [] => []
  | (k, v) :: rest => symbols k ++ symbols v ++ entrySymbols rest
termination_by structural es => es
end

theorem allSymbols_eq (vs : List Value) : allSymbols vs = vs.flatMap symbols := by
  induction vs with
  | nil => rfl
  | cons v vs ih => rw [allSymbols, ih, List.flatMap_cons]

theorem entrySymbols_eq (es : List (Value × Value)) :
    entrySymbols es = (es.flatMap fun e => [e.1, e.2]).flatMap symbols := by
  induction es with
  | nil => rfl
  | cons e es ih => simp [entrySymbols, ih]

theorem symbols_of_part {v w : Value} (h : w ∈ v.parts) : w.symbols ⊆ v.symbols := by
  have hall : w.symbols ⊆ v.parts.flatMap symbols := fun s hs => List.mem_flatMap.mpr ⟨w, h, hs⟩
  cases v <;> simp only [parts, List.not_mem_nil] at h <;>
    simpa only [symbols, allSymbols_eq, entrySymbols_eq, parts, List.flatMap_singleton] using hall

theorem symbols_copied (n : Nat) (v : Value) :
    (v.copied n).symbols = v.symbols.map fun s => ⟨s.token.copied n, s.description⟩ := by
  induction v using induction_on_parts with
  | _ v ih =>
    have all : ∀ vs : List Value,
        (∀ x ∈ vs, (x.copied n).symbols = x.symbols.map fun s => ⟨s.token.copied n, s.description⟩) →
        allSymbols (copiedAll n vs) = (allSymbols vs).map fun s => ⟨s.token.copied n, s.description⟩ := by
      intro vs h
      induction vs with
      | nil => rfl
      | cons x vs ih =>
        obtain ⟨hx, hvs⟩ := List.forall_mem_cons.mp h
        rw [copiedAll, allSymbols, allSymbols, hx, ih hvs, List.map_append]
    cases v with
    | list items => exact all items ih
    | tuple _ items => exact all items ih
    | record _ _ parts => exact all parts ih
    | mapping entries =>
      have hentries := forall_entries ih
      clear ih
      simp only [copied, symbols]
      induction entries with
      | nil => rfl
      | cons e entries ih =>
        obtain ⟨he, hrest⟩ := List.forall_mem_cons.mp hentries
        simp only [copiedEntries, entrySymbols, he.1, he.2, ih hrest, List.map_append]
    | knot l body => exact ih body (List.mem_singleton.mpr rfl)
    | _ => rfl

/-- No symbol in the value is renamed. -/
def Keeps (f : Token → Token) (v : Value) : Prop := ∀ s ∈ v.symbols, f s.token = s.token

theorem Keeps.part {f : Token → Token} {v w : Value} (h : v.Keeps f) (hw : w ∈ v.parts) : w.Keeps f := fun s hs =>
  h s (symbols_of_part hw hs)

mutual
/-- The value with its symbols renamed, and without the labels of tuples. -/
def recast (f : Token → Token) : Value → Value
  | .symbol s => .symbol (s.recast f)
  | .list items => .list (recastAll f items)
  | .tuple _ items => .tuple none (recastAll f items)
  | .mapping entries => .mapping (recastEntries f entries)
  | .record kind token parts => .record kind token (recastAll f parts)
  | .knot l body => .knot l (recast f body)
  | v => v
termination_by structural v => v
def recastAll (f : Token → Token) : List Value → List Value
  | [] => []
  | v :: rest => recast f v :: recastAll f rest
termination_by structural vs => vs
def recastEntries (f : Token → Token) : List (Value × Value) → List (Value × Value)
  | [] => []
  | (k, v) :: rest => (recast f k, recast f v) :: recastEntries f rest
termination_by structural vs => vs
end

variable {f : Token → Token} {v w : Value}

theorem recastAll_eq (vs : List Value) : recastAll f vs = vs.map (recast f) := by
  induction vs with
  | nil => rfl
  | cons v vs ih => rw [recastAll, ih, List.map_cons]

theorem recastEntries_eq (es : List (Value × Value)) :
    recastEntries f es = es.map fun e => (e.1.recast f, e.2.recast f) := by
  induction es with
  | nil => rfl
  | cons e es ih => rw [recastEntries, ih, List.map_cons]

theorem recast_bind (l : Token) (v w : Value) : (bind l v w).recast f = bind l (v.recast f) (w.recast f) := by
  induction w using induction_on_parts with
  | _ w ih =>
    have all : ∀ ws : List Value, (∀ x ∈ ws, (bind l v x).recast f = bind l (v.recast f) (x.recast f)) →
        recastAll f (bindAll l v ws) = bindAll l (v.recast f) (recastAll f ws) := by
      intro ws h
      induction ws with
      | nil => rfl
      | cons x ws ih =>
        obtain ⟨hx, hws⟩ := List.forall_mem_cons.mp h
        simp only [bindAll, recastAll, hx, ih hws]
    cases w with
    | list items => simp only [bind, recast, all items ih]
    | tuple _ items => simp only [bind, recast, all items ih]
    | record _ _ parts => simp only [bind, recast, all parts ih]
    | mapping entries =>
      have hentries := forall_entries ih
      clear ih
      have : recastEntries f (bindEntries l v entries) = bindEntries l (v.recast f) (recastEntries f entries) := by
        induction entries with
        | nil => rfl
        | cons e entries ih =>
          obtain ⟨he, hentries⟩ := List.forall_mem_cons.mp hentries
          simp only [bindEntries, recastEntries, he.1, he.2, ih hentries]
      simp only [bind, recast, this]
    | knot k body =>
      have hbody := ih body (List.mem_singleton.mpr rfl)
      by_cases hk : k = l <;> simp [bind, recast, hk, hbody]
    | back k c => by_cases hk : k = l <;> simp [bind, recast, hk]
    | _ => rfl

theorem recast_unfold (v : Value) : (v.recast f).unfold = v.unfold.recast f := by
  cases v with
  | knot l body => simp only [recast, unfold, recast_bind]
  | _ => rfl

@[simp] theorem recast_label? (v : Value) : (v.recast f).label? = v.label? := by cases v <;> rfl

theorem recast_items? (v : Value) : (v.recast f).items? = v.items?.map fun p => (p.1, p.2.map (recast f)) := by
  unfold items?
  rw [recast_unfold]
  cases v.unfold <;> simp [recast, recastAll_eq]

theorem recast_entries? (v : Value) :
    (v.recast f).entries? = v.entries?.map (List.map fun e => (e.1.recast f, e.2.recast f)) := by
  unfold entries?
  rw [recast_unfold]
  cases v.unfold <;> simp [recast, recastEntries_eq]

@[simp] theorem recast_domain (v : Value) : (v.recast f).domain = v.domain := by
  induction v using induction_on_parts with
  | _ v ih =>
    cases v with
    | knot l body => exact ih body (List.mem_singleton.mpr rfl)
    | _ => rfl

@[simp] theorem recast_typeName (v : Value) : (v.recast f).typeName = v.typeName := by
  induction v using induction_on_parts with
  | _ v ih =>
    cases v with
    | knot l body => exact ih body (List.mem_singleton.mpr rfl)
    | _ => rfl

@[simp] theorem recast_isForeign (v : Value) : (v.recast f).isForeign = v.isForeign := by cases v <;> rfl

@[simp] theorem recast_isUndefined (v : Value) : Check.isUndefined (v.recast f) = Check.isUndefined v := by
  cases v <;> rfl

@[simp] theorem recast_length? (v : Value) : (v.recast f).length? = v.length? := by
  have items : (v.recast f).items?.map (fun s => s.2.length) = v.items?.map fun s => s.2.length := by
    rw [recast_items?, Option.map_map]
    congr 1
    funext p
    exact List.length_map _
  cases v <;> first | rfl | exact items

theorem recast_numberSame (n : Number) (w : Value) : numberSame n (w.recast f) = numberSame n w := by
  cases w <;> rfl

/-- An equality that names no renamed symbol sees neither the names of symbols nor the labels of tuples. -/
theorem same_recast (hf : f.Injective) (hv : v.Keeps f) (w : Value) : v.same (w.recast f) = v.same w := by
  induction v using induction_on_parts generalizing w with
  | _ v ih =>
    replace ih := fun x hx => ih x hx (hv.part hx)
    have all : ∀ vs : List Value, (∀ x ∈ vs, ∀ w : Value, x.same (w.recast f) = x.same w) →
        ∀ ws : List Value, sameAll vs (ws.map (recast f)) = sameAll vs ws := by
      intro vs h ws
      induction vs generalizing ws with
      | nil => cases ws <;> rfl
      | cons x vs ih =>
        obtain ⟨hx, hvs⟩ := List.forall_mem_cons.mp h
        cases ws with
        | nil => rfl
        | cons w ws => simp only [List.map_cons, sameAll, hx, ih hvs]
    cases v with
    | bool b => exact recast_numberSame _ w
    | number n => exact recast_numberSame n w
    | symbol s =>
      have hs : s.recast f = s := by rw [Symbol.recast, hv s (List.mem_singleton.mpr rfl)]
      cases w with
      | symbol t =>
        have ht : s = t.recast f ↔ s = t := by
          conv_lhs => rw [← hs, (Symbol.recast_injective hf).eq_iff]
        simp only [recast, same, beq_eq_beq, ht]
      | _ => rfl
    | list xs =>
      simp only [same, recast_unfold]
      cases w.unfold <;> simp only [recast, recastAll_eq, all xs ih]
    | tuple _ xs =>
      simp only [same, recast_unfold]
      cases w.unfold <;> simp only [recast, recastAll_eq, all xs ih]
    | mapping xs =>
      have hentries := forall_entries ih
      have found : ∀ {k : Value} (ys : List (Value × Value)), (∀ w : Value, k.same (w.recast f) = k.same w) →
          (recastEntries f ys).find? (fun y => k.same y.1) =
            (ys.find? fun y => k.same y.1).map fun e => (e.1.recast f, e.2.recast f) := by
        intro k ys hk
        rw [recastEntries_eq, List.find?_map]
        simp only [Function.comp_def, hk]
      have within : ∀ ys, within xs (recastEntries f ys) = within xs ys := by
        intro ys
        clear ih hv
        induction xs with
        | nil => rfl
        | cons x xs ih =>
          obtain ⟨hx, hxs⟩ := List.forall_mem_cons.mp hentries
          simp only [Value.within, found ys hx.1, ih hxs]
          cases ys.find? fun y => x.1.same y.1 with
          | none => rfl
          | some y => simp only [Option.map_some, hx.2]
      simp only [same, recast_unfold]
      cases w.unfold <;> simp only [recast, within]
      simp [recastEntries_eq]
    | record kind token xs =>
      cases w with
      | record other u ys =>
        cases token <;> cases u <;> simp only [recast, same, recastAll_eq, all xs ih]
      | _ => cases token <;> rfl
    | knot l body =>
      simp only [same, recast_label?, ih body (List.mem_singleton.mpr rfl)]
    | back l c => simp only [same, recast_label?]
    | _ => cases w <;> rfl

theorem literalEqual_recast (hf : f.Injective) (hv : v.Keeps f) (w : Value) :
    v.literalEqual (w.recast f) = v.literalEqual w := by
  have heq : v.equal (w.recast f) = v.equal w := by simp only [equal, same_recast hf hv]
  cases v <;> cases w <;> first | rfl | simp_all [literalEqual, recast, typeName]

@[simp] theorem recast_ellipsis (v : Value) : (v.recast f).ellipsis = v.ellipsis := by cases v <;> rfl

theorem recast_printedWithin (active : List (Token × String)) (v : Value) :
    printedWithin active (v.recast f) = printedWithin active v := by
  induction v using induction_on_parts generalizing active with
  | _ v ih =>
    have all : ∀ vs : List Value,
        (∀ x ∈ vs, ∀ active, printedWithin active (x.recast f) = printedWithin active x) →
        ∀ active, printedItems active (recastAll f vs) = printedItems active vs := by
      intro vs h active
      induction vs with
      | nil => rfl
      | cons x vs ih =>
        obtain ⟨hx, hvs⟩ := List.forall_mem_cons.mp h
        simp only [recastAll, printedItems, hx, ih hvs]
    cases v with
    | list items => simp only [recast, printedWithin, all items ih]
    | tuple _ items => simp only [recast, printedWithin, all items ih]
    | record _ _ parts => simp only [recast, printedWithin, all parts ih]
    | mapping entries =>
      have hentries := forall_entries ih
      have : printedEntries active (recastEntries f entries) = printedEntries active entries := by
        clear ih
        induction entries with
        | nil => rfl
        | cons e entries ih =>
          obtain ⟨he, hentries⟩ := List.forall_mem_cons.mp hentries
          simp only [recastEntries, printedEntries, he.1, he.2, ih hentries]
      simp only [recast, printedWithin, this]
    | knot l body =>
      simp only [recast, printedWithin, recast_ellipsis, ih body (List.mem_singleton.mpr rfl)]
    | _ => rfl

@[simp] theorem recast_printed (v : Value) : (v.recast f).printed = v.printed := recast_printedWithin [] v

section Shapes

variable {of name s : String} {y : Symbol}

theorem recast_eq_null : v.recast f = .null ↔ v = .null := by cases v <;> simp [recast]

theorem recast_eq_string : v.recast f = .string s ↔ v = .string s := by cases v <;> simp [recast]

theorem recast_eq_number {n : Number} : v.recast f = .number n ↔ v = .number n := by
  cases v <;> simp [recast]

theorem recast_eq_symbol : v.recast f = .symbol y ↔ ∃ z, v = .symbol z ∧ z.recast f = y := by
  cases v <;> simp [recast]

theorem recast_eq_choice : v.recast f = .choice of name ↔ v = .choice of name := by
  cases v <;> simp [recast]

theorem recast_eq_pair {kind : RecordKind} {token : Option Token} {a b : Value} :
    v.recast f = .record kind token [a, b] ↔
      ∃ a' b', v = .record kind token [a', b'] ∧ a'.recast f = a ∧ b'.recast f = b := by
  cases v <;> simp [recast, recastAll_eq, List.map_eq_cons_iff]
  grind

end Shapes

@[simp] theorem recast_bareText (v : Value) : (v.recast f).bareText = v.bareText := by
  rw [bareText.eq_def (v.recast f)]
  split
  case h_1 s h => rw [recast_eq_string.mp h, bareText]
  case h_2 token of s h =>
    obtain ⟨a, b, rfl, ha, hb⟩ := recast_eq_pair.mp h
    rw [recast_eq_choice.mp ha, recast_eq_string.mp hb, bareText]
  case h_3 token of w h =>
    obtain ⟨a, b, rfl, ha, rfl⟩ := recast_eq_pair.mp h
    rw [recast_eq_choice.mp ha, recast_printed, bareText]
  case h_4 token of w h =>
    obtain ⟨a, b, rfl, ha, rfl⟩ := recast_eq_pair.mp h
    rw [recast_eq_choice.mp ha, bareText]
  case h_5 h₁ h₂ h₃ h₄ =>
    rw [recast_printed, bareText]
    · rintro s rfl
      exact h₁ s rfl
    · rintro token of s rfl
      exact h₂ token of s rfl
    · rintro token of w rfl
      exact h₃ token of (w.recast f) rfl
    · rintro token of w rfl
      exact h₄ token of (w.recast f) rfl

/-- A value whose symbols keep their names loses only labels. -/
theorem Keeps.recast_eq (hv : v.Keeps f) : v.recast f = v.recast id := by
  induction v using induction_on_parts with
  | _ v ih =>
    replace ih := fun x hx => ih x hx (hv.part hx)
    have all : ∀ vs : List Value, (∀ x ∈ vs, x.recast f = x.recast id) → recastAll f vs = recastAll id vs := by
      intro vs h
      rw [recastAll_eq, recastAll_eq]
      exact List.map_congr_left h
    cases v with
    | symbol s => simp only [recast, Symbol.recast, hv s (List.mem_singleton.mpr rfl), id]
    | list items => simp only [recast, all items ih]
    | tuple _ items => simp only [recast, all items ih]
    | record _ _ parts => simp only [recast, all parts ih]
    | mapping entries =>
      have hentries := forall_entries ih
      simp only [recast, recastEntries_eq]
      exact congrArg _ (List.map_congr_left fun e he => Prod.ext (hentries e he).1 (hentries e he).2)
    | knot l body => simp only [recast, ih body (List.mem_singleton.mpr rfl)]
    | _ => rfl

mutual
/-- Nothing inside the value, keys included, is known by its identity but symbols: no container contains itself, and no
record equals only itself. -/
def isTree : Value → Bool
  | .knot _ _ => false
  | .back _ _ => false
  | .list items => areTrees items
  | .tuple _ items => areTrees items
  | .mapping entries => areEntryTrees entries
  | .record _ token parts => token.isNone && areTrees parts
  | _ => true
termination_by structural v => v
def areTrees : List Value → Bool
  | [] => true
  | v :: rest => isTree v && areTrees rest
termination_by structural vs => vs
def areEntryTrees : List (Value × Value) → Bool
  | [] => true
  | (k, v) :: rest => isTree k && isTree v && areEntryTrees rest
termination_by structural vs => vs
end

theorem areTrees_iff {vs : List Value} : areTrees vs = true ↔ ∀ v ∈ vs, v.isTree = true := by
  induction vs with
  | nil => simp [areTrees]
  | cons v vs ih => simp [areTrees, ih]

theorem areEntryTrees_iff {es : List (Value × Value)} :
    areEntryTrees es = true ↔ ∀ w ∈ (mapping es).parts, w.isTree = true := by
  induction es with
  | nil => simp [areEntryTrees, parts]
  | cons e es ih => simp_all [areEntryTrees, parts, and_assoc]

theorem isTree_of_part (h : v.isTree = true) (hw : w ∈ v.parts) : w.isTree = true := by
  cases v with
  | list items => exact areTrees_iff.mp h w hw
  | tuple _ items => exact areTrees_iff.mp h w hw
  | record _ _ parts =>
    simp only [isTree, Bool.and_eq_true] at h
    exact areTrees_iff.mp h.2 w hw
  | mapping es => exact areEntryTrees_iff.mp h w hw
  | knot _ _ => simp [isTree] at h
  | _ => simp [parts] at hw

/-- A copy has its symbols renamed and other labels. -/
theorem recast_copied {n : Nat} (h : v.isTree = true) (hf : ∀ s ∈ v.symbols, f s.token = s.token.copied n) :
    v.recast f = (v.copied n).recast id := by
  induction v using induction_on_parts with
  | _ v ih =>
    replace ih := fun w hw => ih w hw (isTree_of_part h hw) fun s hs => hf s (symbols_of_part hw hs)
    have all : ∀ vs : List Value, (∀ x ∈ vs, x.recast f = (x.copied n).recast id) →
        recastAll f vs = recastAll id (copiedAll n vs) := by
      intro vs h
      induction vs with
      | nil => rfl
      | cons x vs ih =>
        obtain ⟨hx, hrest⟩ := List.forall_mem_cons.mp h
        simp only [copiedAll, recastAll, hx, ih hrest]
    cases v with
    | symbol s => simp only [copied, recast, Symbol.recast, hf s (List.mem_singleton.mpr rfl), id]
    | list items => simp only [copied, recast, all items ih]
    | tuple _ items => simp only [copied, recast, all items ih]
    | record kind token parts =>
      simp only [isTree, Bool.and_eq_true, Option.isNone_iff_eq_none] at h
      simp only [copied, recast, all parts ih, h.1, Option.map_none]
    | mapping entries =>
      have hentries := forall_entries ih
      have : recastEntries f entries = recastEntries id (copiedEntries n entries) := by
        clear ih hf h
        induction entries with
        | nil => rfl
        | cons e entries ih =>
          obtain ⟨he, hrest⟩ := List.forall_mem_cons.mp hentries
          simp only [copiedEntries, recastEntries, he.1, he.2, ih hrest]
      simp only [copied, recast, this]
    | knot _ _ => simp [isTree] at h
    | back _ _ => simp [isTree] at h
    | _ => rfl

end Value

@[simp] theorem Key.ofValue?_recast {f : Token → Token} (v : Value) :
    ofValue? (v.recast f) = (ofValue? v).map (Key.recast f) := by
  rw [ofValue?.eq_def (v.recast f)]
  split
  case h_1 y h =>
    obtain ⟨z, rfl, rfl⟩ := Value.recast_eq_symbol.mp h
    rfl
  case h_2 s h =>
    rw [Value.recast_eq_string.mp h]
    rfl
  case h_3 n h =>
    rw [Value.recast_eq_number.mp h]
    rfl
  case h_4 token w s h =>
    obtain ⟨a, b, rfl, -, hb⟩ := Value.recast_eq_pair.mp h
    rw [Value.recast_eq_string.mp hb]
    rfl
  case h_5 token w y h =>
    obtain ⟨a, b, rfl, -, hb⟩ := Value.recast_eq_pair.mp h
    obtain ⟨z, rfl, rfl⟩ := Value.recast_eq_symbol.mp hb
    rfl
  case h_6 token w h =>
    obtain ⟨a, b, rfl, -, hb⟩ := Value.recast_eq_pair.mp h
    rw [Value.recast_eq_null.mp hb]
    rfl
  case h_7 h₁ h₂ h₃ h₄ h₅ h₆ =>
    rw [ofValue?]
    · rfl
    · rintro y rfl
      exact h₁ _ rfl
    · rintro s rfl
      exact h₂ s rfl
    · rintro n rfl
      exact h₃ n rfl
    · rintro token w s rfl
      exact h₄ token (w.recast f) s rfl
    · rintro token w y rfl
      exact h₅ token (w.recast f) _ rfl
    · rintro token w rfl
      exact h₆ token (w.recast f) rfl

namespace Value

/-- The second value is the first with its symbols renamed, but for the labels of tuples. -/
def Recasts (f : Token → Token) (v w : Value) : Prop := v.recast f = w.recast id

theorem Keeps.recasts {f : Token → Token} {v : Value} (h : v.Keeps f) : v.Recasts f v := h.recast_eq

namespace Recasts

variable {f : Token → Token} {v w : Value}

theorem domain (h : v.Recasts f w) : v.domain = w.domain := by
  rw [← recast_domain v, h, recast_domain]

theorem typeName (h : v.Recasts f w) : v.typeName = w.typeName := by
  rw [← recast_typeName v, h, recast_typeName]

theorem isForeign (h : v.Recasts f w) : v.isForeign = w.isForeign := by
  rw [← recast_isForeign v, h, recast_isForeign]

theorem isUndefined (h : v.Recasts f w) : Check.isUndefined v = Check.isUndefined w := by
  rw [← recast_isUndefined v, h, recast_isUndefined]

theorem length? (h : v.Recasts f w) : v.length? = w.length? := by
  rw [← recast_length? v, h, recast_length?]

theorem bareText (h : v.Recasts f w) : v.bareText = w.bareText := by
  rw [← recast_bareText v, h, recast_bareText]

theorem key (h : v.Recasts f w) : Key.ofValue? w = (Key.ofValue? v).map (Key.recast f) := by
  rw [← Key.ofValue?_recast, h, Key.ofValue?_recast, Key.recast_id, Option.map_id, id]

theorem literalEqual (hf : f.Injective) (h : v.Recasts f w) {a : Value} (ha : a.Keeps f) :
    a.literalEqual v = a.literalEqual w := by
  rw [← literalEqual_recast hf ha v, h, literalEqual_recast Function.injective_id fun _ _ => rfl]

theorem number (h : v.Recasts f w) (n : Number) : v = .number n ↔ w = .number n := by
  rw [← recast_eq_number, h, recast_eq_number]

theorem string (h : v.Recasts f w) (s : String) : v = .string s ↔ w = .string s := by
  rw [← recast_eq_string, h, recast_eq_string]

theorem items (h : v.Recasts f w) :
    Option.Rel (fun p q => p.1 = q.1 ∧ List.Forall₂ (Recasts f) p.2 q.2) v.items? w.items? := by
  have hitems := recast_items? (f := f) v
  rw [h, recast_items?] at hitems
  cases hv : v.items? <;> cases hw : w.items? <;> rw [hv, hw] at hitems <;>
    simp only [Option.map_none, Option.map_some, reduceCtorEq, Option.some.injEq, Prod.mk.injEq] at hitems
  · exact .none
  · refine .some ⟨hitems.1.symm, ?_⟩
    rw [← List.forall₂_eq_eq_eq, List.forall₂_map_left_iff, List.forall₂_map_right_iff] at hitems
    exact (hitems.2.imp fun _ _ h => Eq.symm h).flip

theorem entries (h : v.Recasts f w) :
    Option.Rel (List.Forall₂ fun d e => d.1.Recasts f e.1 ∧ d.2.Recasts f e.2) v.entries? w.entries? := by
  have hentries := recast_entries? (f := f) v
  rw [h, recast_entries?] at hentries
  cases hv : v.entries? <;> cases hw : w.entries? <;> rw [hv, hw] at hentries <;>
    simp only [Option.map_none, Option.map_some, reduceCtorEq, Option.some.injEq] at hentries
  · exact .none
  · refine .some ?_
    rw [← List.forall₂_eq_eq_eq, List.forall₂_map_left_iff, List.forall₂_map_right_iff] at hentries
    exact (hentries.imp fun _ _ h => ⟨(Prod.mk.inj h).1.symm, (Prod.mk.inj h).2.symm⟩).flip

end Recasts

end Value
end Schemata
