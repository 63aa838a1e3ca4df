import Schemata.Proofs.Value.Renaming

/-! Labels of tuples. A label only tells when a tuple is met again; without labels a value has the same text, the
same parts and the same equals. -/
namespace Schemata
namespace Value

mutual
/-- The value without the labels of tuples. -/
def unlabelled : Value → Value
  | .list items => .list (unlabelledAll items)
  | .tuple _ items => .tuple none (unlabelledAll items)
  | .mapping entries => .mapping (unlabelledEntries entries)
  | .record kind token parts => .record kind token (unlabelledAll parts)
  | .knot l body => .knot l (unlabelled body)
  | v => v
termination_by structural v => v
def unlabelledAll : List Value → List Value
  | [] => []
  | v :: rest => unlabelled v :: unlabelledAll rest
termination_by structural vs => vs
def unlabelledEntries : List (Value × Value) → List (Value × Value)
  | [] => []
  | (k, v) :: rest => (unlabelled k, unlabelled v) :: unlabelledEntries rest
termination_by structural vs => vs
end

variable {v w : Value}

theorem unlabelledAll_eq (vs : List Value) : unlabelledAll vs = vs.map unlabelled := by
  induction vs with
  | nil => rfl
  | cons v vs ih => rw [unlabelledAll, ih, List.map_cons]

theorem unlabelledEntries_eq (es : List (Value × Value)) :
    unlabelledEntries es = es.map fun e => (e.1.unlabelled, e.2.unlabelled) := by
  induction es with
  | nil => rfl
  | cons e es ih => rw [unlabelledEntries, ih, List.map_cons]

/-- Without labels, symbols keep their names. -/
theorem recast_id (v : Value) : v.recast id = v.unlabelled := by
  induction v using induction_on_parts with
  | _ v ih =>
    have all : ∀ vs : List Value, (∀ x ∈ vs, x.recast id = x.unlabelled) → recastAll id vs = unlabelledAll vs := by
      intro vs h
      rw [recastAll_eq, unlabelledAll_eq]
      exact List.map_congr_left h
    cases v with
    | list items => simp only [recast, unlabelled, all items ih]
    | tuple _ items => simp only [recast, unlabelled, all items ih]
    | record _ _ parts => simp only [recast, unlabelled, all parts ih]
    | mapping entries =>
      have hentries := forall_entries ih
      simp only [recast, unlabelled, recastEntries_eq, unlabelledEntries_eq]
      exact congrArg _ (List.map_congr_left fun e he => Prod.ext (hentries e he).1 (hentries e he).2)
    | knot l body => simp only [recast, unlabelled, ih body (List.mem_singleton.mpr rfl)]
    | _ => rfl

theorem same_unlabelled (v w : Value) : v.same w.unlabelled = v.same w := by
  rw [← recast_id, same_recast Function.injective_id fun _ _ => rfl]

mutual
/-- Nothing inside the value, keys included, is known by its identity: no symbol, no container that contains itself,
nothing that equals only itself. -/
def isNameless : Value → Bool
  | .symbol _ => false
  | .knot _ _ => false
  | .back _ _ => false
  | .list items => areNameless items
  | .tuple _ items => areNameless items
  | .mapping entries => areEntriesNameless entries
  | .record _ token parts => token.isNone && areNameless parts
  | _ => true
termination_by structural v => v
def areNameless : List Value → Bool
  | [] => true
  | v :: rest => isNameless v && areNameless rest
termination_by structural vs => vs
def areEntriesNameless : List (Value × Value) → Bool
  | [] => true
  | (k, v) :: rest => isNameless k && isNameless v && areEntriesNameless rest
termination_by structural vs => vs
end

theorem areNameless_iff {vs : List Value} : areNameless vs = true ↔ ∀ v ∈ vs, v.isNameless = true := by
  induction vs with
  | nil => simp [areNameless]
  | cons v vs ih => simp [areNameless, ih]

theorem areEntriesNameless_iff {es : List (Value × Value)} :
    areEntriesNameless es = true ↔ ∀ w ∈ (mapping es).parts, w.isNameless = true := by
  induction es with
  | nil => simp [areEntriesNameless, parts]
  | cons e es ih => simp_all [areEntriesNameless, parts, and_assoc]

/-- What is nameless has no symbols. -/
theorem isNameless_iff : v.isNameless = true ↔ v.isTree = true ∧ v.symbols = [] := by
  induction v using induction_on_parts with
  | _ v ih =>
    have all : ∀ vs : List Value, (∀ x ∈ vs, x.isNameless = true ↔ x.isTree = true ∧ x.symbols = []) →
        ((∀ x ∈ vs, x.isNameless = true) ↔ (∀ x ∈ vs, x.isTree = true) ∧ vs.flatMap symbols = []) := by
      intro vs h
      rw [List.flatMap_eq_nil_iff, ← forall₂_and]
      exact forall₂_congr h
    cases v with
    | list items => simp only [isNameless, isTree, symbols, areNameless_iff, areTrees_iff, allSymbols_eq, all items ih]
    | tuple _ items =>
      simp only [isNameless, isTree, symbols, areNameless_iff, areTrees_iff, allSymbols_eq, all items ih]
    | record _ _ parts =>
      simp only [isNameless, isTree, symbols, Bool.and_eq_true, areNameless_iff, areTrees_iff, allSymbols_eq,
        all parts ih, and_assoc]
    | mapping es =>
      simp only [isNameless, isTree, symbols, areEntriesNameless_iff, areEntryTrees_iff, entrySymbols_eq]
      exact all _ ih
    | _ => simp [isNameless, isTree, symbols]

/-- All copies of a value are the same but for the labels of tuples. -/
theorem unlabelled_copied (n : Nat) (h : v.isNameless = true) : (v.copied n).unlabelled = v.unlabelled := by
  obtain ⟨htree, hnone⟩ := isNameless_iff.mp h
  rw [← recast_id, ← recast_id, recast_copied (f := id) htree (by simp [hnone])]

/-- The two values are the same but for the labels of tuples. -/
def Resembles (v w : Value) : Prop := v.unlabelled = w.unlabelled

theorem recasts_id : Recasts id = Resembles := by
  funext v w
  simp only [Recasts, Resembles, recast_id]

namespace Resembles

theorem recasts (h : v.Resembles w) : v.Recasts id w := recasts_id ▸ h

theorem domain (h : v.Resembles w) : v.domain = w.domain := h.recasts.domain

theorem typeName (h : v.Resembles w) : v.typeName = w.typeName := h.recasts.typeName

theorem isForeign (h : v.Resembles w) : v.isForeign = w.isForeign := h.recasts.isForeign

theorem isUndefined (h : v.Resembles w) : Check.isUndefined v = Check.isUndefined w := h.recasts.isUndefined

theorem length? (h : v.Resembles w) : v.length? = w.length? := h.recasts.length?

theorem key (h : v.Resembles w) : Key.ofValue? v = Key.ofValue? w := by
  simpa using h.recasts.key.symm

theorem literalEqual (h : v.Resembles w) (a : Value) : a.literalEqual v = a.literalEqual w :=
  h.recasts.literalEqual Function.injective_id fun _ _ => rfl

theorem number (h : v.Resembles w) (n : Number) : v = .number n ↔ w = .number n := h.recasts.number n

theorem string (h : v.Resembles w) (s : String) : v = .string s ↔ w = .string s := h.recasts.string s

theorem items (h : v.Resembles w) :
    Option.Rel (fun p q => p.1 = q.1 ∧ List.Forall₂ Resembles p.2 q.2) v.items? w.items? :=
  recasts_id ▸ h.recasts.items

theorem entries (h : v.Resembles w) : Option.Rel (List.Forall₂ fun d e => d.1.Resembles e.1 ∧ d.2.Resembles e.2)
    v.entries? w.entries? := recasts_id ▸ h.recasts.entries

end Resembles

end Value
end Schemata
