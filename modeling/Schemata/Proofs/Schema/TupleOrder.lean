import Schemata.Proofs.Scope.Spreading
import Mathlib.Data.List.Perm.Basic

/-! The legal orders of a tuple. Four checks look at the elements of a tuple, each at one thing that can be wrong.
What passes all of them is a row of leading elements, then defaultable, optional, variadic and trailing ones, with
trailing elements only behind a variadic one and beside leading ones. -/
namespace Schemata

namespace RoleKind

/-- Elements come in the order of the ranks of their kinds. -/
def rank : RoleKind → Nat
  | .leading => 0
  | .defaultable => 1
  | .optional => 2
  | .variadic => 3
  | .trailing => 4

/-- So many elements of each kind, kind by kind. -/
def row (leading defaultable optional variadic trailing : Nat) : List RoleKind :=
  List.replicate leading .leading ++ List.replicate defaultable .defaultable ++ List.replicate optional .optional ++
    List.replicate variadic .variadic ++ List.replicate trailing .trailing

/-- The orders of elements that a tuple may have. -/
def LegalOrder (ks : List RoleKind) : Prop :=
  ∃ p d o v q, ks = row p d o v q ∧ v ≤ 1 ∧ (q ≠ 0 → v = 1 ∧ d = 0 ∧ o = 0)

variable {ks : List RoleKind} {p d o v q : Nat}

theorem rank_injective : Function.Injective rank := by
  intro a b h
  cases a <;> cases b <;> first | rfl | exact absurd h (by decide)

theorem count_row (k : RoleKind) : (row p d o v q).count k =
    match k with
    | .leading => p
    | .defaultable => d
    | .optional => o
    | .variadic => v
    | .trailing => q := by
  cases k <;> simp [row, List.count_append, List.count_replicate]

theorem row_sorted : (row p d o v q).Pairwise fun a b => a.rank ≤ b.rank := by
  simp only [row, List.pairwise_append, List.pairwise_replicate, List.mem_append, List.mem_replicate]
  grind [rank]

/-- What stands in the order of the ranks stands kind by kind. -/
theorem eq_row_of_sorted (h : ks.Pairwise fun a b => a.rank ≤ b.rank) :
    ks = row (ks.count .leading) (ks.count .defaultable) (ks.count .optional) (ks.count .variadic)
      (ks.count .trailing) := by
  apply List.Perm.eq_of_pairwise _ h row_sorted
  · apply List.perm_iff_count.mpr
    intro k
    rw [count_row]
    cases k <;> rfl
  · intro a b _ _ hab hba
    exact rank_injective (Nat.le_antisymm hab hba)

/-- An order is legal when its ranks ascend, its variadic element is the only one, and a trailing element comes with a
variadic one and without elements that may be missing. -/
theorem legalOrder_iff : LegalOrder ks ↔ (ks.Pairwise fun a b => a.rank ≤ b.rank) ∧ ks.count .variadic ≤ 1 ∧
    (.trailing ∈ ks → .variadic ∈ ks ∧ .defaultable ∉ ks ∧ .optional ∉ ks) := by
  simp only [← List.count_pos_iff, Nat.not_lt, Nat.le_zero]
  constructor
  · rintro ⟨p, d, o, v, q, rfl, hv, hq⟩
    simp only [count_row]
    exact ⟨row_sorted, hv, by omega⟩
  · rintro ⟨hsorted, hcount, htrailing⟩
    exact ⟨_, _, _, _, _, eq_row_of_sorted hsorted, hcount, by omega⟩

instance : Decidable (LegalOrder ks) := decidable_of_iff _ legalOrder_iff.symm

end RoleKind

namespace Role

def kind : Role → RoleKind
  | .leading => .leading
  | .defaultable _ => .defaultable
  | .optional => .optional
  | .variadic => .variadic
  | .trailing => .trailing

variable {roles : List Role}

@[simp] theorem rank_kind (r : Role) : r.kind.rank = r.rank := by cases r <;> rfl

theorem kind_eq_iff {r : Role} {k : RoleKind} : r.kind = k ↔ r.rank = k.rank := by
  rw [← RoleKind.rank_injective.eq_iff, rank_kind]

theorem mem_kinds {k : RoleKind} : k ∈ roles.map kind ↔ ∃ r ∈ roles, r.rank = k.rank := by
  simp only [List.mem_map, kind_eq_iff]

theorem count_variadic : (roles.map kind).count .variadic = roles.countP (·.isVariadic) := by
  rw [List.count, List.countP_map]
  apply List.countP_congr
  intro r _
  cases r <;> simp [kind, isVariadic, rank]

theorem omissible?_eq_none : omissible? roles = none ↔ ∀ r ∈ roles, r.rank ≠ 1 ∧ r.rank ≠ 2 := by
  rw [omissible?, List.find?_eq_none]
  constructor
  · intro h r hr
    obtain ⟨i, hi⟩ := List.mem_iff_getElem?.mp hr
    simpa using h (r, i) (List.mk_mem_zipIdx_iff_getElem?.mpr hi)
  · intro h r hr
    simpa using h r.1 (List.fst_mem_of_mem_zipIdx hr)

theorem besideTrailing?_eq_none : besideTrailing? roles = none ↔
    ((∃ r ∈ roles, r.rank = 4) → ∀ r ∈ roles, r.rank ≠ 1 ∧ r.rank ≠ 2) := by
  rw [besideTrailing?, ← omissible?_eq_none]
  simp [isTrailing]

/-- In the order of the ranks a trailing element stands behind the variadic one, if there is one. -/
theorem strayTrailing?_eq_none (h : roles.Pairwise fun a b => a.rank ≤ b.rank) (i : Nat) :
    strayTrailing? i roles = none ↔ ((∃ r ∈ roles, r.rank = 4) → ∃ r ∈ roles, r.rank = 3) := by
  induction roles generalizing i with
  | nil => simp [strayTrailing?]
  | cons r roles ih =>
    obtain ⟨hfirst, hrest⟩ := List.pairwise_cons.mp h
    simp only [strayTrailing?, isVariadic, isTrailing, beq_iff_eq, List.exists_mem_cons_iff]
    split_ifs with hvariadic htrailing
    · simp [hvariadic]
    · have hno : ¬ ∃ s ∈ roles, s.rank = 3 := by
        rintro ⟨s, hs, hrank⟩
        have := hfirst s hs
        omega
      simp [htrailing, hno]
    · rw [ih hrest]
      simp [hvariadic, htrailing]

/-- The legal orders by ranks. -/
theorem legalOrder_kinds : RoleKind.LegalOrder (roles.map kind) ↔ (roles.Pairwise fun a b => a.rank ≤ b.rank) ∧
    roles.countP (·.isVariadic) ≤ 1 ∧ ((∃ r ∈ roles, r.rank = 4) →
      (∃ r ∈ roles, r.rank = 3) ∧ (¬ ∃ r ∈ roles, r.rank = 1) ∧ ¬ ∃ r ∈ roles, r.rank = 2) := by
  simp only [RoleKind.legalOrder_iff, count_variadic, List.pairwise_map, rank_kind, mem_kinds]
  rfl

theorem shapeError?_eq_none_iff : shapeError? roles = none ↔ secondVariadic? roles = none ∧
    besideTrailing? roles = none ∧ strayTrailing? 0 roles = none ∧ descent? 0 roles = none := by
  unfold shapeError?
  split <;> simp_all

/-- The four checks together ask for a legal order. -/
theorem shapeError?_eq_none_iff_legal : shapeError? roles = none ↔ RoleKind.LegalOrder (roles.map kind) := by
  rw [legalOrder_kinds]
  constructor
  · intro h
    have hsorted := Element.ranks_of_shape h
    obtain ⟨hsecond, hbeside, hstray, -⟩ := shapeError?_eq_none_iff.mp h
    rw [secondVariadic?_eq_none] at hsecond
    rw [besideTrailing?_eq_none] at hbeside
    rw [strayTrailing?_eq_none hsorted] at hstray
    refine ⟨hsorted, hsecond, fun htrailing => ⟨hstray htrailing, ?_, ?_⟩⟩
    · rintro ⟨r, hr, hrank⟩
      exact (hbeside htrailing r hr).1 hrank
    · rintro ⟨r, hr, hrank⟩
      exact (hbeside htrailing r hr).2 hrank
  · rintro ⟨hsorted, hcount, htrailing⟩
    rw [shapeError?_eq_none_iff, secondVariadic?_eq_none, besideTrailing?_eq_none, strayTrailing?_eq_none hsorted]
    refine ⟨hcount, fun h r hr => ?_, fun h => (htrailing h).1, descent?_eq_none hsorted 0⟩
    obtain ⟨-, hone, htwo⟩ := htrailing h
    exact ⟨fun hrank => hone ⟨r, hr, hrank⟩, fun hrank => htwo ⟨r, hr, hrank⟩⟩

end Role

namespace Element

/-- What an element is made of: its kind, its schema and its default. -/
def parts (e : Element Schema) : RoleKind × Schema × Option Producer := (e.role.kind, e.value, e.role.default?)

/-- A kind and a default that go together make an element of these parts. -/
theorem ofParts_eq_ok {kind : RoleKind} {default : Option Producer} (value : Schema)
    (h : default.isSome = true ↔ kind = .defaultable) :
    ∃ e, ofParts kind value default = .ok e ∧ e.parts = (kind, value, default) := by
  cases kind <;> cases default <;> first | exact ⟨_, rfl, rfl⟩ | simp at h

theorem mapM_ofParts {ps : List (RoleKind × Schema × Option Producer)}
    (h : ∀ p ∈ ps, p.2.2.isSome = true ↔ p.1 = .defaultable) :
    ∃ es, (ps.mapM fun p => ofParts p.1 p.2.1 p.2.2) = .ok es ∧ es.map parts = ps := by
  induction ps with
  | nil => exact ⟨[], rfl, rfl⟩
  | cons p ps ih =>
    obtain ⟨hp, hps⟩ := List.forall_mem_cons.mp h
    obtain ⟨e, he, hparts⟩ := ofParts_eq_ok p.2.1 hp
    obtain ⟨es, hes, hall⟩ := ih hps
    apply Exists.intro (e :: es)
    constructor
    · rw [List.mapM_cons, he, hes]
      rfl
    · rw [List.map_cons, hparts, hall]

end Element

namespace Schema

variable {ps : List (RoleKind × Schema × Option Producer)}

/-- From elements that carry a default just when they are defaultable a tuple is made exactly when their kinds stand in
a legal order. Any other order is reported as a wrong shape. -/
theorem makeTuple_legalOrder (h : ∀ p ∈ ps, p.2.2.isSome = true ↔ p.1 = .defaultable) :
    ∃ es, (ps.mapM fun p => Element.ofParts p.1 p.2.1 p.2.2) = .ok es ∧ es.map Element.parts = ps ∧
      (makeTuple es = .ok (.tuple es) ↔ RoleKind.LegalOrder (ps.map (·.1))) ∧
      (¬ RoleKind.LegalOrder (ps.map (·.1)) →
        ∃ e, makeTuple es = .error (.shape e) ∧ (Fault.shape e).className = "InvalidTupleShape") := by
  obtain ⟨es, hes, hparts⟩ := Element.mapM_ofParts h
  have hkinds : ps.map (·.1) = (es.map (·.role)).map Role.kind := by
    rw [← hparts, List.map_map, List.map_map]
    rfl
  apply Exists.intro es
  rw [hkinds, ← Role.shapeError?_eq_none_iff_legal, makeTuple]
  cases Role.shapeError? (es.map (·.role)) with
  | none => exact ⟨hes, hparts, by simp, by simp⟩
  | some e => exact ⟨hes, hparts, by simp, fun _ => ⟨e, rfl, rfl⟩⟩

/-- A series of numbers between a title and a flag is a tuple; with a title that may be missing it is none. -/
theorem makeTuple_legalOrder_series :
    let series := [(RoleKind.variadic, Schema.keyword .number, (none : Option Producer)),
      (.trailing, .keyword .boolean, none)]
    let titled := (RoleKind.leading, Schema.keyword .string, (none : Option Producer)) :: series
    let untitled := (RoleKind.optional, Schema.keyword .string, (none : Option Producer)) :: series
    (∀ p ∈ titled, p.2.2.isSome = true ↔ p.1 = .defaultable) ∧
      (∀ p ∈ untitled, p.2.2.isSome = true ↔ p.1 = .defaultable) ∧
      (∃ es, (titled.mapM fun p => Element.ofParts p.1 p.2.1 p.2.2) = .ok es ∧ makeTuple es = .ok (.tuple es)) ∧
      ∃ es e, (untitled.mapM fun p => Element.ofParts p.1 p.2.1 p.2.2) = .ok es ∧
        makeTuple es = .error (.shape e) := by
  intro series titled untitled
  have htitled : ∀ p ∈ titled, p.2.2.isSome = true ↔ p.1 = .defaultable := by simp [titled, series]
  have huntitled : ∀ p ∈ untitled, p.2.2.isSome = true ↔ p.1 = .defaultable := by simp [untitled, series]
  obtain ⟨es, hes, -, hlegal, -⟩ := makeTuple_legalOrder htitled
  obtain ⟨fs, hfs, -, -, hillegal⟩ := makeTuple_legalOrder huntitled
  obtain ⟨e, he, -⟩ := hillegal (by decide)
  exact ⟨htitled, huntitled, ⟨es, hes, hlegal.mpr (by decide)⟩, fs, e, hfs, he⟩

end Schema
end Schemata
