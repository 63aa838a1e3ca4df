import Schemata.Domain
import Schemata.Key
import Schemata.Value.Equality

/-! Nesting of values: what stands inside a value, how deep it nests, and when no container contains
itself. -/
namespace Schemata.Value

/-- Items of a container; the keys of a mapping are not counted among them. -/
def children : Value → List Value
  | .list items => items
  | .tuple _ items => items
  | .mapping entries => entries.map (·.2)
  | _ => []

/-- The first value is the second or stands inside it. -/
inductive Inside : Value → Value → Prop
  | here (v : Value) : Inside v v
  | deeper {x c v : Value} : c ∈ v.unfold.children → Inside x c → Inside x v

/-- Everything inside a value satisfies `p`. -/
def Throughout (p : Value → Prop) (v : Value) : Prop := ∀ x, x.Inside v → p x

theorem Throughout.here {p : Value → Prop} {v : Value} (h : v.Throughout p) : p v := h v (.here v)

theorem Throughout.child {p : Value → Prop} {v c : Value} (h : v.Throughout p)
    (hc : c ∈ v.unfold.children) : c.Throughout p := fun x hx => h x (.deeper hc hx)

theorem children_of_items {v : Value} {q : Sequence} {items : List Value} (h : v.items? = some (q, items)) :
    v.unfold.children = items := by
  unfold items? at h
  split at h
  · rename_i heq
    rw [heq]
    simpa [children] using (Prod.mk.inj (Option.some.inj h)).2
  · rename_i heq
    rw [heq]
    simpa [children] using (Prod.mk.inj (Option.some.inj h)).2
  · simp at h

theorem children_of_entries {v : Value} {raw : List (Value × Value)} (h : v.entries? = some raw) :
    v.unfold.children = raw.map (·.2) := by
  unfold entries? at h
  split at h
  · rename_i heq
    rw [heq, ← Option.some.inj h]
    rfl
  · simp at h

mutual
/-- Number of containers around the innermost value, at most. -/
def depth : Value → Nat
  | .list items => depthAll items + 1
  | .tuple _ items => depthAll items + 1
  | .mapping entries => depthEntries entries + 1
  | _ => 0
termination_by structural v => v
def depthAll : List Value → Nat
  | [] => 0
  | v :: rest => max (depth v) (depthAll rest)
termination_by structural vs => vs
def depthEntries : List (Value × Value) → Nat
  | [] => 0
  | (_, v) :: rest => max (depth v) (depthEntries rest)
termination_by structural vs => vs
end

theorem depth_le_depthAll {c : Value} {items : List Value} (h : c ∈ items) : c.depth ≤ depthAll items := by
  induction items with
  | nil => simp at h
  | cons v rest ih =>
    simp only [depthAll]
    rcases List.mem_cons.mp h with rfl | h
    · omega
    · have := ih h
      omega

theorem depth_le_depthEntries {c : Value} {entries : List (Value × Value)} (h : c ∈ entries.map (·.2)) :
    c.depth ≤ depthEntries entries := by
  induction entries with
  | nil => simp at h
  | cons e rest ih =>
    obtain ⟨k, v⟩ := e
    simp only [depthEntries]
    rcases List.mem_cons.mp h with rfl | h
    · exact Nat.le_max_left _ _
    · have := ih h
      omega

theorem depth_lt_of_child {c v : Value} (h : c ∈ v.children) : c.depth < v.depth := by
  cases v with
  | list items =>
    have : c.depth ≤ depthAll items := depth_le_depthAll h
    simp only [depth]
    omega
  | tuple l items =>
    have : c.depth ≤ depthAll items := depth_le_depthAll h
    simp only [depth]
    omega
  | mapping entries =>
    have : c.depth ≤ depthEntries entries := depth_le_depthEntries h
    simp only [depth]
    omega
  | _ => simp [children] at h

/-- No container contains itself: there is no knot, and what is recognised when it is met again is not met
again further in. -/
def Acyclic (v : Value) : Prop :=
  v.Throughout fun x => x.label? = none ∧
    ∀ i, x.identity? = some i → ∀ c ∈ x.children, c.Throughout fun y => y.identity? ≠ some i

/-- A knot is tied around a container. -/
def Tied : Value → Prop
  | .knot _ (.list _) => True
  | .knot _ (.tuple _ _) => True
  | .knot _ (.mapping _) => True
  | .knot _ _ => False
  | _ => True

theorem bool_of_domain {v : Value} (hv : v.Tied) (h : v.domain = .boolean) : ∃ b, v = .bool b := by
  cases v with
  | bool b => exact ⟨b, rfl⟩
  | knot l body => cases body <;> simp [Tied, domain] at hv h
  | back l c => cases c <;> simp [domain] at h
  | _ => simp [domain] at h

/-- All knots inside the value are tied. -/
def Formed (v : Value) : Prop := v.Throughout Tied

/-- No NaN stands inside the value. -/
def NaNFree (v : Value) : Prop := v.Throughout fun x => x.isNaN = false

theorem unfold_of_label {v : Value} (h : v.label? = none) : v.unfold = v := by
  cases v with
  | knot l body => simp [label?] at h
  | _ => rfl

namespace Acyclic

variable {v c : Value}

theorem unfold_eq (h : v.Acyclic) : v.unfold = v := unfold_of_label h.here.1

theorem child (h : v.Acyclic) (hc : c ∈ v.children) : c.Acyclic :=
  Throughout.child h (h.unfold_eq.symm ▸ hc)

theorem formed (h : v.Acyclic) : v.Formed := by
  intro x hx
  have hlabel := (h x hx).1
  cases x with
  | knot l body => simp [label?] at hlabel
  | _ => trivial

theorem identity (h : v.Acyclic) {i : Identity} (hi : v.identity? = some i) (hc : c ∈ v.children) :
    c.Throughout fun y => y.identity? ≠ some i := h.here.2 i hi c hc

end Acyclic

end Schemata.Value
