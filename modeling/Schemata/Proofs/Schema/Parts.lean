import Mathlib.Algebra.Order.BigOperators.Group.List
import Mathlib.Algebra.Order.Ring.Nat
import Schemata.Schema.Equality
import Schemata.Schema.Make

/-! The parts of a schema. A property of single nodes holds of a whole tree when it holds at every node; the
references of a tree are not followed. -/
namespace Schemata

namespace IndexSignature

def parts : Option (IndexSignature Schema) → List Schema
  | none => []
  | some i => [i.key, i.value]

end IndexSignature

namespace Schema

/-- Schemas that stand directly inside a schema. -/
def parts : Schema → List Schema
  | .keyword _ => []
  | .literal _ => []
  | .constrained s _ => [s]
  | .union bs => bs
  | .intersection ms => ms
  | .ref _ => []
  | .object o => o.properties.map (·.value) ++ IndexSignature.parts o.index
  | .tuple es => es.map (·.value)

/-- Objects and tuples: schemas that look into a container. -/
def isStructure : Schema → Bool
  | .object _ => true
  | .tuple _ => true
  | _ => false

/-- Every node of the tree satisfies `p`. -/
inductive Every (p : Schema → Prop) : Schema → Prop
  | intro {s : Schema} : p s → (∀ t ∈ s.parts, Every p t) → Every p s

namespace Every

variable {p q : Schema → Prop} {s t : Schema}

theorem root (h : Every p s) : p s := by
  cases h with
  | intro h _ => exact h

theorem part (h : Every p s) (ht : t ∈ s.parts) : Every p t := by
  cases h with
  | intro _ h => exact h t ht

theorem mono (hpq : ∀ s, p s → q s) (h : Every p s) : Every q s := by
  induction h with
  | intro hp _ ih => exact .intro (hpq _ hp) ih

theorem and (hp : Every p s) (hq : Every q s) : Every (fun t => p t ∧ q t) s := by
  induction hp with
  | intro h _ ih => exact .intro ⟨h, hq.root⟩ fun t ht => ih t ht (hq.part ht)

/-- What holds of every node of a tree holds of every node of the trees inside it. -/
theorem nested (h : Every p s) : Every (Every p) s := by
  induction h with
  | intro hp hparts ih => exact .intro (.intro hp hparts) ih

theorem branch {bs : List Schema} (h : Every p (.union bs)) (hs : s ∈ bs) : Every p s := h.part hs

theorem member {ms : List Schema} (h : Every p (.intersection ms)) (hs : s ∈ ms) : Every p s := h.part hs

theorem base {cs : List Constraint} (h : Every p (.constrained s cs)) : Every p s :=
  h.part (List.mem_singleton.mpr rfl)

theorem property {o : ObjectShape Schema} (h : Every p (.object o)) {r : Property Schema}
    (hr : r ∈ o.properties) : Every p r.value :=
  h.part (List.mem_append_left _ (List.mem_map_of_mem hr))

theorem element {es : List (Element Schema)} (h : Every p (.tuple es)) {e : Element Schema} (he : e ∈ es) :
    Every p e.value := h.part (List.mem_map_of_mem he)

end Every

theorem size_pos (s : Schema) : 0 < s.size := by
  cases s <;> simp [size]

theorem sizeAll_eq (ss : List Schema) : sizeAll ss = (ss.map size).sum := by
  induction ss with
  | nil => rfl
  | cons s ss ih => simp [sizeAll, ih]

theorem sizeProperties_eq (ps : List (Property Schema)) :
    sizeProperties ps = (ps.map fun p => p.value.size).sum := by
  induction ps with
  | nil => rfl
  | cons p ps ih => simp [sizeProperties, ih]

theorem sizeElements_eq (es : List (Element Schema)) : sizeElements es = (es.map fun e => e.value.size).sum := by
  induction es with
  | nil => rfl
  | cons e es ih => simp [sizeElements, ih]

/-- A schema is one larger than its parts together. -/
theorem size_eq_parts (s : Schema) : s.size = (s.parts.map size).sum + 1 := by
  cases s with
  | constrained s cs => simp [size, parts]
  | union bs => rw [size, sizeAll_eq, parts]
  | intersection ms => rw [size, sizeAll_eq, parts]
  | object o =>
    obtain ⟨ps, i, u⟩ := o
    have hindex : sizeIndex i = ((IndexSignature.parts i).map size).sum := by
      cases i <;> simp [sizeIndex, IndexSignature.parts]
    rw [size, sizeProperties_eq, hindex, parts, List.map_append, List.sum_append, List.map_map]
    rfl
  | tuple es =>
    rw [size, sizeElements_eq, parts, List.map_map]
    rfl
  | _ => rfl

/-- Parts are smaller than the whole. -/
theorem size_lt_of_part {s t : Schema} (h : t ∈ s.parts) : t.size < s.size := by
  rw [size_eq_parts s]
  exact Nat.lt_succ_of_le (List.single_le_sum (fun _ _ => Nat.zero_le _) _ (List.mem_map_of_mem h))

/-- A schema satisfies what holds of a schema whenever it holds of its parts. -/
theorem induction_on_parts {P : Schema → Prop} (h : ∀ s, (∀ t ∈ s.parts, P t) → P s) (s : Schema) : P s := by
  induction hn : s.size using Nat.strongRecOn generalizing s with
  | _ n ih => exact h s fun t ht => ih t.size (hn ▸ size_lt_of_part ht) t rfl

theorem Every.all {p : Schema → Prop} (h : ∀ s, p s) {s : Schema} : s.Every p := by
  induction s using induction_on_parts with
  | _ s ih => exact .intro (h s) ih

end Schema
end Schemata
