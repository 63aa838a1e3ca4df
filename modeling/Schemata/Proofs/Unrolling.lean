import Mathlib.Data.Nat.Notation

/-! Recursions by their depth. A recursion is given by one of its steps, with the calls that the step makes left open.
Where the calls descend along a measure, the recursion ends, and no answer that is made up for calls below the measure
is ever asked for. -/
namespace Schemata

variable {α β : Type} {step : (α → β) → α → β} {n m : Nat} {a : α} {b : β}

/-- The recursion unrolled to a depth; calls below it are answered by `cut`. -/
def unroll (step : (α → β) → α → β) (cut : α → β) : Nat → α → β
  | 0 => cut
  | n + 1 => step (unroll step cut n)

/-- Within `n` nested calls the recursion comes to its answer, whatever further calls would say. -/
def Settles (step : (α → β) → α → β) (n : Nat) (a : α) (b : β) : Prop :=
  ∀ cut m, n ≤ m → unroll step cut m a = b

/-- A measure that goes down from call to call. `Calls` has the calls that a step may depend on, on inputs of `Inv`. -/
structure Descends (step : (α → β) → α → β) (Inv : α → Prop) (Calls : α → α → Prop) (μ : α → Nat) : Prop where
  depends : ∀ a f g, Inv a → (∀ c, Calls a c → f c = g c) → step f a = step g a
  keeps : ∀ a c, Inv a → Calls a c → Inv c
  down : ∀ a c, Inv a → Calls a c → μ c < μ a

namespace Descends

variable {Inv : α → Prop} {Calls : α → α → Prop} {μ : α → Nat}

theorem unroll_eq (h : Descends step Inv Calls μ) (ha : Inv a) (cut cut' : α → β) (hn : μ a < n) (hm : μ a < m) :
    unroll step cut n a = unroll step cut' m a := by
  induction n generalizing m a with
  | zero => omega
  | succ n ih =>
    cases m with
    | zero => omega
    | succ m =>
      refine h.depends a _ _ ha fun c hc => ih (h.keeps a c ha hc) ?_ ?_
      · have := h.down a c ha hc
        omega
      · have := h.down a c ha hc
        omega

/-- The depth of the recursion is below any number above the measure. -/
theorem settles (h : Descends step Inv Calls μ) (ha : Inv a) (hn : μ a < n) (cut : α → β) :
    Settles step n a (unroll step cut n a) :=
  fun cut' _ hm => h.unroll_eq ha cut' cut (Nat.lt_of_lt_of_le hn hm) hn

end Descends

end Schemata
