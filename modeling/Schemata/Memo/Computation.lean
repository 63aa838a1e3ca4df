import Schemata.Error
import Schemata.Memo
import Schemata.Value.Equality

/-! Computations that use the memo they are run for: a request may lead to requests for other keys, or for
its own. -/
namespace Schemata

instance : BEq Value := ⟨Value.same⟩

inductive Computation where
  | give (v : Value)
  | fail (e : Fault)
  | nested (key : Value) (work : Computation)

abbrev ValueMemo := Memo Value (Except Fault Value)

/-- The outcome of a request, the memo after it, and how many computations it ran. -/
structure Computed where
  outcome : Except Fault Value
  memo : ValueMemo
  calls : Nat

namespace Memo

/-- A capacity is at least one. -/
def checked (capacity : Option Int) : Except Fault ValueMemo :=
  match capacity with
  | none => .ok (.empty none)
  | some n => if n < 1 then .error (.invalidCapacity n) else .ok (.empty (some n.toNat))

/-- Whether an outcome is kept: results unless they are refused, and errors of schemas. -/
def keeps (keepResult : Bool) : Except Fault Value → Bool
  | .ok _ => keepResult
  | .error e => e.isSchemaError

/-- What happens when an answer from the memo is noted under the first item of an empty tuple. -/
def noFirstItem : Raised := ⟨"IndexError", "tuple index out of range"⟩

/-- An answer from the memo. It is noted under its key, of a tuple under the first item. -/
def known (key : Value) (outcome : Except Fault Value) : Except Fault Value :=
  match key with
  | .tuple _ [] => .error (.raised noFirstItem)
  | _ => outcome

/-- Answers from the memo, or works the outcome out. A key that may change is never looked up, and a key
whose outcome is under way is worked out beside it. -/
def obtain (key : Value) (keepResult : Bool) (work : ValueMemo → Computed) (m : ValueMemo) : Computed :=
  if key.changeable?.isSome then work m
  else
    match m.request key with
    | (m, .known outcome) => ⟨known key outcome, m, 0⟩
    | (m, .underway) => work m
    | (m, .fresh) =>
      let c := work m
      { c with memo := c.memo.settle key c.outcome (keeps keepResult c.outcome) }

end Memo

namespace Computation

def run : Computation → ValueMemo → Computed
  | .give v, m => ⟨.ok v, m, 1⟩
  | .fail e, m => ⟨.error e, m, 1⟩
  | .nested key work, m =>
    let inner := Memo.obtain key true work.run m
    ⟨inner.outcome.map fun v => .list [.string "nested", v], inner.memo, inner.calls + 1⟩

end Computation

namespace Memo

/-- Requests a key, running the computation if need be. -/
def get (m : ValueMemo) (key : Value) (keepResult : Bool) (work : Computation) : Computed :=
  obtain key keepResult work.run m

/-- Whether a key has an entry; a key that may change never has. -/
def holds (m : ValueMemo) (key : Value) : Bool :=
  key.changeable?.isNone && m.contains key

end Memo
end Schemata
