/-! A memo: outcomes under keys, each worked out once. An entry is put in before its outcome is known; past
the capacity the least recently requested entries with an outcome are dropped. -/
namespace Schemata

structure MemoEntry (κ ρ : Type) where
  key : κ
  outcome : Option ρ

/-- Entries stand from the least to the most recently requested one. No capacity means no bound. -/
structure Memo (κ ρ : Type) where
  capacity : Option Nat
  entries : List (MemoEntry κ ρ)
  hits : Nat
  misses : Nat
  evictions : Nat

/-- What a request for a key finds. -/
inductive Request (ρ : Type) where
  | known (outcome : ρ)
  | underway
  | fresh

namespace Memo

variable {κ ρ : Type}

def empty (capacity : Option Nat) : Memo κ ρ := ⟨capacity, [], 0, 0, 0⟩

def size (m : Memo κ ρ) : Nat := m.entries.length

/-- Drops the first `excess` entries that have an outcome. -/
def dropSettled : Nat → List (MemoEntry κ ρ) → List (MemoEntry κ ρ)
  | 0, es => es
  | _ + 1, [] => []
  | excess + 1, e :: es =>
    if e.outcome.isSome then dropSettled excess es else e :: dropSettled (excess + 1) es

def evict (m : Memo κ ρ) : Memo κ ρ :=
  match m.capacity with
  | none => m
  | some capacity =>
    let kept := dropSettled (m.entries.length - capacity) m.entries
    { m with entries := kept, evictions := m.evictions + (m.entries.length - kept.length) }

variable [BEq κ]

def find? (m : Memo κ ρ) (key : κ) : Option (MemoEntry κ ρ) :=
  m.entries.find? fun e => e.key == key

def contains (m : Memo κ ρ) (key : κ) : Bool :=
  m.entries.any fun e => e.key == key

/-- A request moves a known key to the recent end and enters an unknown one there. -/
def request (m : Memo κ ρ) (key : κ) : Memo κ ρ × Request ρ :=
  match m.find? key with
  | some e =>
    let others := m.entries.filter fun f => !(f.key == key)
    ({ m with entries := others ++ [e], hits := m.hits + 1 },
      match e.outcome with
      | some r => .known r
      | none => .underway)
  | none =>
    (evict { m with entries := m.entries ++ [⟨key, none⟩], misses := m.misses + 1 }, .fresh)

/-- Enters the outcome of a key, or gives the key up. -/
def settle (m : Memo κ ρ) (key : κ) (outcome : ρ) (keep : Bool) : Memo κ ρ :=
  if keep then
    { m with entries := m.entries.map fun e => if e.key == key then ⟨e.key, some outcome⟩ else e }
  else { m with entries := m.entries.filter fun e => !(e.key == key) }

def clear (m : Memo κ ρ) : Memo κ ρ := empty m.capacity

end Memo
end Schemata
