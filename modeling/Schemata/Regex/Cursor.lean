import Schemata.Regex.Width

/-! Where the reading of a regular expression stands. -/
namespace Schemata

/-- What is wrong with a regular expression. -/
inductive PatternError where
  | malformed
  | repetitionTooLarge
  | tooManyDigits (count : Nat)
  | localeOfText
  | twoAlphabets
  deriving DecidableEq

namespace Regex

/-- The text that is still to be read, the groups opened so far and the widths of those that were closed.
Inside a look behind a place, groups from `inside?` on cannot be referred to. Conditions may be put on the
`expected` groups before they are opened. A `flawed` expression is refused once all of it was read. -/
structure Cursor where
  rest : List Char
  opened : Nat
  names : List (String × Nat)
  closed : List (Nat × Width)
  inside? : Option Nat
  expected : List Nat
  flawed : Bool

def Cursor.start (cs : List Char) : Cursor := ⟨cs, 0, [], [], none, [], false⟩

abbrev Reader := StateT Cursor (Except PatternError)

namespace Reader

def malformed {α : Type} : Reader α := throw .malformed

def flaw : Reader Unit := modify fun c => { c with flawed := true }

def rest : Reader (List Char) := do pure (← get).rest

def setRest (cs : List Char) : Reader Unit := modify fun c => { c with rest := cs }

/-- Reads one character if it is the given one. -/
def skip? (c : Char) : Reader Bool := do
  match ← rest with
  | d :: cs =>
    if c = d then
      setRest cs
      pure true
    else pure false
  | [] => pure false

/-- Reads one character, which has to be the given one. -/
def expect (c : Char) : Reader Unit := do
  if !(← skip? c) then malformed

/-- Reads the next character, which has to be there. -/
def next : Reader Char := do
  match ← rest with
  | c :: cs =>
    setRest cs
    pure c
  | [] => malformed

/-- Reads the longest run of at most `most` characters of a class. -/
def takeRun (most : Nat) (holds : Char → Bool) : Reader (List Char) := do
  let cs ← rest
  let found := (cs.take most).takeWhile holds
  setRest (cs.drop found.length)
  pure found

/-- Reads the longest run of characters of a class. -/
def takeWhile (holds : Char → Bool) : Reader (List Char) := do
  takeRun (← rest).length holds

/-- Skips up to the first `stop` that no backslash stands before; false when there is none. -/
def skipPast (stop : Char) : List Char → Reader Bool
  | [] => do
    setRest []
    pure false
  | ['\\'] => malformed
  | '\\' :: _ :: cs => skipPast stop cs
  | c :: cs => do
    if c = stop then
      setRest cs
      pure true
    else skipPast stop cs

/-! Groups. -/

/-- Opens the next group; a name is used once. -/
def openGroup (name : Option String) : Reader Nat := do
  let c ← get
  let number := c.opened + 1
  match name with
  | some name =>
    if (c.names.lookup name).isSome then malformed
    else set { c with opened := number, names := (name, number) :: c.names }
  | none => set { c with opened := number }
  pure number

def closeGroup (number : Nat) (part : Regex) : Reader Unit :=
  modify fun c => { c with closed := (number, width c.closed part) :: c.closed }

/-- A group that was closed, outside of the look that refers to it. -/
def closedGroup (number : Nat) : Reader Nat := do
  let c ← get
  if (c.closed.lookup number).isSome && c.inside?.all (number < ·) then pure number else malformed

/-- A group that a condition is put on. Inside of a look behind a place it has to be closed. -/
def conditionGroup (number : Nat) : Reader Nat := do
  if (← get).inside?.isSome then closedGroup number
  else
    modify fun c => { c with expected := number :: c.expected }
    pure number

/-- Reads a part inside a look behind a place. -/
def within {α : Type} (part : Reader α) : Reader α := do
  let outer := (← get).inside?
  modify fun c => { c with inside? := some (outer.getD (c.opened + 1)) }
  let a ← part
  modify fun c => { c with inside? := outer }
  pure a

end Reader
end Regex
end Schemata
