import Schemata.Regex.Cursor

/-! How characters, classes and sets are written in a regular expression. -/
namespace Schemata.Regex

/-! Escapes. -/

def digitValue (c : Char) : Nat :=
  if c.isDigit then c.toNat - '0'.toNat
  else if 'a' ≤ c then c.toNat - 'a'.toNat + 10
  else c.toNat - 'A'.toNat + 10

def numeral (base : Nat) (cs : List Char) : Nat :=
  cs.foldl (fun n c => base * n + digitValue c) 0

def isHex (c : Char) : Bool :=
  c.isDigit || ('a' ≤ c && c ≤ 'f') || ('A' ≤ c && c ≤ 'F')

def isOctal (c : Char) : Bool := '0' ≤ c && c ≤ '7'

/-- Largest code point. -/
def lastCode : Nat := 0x10ffff

/-- Largest code point that an octal escape can write. -/
def lastOctal : Nat := 0xff

/-- Exactly `count` hexadecimal digits of a code point. -/
def hexCode (count : Nat) : Reader CharItem := do
  let digits ← Reader.takeRun count isHex
  let code := numeral 16 digits
  if digits.length = count ∧ code ≤ lastCode then pure (.single code) else Reader.malformed

def octalCode (digits : List Char) : Reader CharItem :=
  if numeral 8 digits ≤ lastOctal then pure (.single (numeral 8 digits)) else Reader.malformed

/-- Characters written with a letter. -/
def letterEscape? : Char → Option Char
  | 'n' => some '\n'
  | 't' => some '\t'
  | 'r' => some '\r'
  | 'f' => some '\x0c'
  | 'v' => some '\x0b'
  | 'a' => some '\x07'
  | _ => none

def classEscape? : Char → Option CharItem
  | 'd' => some (.digit true)
  | 'D' => some (.digit false)
  | 'w' => some (.word true)
  | 'W' => some (.word false)
  | 's' => some (.blank true)
  | 'S' => some (.blank false)
  | _ => none

def anchorEscape? : Char → Option Anchor
  | 'A' => some .textStart
  | 'Z' => some .textEnd
  | 'b' => some (.wordEdge true)
  | 'B' => some (.wordEdge false)
  | _ => none

/-- An escape that means the same inside and outside of sets. A letter or digit without a meaning is
refused. -/
def commonEscape (c : Char) : Reader CharItem :=
  match classEscape? c, letterEscape? c, c with
  | some item, _, _ => pure item
  | none, some d, _ => pure (.single d.toNat)
  | none, none, 'x' => hexCode 2
  | none, none, 'u' => hexCode 4
  | none, none, 'U' => hexCode 8
  | none, none, c => if c.isAlphanum then Reader.malformed else pure (.single c.toNat)

/-- Inside a set up to three octal digits write a character. -/
def setEscape : Reader CharItem := do
  let c ← Reader.next
  if c = 'b' then pure (.single 8)
  else if isOctal c then octalCode (c :: (← Reader.takeRun 2 isOctal))
  else commonEscape c

def itemPart : CharItem → Regex
  | .single code => .char (.literal false code)
  | item => .char (.set false [item])

/-- Outside of sets three octal digits write a character; fewer do so behind a zero only. Other numbers of up
to two digits refer to groups. -/
def outerEscape (c : Char) : Reader Regex := do
  if c = '0' then pure (itemPart (← octalCode (c :: (← Reader.takeRun 2 isOctal))))
  else if c.isDigit then
    let octal ← (do pure (c :: ((← Reader.rest).take 2).takeWhile isOctal))
    if octal.length = 3 ∧ isOctal c then
      discard (Reader.takeRun 2 isOctal)
      pure (itemPart (← octalCode octal))
    else
      let number := numeral 10 (c :: (← Reader.takeRun 1 Char.isDigit))
      pure (.again (← Reader.closedGroup number))
  else pure (itemPart (← commonEscape c))

/-- A place, a character or a group, behind a backslash. -/
def readEscape : Reader Regex := do
  let c ← Reader.next
  match anchorEscape? c with
  | some a => pure (.anchor a)
  | none => outerEscape c

/-! Sets. -/

/-- Joins the two ends of a range; a class is no end, nor may the order be reversed. -/
def rangeOf (low high : CharItem) : Reader CharItem :=
  match low, high with
  | .single a, .single b => if a ≤ b then pure (.range a b) else Reader.malformed
  | _, _ => Reader.malformed

/-- One end of a range inside a set. -/
def setEnd (c : Char) : Reader CharItem :=
  if c = '\\' then setEscape else pure (.single c.toNat)

/-- The items of a set up to its closing bracket, which the first place may hold as an item. -/
def setItems : Nat → List CharItem → Reader (List CharItem)
  | 0, _ => Reader.malformed
  | fuel + 1, items => do
    let c ← Reader.next
    if c = ']' ∧ items ≠ [] then pure items
    else
      let low ← setEnd c
      if ← Reader.skip? '-' then
        let d ← Reader.next
        if d = ']' then pure (items ++ [low, .single '-'.toNat])
        else setItems fuel (items ++ [← rangeOf low (← setEnd d)])
      else setItems fuel (items ++ [low])

/-- A set; one that writes nothing but a single character is that character. -/
def readSet : Reader CharTest := do
  let negated ← Reader.skip? '^'
  let items ← setItems ((← Reader.rest).length + 1) []
  match items.eraseDups with
  | [.single code] => pure (.literal negated code)
  | items => pure (.set negated items)

end Schemata.Regex
