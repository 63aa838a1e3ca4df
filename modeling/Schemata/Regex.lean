import Schemata.Regex.Flag
import Schemata.Text.Case
import Schemata.Text.Class

/-! Regular expressions over code points, and which characters and places their smallest parts match. -/
namespace Schemata

/-- A part of a character set; characters are given by their code points. -/
inductive CharItem where
  | single (code : Nat)
  | range (first last : Nat)
  | digit (inside : Bool)
  | word (inside : Bool)
  | blank (inside : Bool)
  deriving DecidableEq

/-- What a single character has to be. -/
inductive CharTest where
  | any
  | literal (negated : Bool) (code : Nat)
  | set (negated : Bool) (items : List CharItem)
  deriving DecidableEq

/-- A place between two characters. -/
inductive Anchor where
  | lineStart
  | lineEnd
  | textStart
  | textEnd
  | wordEdge (inside : Bool)
  deriving DecidableEq

/-- How a repetition goes about its rounds: as many as possible first, as few as possible first, or as many as
possible and never fewer again. -/
inductive Appetite where
  | greedy
  | lazy
  | possessive
  deriving DecidableEq

/-- An `atomic` part keeps the first match it finds. `ahead` and `behind` look at what follows a place and at
the `width` characters before it. `again` matches what a numbered group matched, and `given` asks whether the
group matched at all. -/
inductive Regex where
  | char (t : CharTest)
  | anchor (a : Anchor)
  | sequence (parts : List Regex)
  | choice (parts : List Regex)
  | repeated (appetite : Appetite) (least : Nat) (most : Option Nat) (part : Regex)
  | atomic (part : Regex)
  | ahead (negated : Bool) (part : Regex)
  | behind (negated : Bool) (width : Nat) (part : Regex)
  | group (number : Nat) (part : Regex)
  | flagged (flags : RegexFlags) (part : Regex)
  | again (number : Nat)
  | given (number : Nat) (yes no : Regex)

/-! Characters under flags. -/

namespace RegexFlags

def lower (flags : RegexFlags) (n : Nat) : Nat :=
  if flags.contains .ascii then Text.asciiLower n else Text.lower n

def forms (flags : RegexFlags) (l : Nat) : List Nat :=
  if flags.contains .ascii then [l] else Text.forms l

def caseForms (flags : RegexFlags) (l : Nat) : List Nat :=
  if flags.contains .ascii then Text.asciiCaseForms l else Text.caseForms l

def isDigit (flags : RegexFlags) (c : Char) : Bool :=
  if flags.contains .ascii then c.isDigit else Text.isDecimal c

def isWord (flags : RegexFlags) (c : Char) : Bool :=
  if flags.contains .ascii then c.isAlphanum || c == '_' else Text.isWord c

def isBlank (flags : RegexFlags) (c : Char) : Bool :=
  if flags.contains .ascii then Text.isAsciiBlank c else Text.isBlank c

end RegexFlags

namespace CharItem

def holds (flags : RegexFlags) (c : Char) : CharItem → Bool
  | .single code => c.toNat == code
  | .range first last => first ≤ c.toNat && c.toNat ≤ last
  | .digit inside => flags.isDigit c == inside
  | .word inside => flags.isWord c == inside
  | .blank inside => flags.isBlank c == inside

/-- Last code point whose case a set folds by table. -/
def lastFolded : Nat := 0xffff

/-- Whether the item takes a character given in lower case, when case is ignored. Up to `lastFolded` an item
stands for all cases and forms of its letters. Above, a single letter stands only for itself, and a range
takes a letter of which it holds the lower or the first upper case. -/
def holdsFolded (flags : RegexFlags) (c : Char) : CharItem → Bool
  | .single code =>
    if code ≤ lastFolded then (flags.forms (flags.lower code)).contains c.toNat else c.toNat == code
  | .range first last =>
    ((flags.caseForms c.toNat).any fun n => first ≤ n && n ≤ min last lastFolded) ||
      (lastFolded < last && (c.toNat :: (Text.upper c.toNat).take 1).any fun n => first ≤ n && n ≤ last)
  | item => item.holds flags c

end CharItem

namespace CharTest

def holds (flags : RegexFlags) (c : Char) : CharTest → Bool
  | .any => flags.contains .dotAll || c != '\n'
  | .literal negated code =>
    (if flags.contains .ignoreCase then (flags.forms (flags.lower code)).contains (flags.lower c.toNat)
      else c.toNat == code) != negated
  | .set negated items =>
    (if flags.contains .ignoreCase then
        items.any (CharItem.holdsFolded flags (Char.ofNat (flags.lower c.toNat)))
      else items.any (CharItem.holds flags c)) != negated

end CharTest

namespace Regex

abbrev Subject := Array Char

def isWordAt (flags : RegexFlags) (text : Subject) (i : Nat) : Bool :=
  match text[i]? with
  | some c => flags.isWord c
  | none => false

/-- Without the multiline flag the end is the end of the text or the place before its final newline. An empty
text has no edges of words, nor places inside of words. -/
def anchored (flags : RegexFlags) (text : Subject) (i : Nat) : Anchor → Bool
  | .lineStart => i == 0 || (flags.contains .multiline && text[i - 1]? == some '\n')
  | .lineEnd =>
    i == text.size || (text[i]? == some '\n' && (flags.contains .multiline || i + 1 == text.size))
  | .textStart => i == 0
  | .textEnd => i == text.size
  | .wordEdge inside =>
    0 < text.size && ((0 < i && isWordAt flags text (i - 1)) != isWordAt flags text i) == inside

/-- Whether two characters are one when a group is matched again. -/
def sameAgain (flags : RegexFlags) (c d : Char) : Bool :=
  if flags.contains .ignoreCase then flags.lower c.toNat == flags.lower d.toNat else c == d

end Regex
end Schemata
