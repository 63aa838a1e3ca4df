/-! Ways of reading a regular expression: how its letters, lines and blanks are taken. -/
namespace Schemata

/-- With `template` nothing may be repeated, and `locale` is refused for text. -/
inductive RegexFlag where
  | template
  | ignoreCase
  | locale
  | multiline
  | dotAll
  | unicode
  | verbose
  | ascii
  deriving DecidableEq

namespace RegexFlag

def all : List RegexFlag :=
  [.template, .ignoreCase, .locale, .multiline, .dotAll, .unicode, .verbose, .ascii]

/-- Flags are given together as the sum of their numbers. -/
def number : RegexFlag → Nat
  | .template => 1
  | .ignoreCase => 2
  | .locale => 4
  | .multiline => 8
  | .dotAll => 16
  | .unicode => 32
  | .verbose => 64
  | .ascii => 256

/-- The letter that turns the flag on inside an expression. -/
def letter : RegexFlag → Char
  | .template => 't'
  | .ignoreCase => 'i'
  | .locale => 'L'
  | .multiline => 'm'
  | .dotAll => 's'
  | .unicode => 'u'
  | .verbose => 'x'
  | .ascii => 'a'

def ofLetter? (c : Char) : Option RegexFlag :=
  all.find? fun f => f.letter == c

/-- Whether the flag says which characters are letters, digits and blanks. -/
def isAlphabet : RegexFlag → Bool
  | .locale => true
  | .unicode => true
  | .ascii => true
  | _ => false

end RegexFlag

abbrev RegexFlags := List RegexFlag

namespace RegexFlags

def ofInt (n : Int) : RegexFlags :=
  RegexFlag.all.filter fun f => n / (f.number : Int) % 2 == 1

def alphabets (flags : RegexFlags) : RegexFlags :=
  (flags.filter RegexFlag.isAlphabet).eraseDups

/-- Turns flags on and others off. A new alphabet takes the place of the old one. -/
def change (flags on off : RegexFlags) : RegexFlags :=
  let kept := if on.alphabets.isEmpty then flags else flags.filter fun f => !f.isAlphabet
  (kept ++ on).filter fun f => !off.contains f

end RegexFlags
end Schemata
