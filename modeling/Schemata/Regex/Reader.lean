import Schemata.Regex.Characters

/-! Reading regular expressions from left to right; the first fault met is the one reported. Faults are an
open group, set or escape, a repetition of nothing, of a place or of a repetition, bounds or ranges in the
wrong order, bounds too large to count, a group that cannot be referred to, and flags where none may stand. -/
namespace Schemata.Regex

/-! Repetitions. -/

/-- Bounds from here on are too large. -/
def repetitionLimit : Nat := 0xffffffff

/-- A bound; nothing is written for an open one. -/
def bound? (digits : List Char) : Reader (Option Nat) :=
  if digits.isEmpty then pure none
  else if Text.digitLimit < digits.length then throw (.tooManyDigits digits.length)
  else if repetitionLimit ≤ numeral 10 digits then throw .repetitionTooLarge
  else pure (some (numeral 10 digits))

/-- Bounds in braces, behind the opening one. Braces without bounds are plain text. -/
def braces? : Reader (Option (Nat × Option Nat)) := do
  let start ← Reader.rest
  let low ← Reader.takeWhile Char.isDigit
  let comma ← Reader.skip? ','
  let high ← if comma then Reader.takeWhile Char.isDigit else pure low
  if start.head? != some '\x7d' && (← Reader.skip? '\x7d') then
    if (← Reader.rest) = ['\\'] then Reader.malformed
    let least := (← bound? low).getD 0
    match ← bound? high with
    | some most => if least ≤ most then pure (some (least, some most)) else Reader.malformed
    | none => pure (some (least, none))
  else
    Reader.setRest start
    pure none

/-- Bounds of a repetition, if the character writes some. -/
def bounds? (c : Char) : Reader (Option (Nat × Option Nat)) :=
  match c with
  | '*' => pure (some (0, none))
  | '+' => pure (some (1, none))
  | '?' => pure (some (0, some 1))
  | '\x7b' => braces?
  | _ => pure none

def appetite : Reader Appetite := do
  if ← Reader.skip? '?' then pure .lazy
  else if ← Reader.skip? '+' then pure .possessive
  else pure .greedy

def isRepeatable : Regex → Bool
  | .anchor _ => false
  | .repeated _ _ _ _ => false
  | _ => true

/-- Puts bounds on the part that was read last. -/
def repeatLast (flags : RegexFlags) (bounds : Nat × Option Nat) (parts : List Regex) : Reader (List Regex) :=
  match parts with
  | r :: before => do
    if !isRepeatable r then Reader.malformed
    if flags.contains .template then Reader.flaw
    pure (.repeated (← appetite) bounds.1 bounds.2 r :: before)
  | [] => Reader.malformed

/-! Alternatives. What all alternatives begin with stands before them, and alternatives of one character each
are a set. -/

/-- Parts that are equal when they are written alike: a character, a place, or what a group matched. -/
inductive Head where
  | char (t : CharTest)
  | anchor (a : Anchor)
  | again (number : Nat)
  deriving DecidableEq

def head? : Regex → Option Head
  | .char t => some (.char t)
  | .anchor a => some (.anchor a)
  | .again number => some (.again number)
  | _ => none

/-- The part that all alternatives begin with. -/
def sharedHead? (alternatives : List (List Regex)) : Option Regex :=
  match alternatives with
  | (r :: _) :: rest =>
    if (head? r).isSome && rest.all fun parts => (parts.head?.bind head?) == head? r then some r else none
  | _ => none

/-- The items of an alternative that is a single character or a set. -/
def setPart? : List Regex → Option (List CharItem)
  | [.char (.literal false code)] => some [.single code]
  | [.char (.set false items)] => some items
  | _ => none

def choiceOf : Nat → List (List Regex) → List Regex
  | 0, alternatives => [.choice (alternatives.map .sequence)]
  | fuel + 1, alternatives =>
    match sharedHead? alternatives with
    | some r => r :: choiceOf fuel (alternatives.map (·.drop 1))
    | none =>
      match alternatives.mapM setPart? with
      | some items => [.char (.set false items.flatten.eraseDups)]
      | none => [.choice (alternatives.map .sequence)]

def alternativesOf : List (List Regex) → List Regex
  | [parts] => parts
  | alternatives => choiceOf ((alternatives.head?.getD []).length + 1) alternatives

/-- Parts in order, the last one given first. A group without a number takes part as what it holds. -/
def inOrder (parts : List Regex) : List Regex :=
  parts.reverse.flatMap fun r =>
    match r with
    | .sequence inner => inner
    | r => [r]

/-! Flags. -/

def flagLetters : Reader RegexFlags := do
  pure ((← Reader.takeWhile fun c => (RegexFlag.ofLetter? c).isSome).filterMap RegexFlag.ofLetter?)

/-- Flags that an expression turns on as a whole, or that a group turns on and off. -/
inductive FlagChange where
  | whole (on : RegexFlags)
  | group (on off : RegexFlags)

/-- Letters of flags up to the end of their list. At most one alphabet is turned on and none off, and only the
whole expression may forbid repetition. -/
def flagChange : Reader FlagChange := do
  let on ← flagLetters
  if on.contains .locale || 1 < on.alphabets.length then Reader.malformed
  match ← Reader.next with
  | ')' => pure (.whole on)
  | ':' => if on.contains .template then Reader.malformed else pure (.group on [])
  | '-' =>
    let off ← flagLetters
    Reader.expect ':'
    if off.isEmpty || !off.alphabets.isEmpty || (on ++ off).contains .template || on.any off.contains then
      Reader.malformed
    pure (.group on off)
  | _ => Reader.malformed

/-- Skips a blank or a comment up to the end of its line, where the expression is written over lines. -/
def skipBlank (flags : RegexFlags) : Reader Bool := do
  match ← Reader.rest with
  | c :: cs =>
    if flags.contains .verbose && Text.isAsciiBlank c then
      Reader.setRest cs
      pure true
    else if flags.contains .verbose && c = '#' then
      discard (Reader.skipPast '\n' cs)
      pure true
    else pure false
  | [] => pure false

/-- Skips the comment of a group up to its closing parenthesis. -/
def skipComment : Reader Unit := do
  if !(← Reader.skipPast ')' (← Reader.rest)) then Reader.malformed

def startsFlags (c : Char) : Bool := c == '-' || (RegexFlag.ofLetter? c).isSome

/-- Flags of the whole expression. They stand before all else, comments apart. -/
def leadingFlags : Nat → RegexFlags → Reader RegexFlags
  | 0, flags => pure flags
  | fuel + 1, flags => do
    if ← skipBlank flags then leadingFlags fuel flags
    else
      let start ← Reader.rest
      match start with
      | '(' :: '?' :: '#' :: cs =>
        Reader.setRest cs
        skipComment
        leadingFlags fuel flags
      | '(' :: '?' :: c :: cs =>
        if startsFlags c then
          Reader.setRest (c :: cs)
          match ← flagChange with
          | .whole on => leadingFlags fuel (flags ++ on)
          | .group _ _ =>
            Reader.setRest start
            pure flags
        else pure flags
      | _ => pure flags

/-! Groups. -/

/-- What the text behind a group's opening says: what kind of part the group is. -/
inductive GroupKind where
  | comment
  | plain
  | numbered (name : Option String)
  | atomic
  | ahead (negated : Bool)
  | behind (negated : Bool)
  | flagged (on off : RegexFlags)
  | again (number : Nat)
  | given (number : Nat)

/-- A name begins with no digit. -/
def isGroupName : List Char → Bool
  | c :: cs => !Text.isDigit c && (c :: cs).all Text.isWord
  | [] => false

def groupName (stop : Char) : Reader String := do
  let cs ← Reader.takeWhile Text.isWord
  Reader.expect stop
  if isGroupName cs then pure (String.ofList cs) else Reader.malformed

def namedGroup (name : String) : Reader Nat := do
  match (← get).names.lookup name with
  | some number => pure number
  | none => Reader.malformed

/-- Digits of any script, behind those that were read; a low line may stand between two digits. -/
def numberFrom? (read : Nat) : List Char → Option Nat
  | [] => none
  | [c] => (Text.decimalValue? c).map (10 * read + ·)
  | c :: '_' :: cs => do numberFrom? (10 * read + (← Text.decimalValue? c)) cs
  | c :: cs => do numberFrom? (10 * read + (← Text.decimalValue? c)) cs

/-- The number of a group, between blanks and behind a sign. -/
def groupNumber? (cs : List Char) : Option Nat :=
  match ((cs.dropWhile Text.isBlank).reverse.dropWhile Text.isBlank).reverse with
  | '+' :: digits => numberFrom? 0 digits
  | digits => numberFrom? 0 digits

/-- The name or the number of a group that a condition is put on. Groups are numbered from one. -/
def condition : Reader Nat := do
  let cs ← Reader.takeWhile (· != ')')
  Reader.expect ')'
  if isGroupName cs then
    let number ← namedGroup (String.ofList cs)
    Reader.conditionGroup number
  else
    match groupNumber? cs with
    | some 0 => Reader.malformed
    | some number => Reader.conditionGroup number
    | none => Reader.malformed

def groupKind : Reader GroupKind := do
  if !(← Reader.skip? '?') then pure (.numbered none)
  else
    let c ← Reader.next
    match c with
    | ':' => pure .plain
    | '>' => pure .atomic
    | '=' => pure (.ahead false)
    | '!' => pure (.ahead true)
    | '#' => pure .comment
    | '(' => do pure (.given (← condition))
    | '<' => do
      match ← Reader.next with
      | '=' => pure (.behind false)
      | '!' => pure (.behind true)
      | _ => Reader.malformed
    | 'P' => do
      match ← Reader.next with
      | '<' => do pure (.numbered (some (← groupName '>')))
      | '=' => do pure (.again (← Reader.closedGroup (← namedGroup (← groupName ')'))))
      | _ => Reader.malformed
    | c => do
      if !startsFlags c then Reader.malformed
      Reader.setRest (c :: (← Reader.rest))
      match ← flagChange with
      | .group on off => pure (.flagged on off)
      | .whole _ => Reader.malformed

/-! Parts. -/

/-- A part that no other parts belong to. -/
def simplePart (c : Char) : Reader Regex :=
  match c with
  | '.' => pure (.char .any)
  | '^' => pure (.anchor .lineStart)
  | '$' => pure (.anchor .lineEnd)
  | '[' => do pure (.char (← readSet))
  | '\\' => readEscape
  | c => pure (.char (.literal false c.toNat))

/-- A look at the characters before a place, which are of one number. -/
def lookBehind (negated : Bool) (part : Regex) : Reader Regex := do
  match (width (← get).closed part).fixed? with
  | some n => pure (.behind negated n part)
  | none =>
    Reader.flaw
    pure (.behind negated 0 part)

mutual
/-- Alternatives up to a closing parenthesis or the end. -/
def readAlternatives (flags : RegexFlags) : Nat → Reader (List (List Regex))
  | 0 => Reader.malformed
  | fuel + 1 => do
    let parts ← readParts flags fuel []
    if ← Reader.skip? '|' then pure (parts :: (← readAlternatives flags fuel)) else pure [parts]
termination_by structural fuel => fuel
/-- What a group holds, up to its closing parenthesis. -/
def readInner (flags : RegexFlags) : Nat → Reader Regex
  | 0 => Reader.malformed
  | fuel + 1 => do
    let alternatives ← readAlternatives flags fuel
    Reader.expect ')'
    pure (.sequence (alternativesOf alternatives))
termination_by structural fuel => fuel
/-- A group behind its opening; a comment is no part. -/
def readGroup (flags : RegexFlags) : Nat → Reader (Option Regex)
  | 0 => Reader.malformed
  | fuel + 1 => do
    match ← groupKind with
    | .comment =>
      skipComment
      pure none
    | .plain => do pure (some (← readInner flags fuel))
    | .numbered name =>
      let number ← Reader.openGroup name
      let inner ← readInner flags fuel
      Reader.closeGroup number inner
      pure (some (.group number inner))
    | .atomic => do pure (some (.atomic (← readInner flags fuel)))
    | .ahead negated => do pure (some (.ahead negated (← readInner flags fuel)))
    | .behind negated =>
      let inner ← Reader.within (readInner flags fuel)
      pure (some (← lookBehind negated inner))
    | .flagged on off =>
      let changed := flags.change on off
      pure (some (.flagged changed (← readInner changed fuel)))
    | .again number => pure (some (.again number))
    | .given number =>
      let yes ← readParts flags fuel []
      let no ← if ← Reader.skip? '|' then readParts flags fuel [] else pure []
      Reader.expect ')'
      pure (some (.given number (.sequence yes) (.sequence no)))
termination_by structural fuel => fuel
/-- Parts one after the other, behind those that were read, the last one first. -/
def readParts (flags : RegexFlags) : Nat → List Regex → Reader (List Regex)
  | 0, _ => Reader.malformed
  | fuel + 1, parts => do
    if ← skipBlank flags then readParts flags fuel parts
    else
      match ← Reader.rest with
      | [] => pure (inOrder parts)
      | '|' :: _ => pure (inOrder parts)
      | ')' :: _ => pure (inOrder parts)
      | '(' :: cs =>
        Reader.setRest cs
        match ← readGroup flags fuel with
        | some part => readParts flags fuel (part :: parts)
        | none => readParts flags fuel parts
      | c :: cs =>
        Reader.setRest cs
        match ← bounds? c with
        | some bounds => readParts flags fuel (← repeatLast flags bounds parts)
        | none => readParts flags fuel ((← simplePart c) :: parts)
termination_by structural fuel => fuel
end

/-- Faults that show when all was read: flags that do not go together, text that no group holds, a condition
on a group that is missing. -/
def finish (flags : RegexFlags) (r : Regex) : Reader Regex := do
  let c ← get
  if flags.contains .locale then throw .localeOfText
  if 1 < flags.alphabets.length then throw .twoAlphabets
  if !c.rest.isEmpty || c.expected.any (c.opened < ·) || c.flawed then Reader.malformed
  pure (.flagged flags r)

/-- The expression that a text writes, under the flags that come with it. -/
def read (flags : RegexFlags) (s : String) : Except PatternError Regex :=
  let cs := s.toList
  let reading : Reader Regex := do
    let flags ← leadingFlags (cs.length + 1) flags
    let alternatives ← readAlternatives flags (4 * cs.length + 4)
    finish flags (.sequence (alternativesOf alternatives))
  reading.run' (.start cs)

end Schemata.Regex
