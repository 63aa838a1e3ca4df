import Schemata.Regex

/-! Where a regular expression matches. Positions are counts of code points. A match begins at one of several
starts, the preferred start first; its ends are listed once each, in the order in which they are tried. -/
namespace Schemata.Regex

/-! Groups that a part of the expression refers to. -/

mutual
def referred : Regex → List Nat
  | .char _ => []
  | .anchor _ => []
  | .sequence parts => referredAny parts
  | .choice parts => referredAny parts
  | .repeated _ _ _ part => referred part
  | .atomic part => referred part
  | .ahead _ part => referred part
  | .behind _ _ part => referred part
  | .group _ part => referred part
  | .flagged _ part => referred part
  | .again number => [number]
  | .given number yes no => number :: (referred yes ++ referred no)
termination_by structural r => r
def referredAny : List Regex → List Nat
  | [] => []
  | r :: rest => referred r ++ referredAny rest
termination_by structural rs => rs
end

/-- A position, and where the groups that are referred to were last opened and closed. -/
structure Spot where
  place : Nat
  opened : List (Nat × Nat)
  closed : List (Nat × Nat)
  deriving DecidableEq

namespace Spot

def start (place : Nat) : Spot := ⟨place, [], []⟩

/-- Notes a number's place, the numbers in ascending order. -/
def note (number place : Nat) : List (Nat × Nat) → List (Nat × Nat)
  | [] => [(number, place)]
  | (n, p) :: rest =>
    if n < number then (n, p) :: note number place rest
    else if n = number then (n, place) :: rest
    else (number, place) :: (n, p) :: rest

def openGroup (number : Nat) (s : Spot) : Spot := { s with opened := note number s.place s.opened }

def closeGroup (number : Nat) (s : Spot) : Spot := { s with closed := note number s.place s.closed }

/-- What a group matched last; nothing while it has not been closed, or was opened again behind its end. -/
def span? (s : Spot) (number : Nat) : Option (Nat × Nat) :=
  match s.opened.lookup number, s.closed.lookup number with
  | some first, some past => if first ≤ past then some (first, past) else none
  | _, _ => none

end Spot

/-- Keeps the first of equal spots. -/
def distinct (ss : List Spot) : List Spot :=
  (ss.foldl (fun kept s => if kept.contains s then kept else s :: kept) []).reverse

/-- Starts at which one character is consumed, moved behind it. -/
def consume (flags : RegexFlags) (text : Subject) (t : CharTest) (starts : List Spot) : List Spot :=
  (starts.filter fun s => (text[s.place]?.map (t.holds flags)).getD false).map fun s =>
    { s with place := s.place + 1 }

/-- The spot behind what a group matched, if the same follows here. -/
def repeatGroup? (flags : RegexFlags) (text : Subject) (number : Nat) (s : Spot) : Option Spot := do
  let (first, past) ← s.span? number
  let wanted := (text.extract first past).toList
  let found := (text.extract s.place (s.place + wanted.length)).toList
  if found.length = wanted.length ∧ (wanted.zip found).all fun p => sameAgain flags p.1 p.2 then
    some { s with place := s.place + wanted.length }
  else none

/-! A repetition walks from one state to the next: the rounds done, as far as they still count, and the
spot. -/

/-- Bounds on the rounds that count: below `least` more are needed, at `most` there are enough. Without `most`
rounds beyond the least are not counted. -/
structure Rounds where
  least : Nat
  most : Option Nat

namespace Rounds

/-- Rounds that can differ in a text of `size` characters: each round but the last consumes one, so rounds
beyond that repeat an empty match. -/
def within (size least : Nat) (most : Option Nat) : Rounds :=
  ⟨min least (size + 2), most.map fun m => min least (size + 2) + min (m - least) (size + 1)⟩

def next (r : Rounds) (done : Nat) : Nat :=
  if done < r.least || r.most.isSome then done + 1 else done

def mayGoOn (r : Rounds) (done : Nat) : Bool :=
  match r.most with
  | some m => done < m
  | none => true

/-- Bound on the length of a walk. -/
def fuel (r : Rounds) (size : Nat) : Nat := r.least + size + 3

end Rounds

/-- States that were left, and the ends found, the last one first. -/
structure Walk where
  left : List (Nat × Spot)
  ends : List Spot

namespace Walk

def found (w : Walk) (s : Spot) : Walk :=
  if w.ends.contains s then w else { w with ends := s :: w.ends }

/-- Walks on from a state. Once there are enough rounds, one that consumes nothing is the last. -/
def onward (r : Rounds) (greedy : Bool) (step : Spot → List Spot) : Nat → Nat → Walk → Spot → Walk
  | 0, _, w, _ => w
  | fuel + 1, done, w, s =>
    if w.left.contains (done, s) then w
    else
      let further := onward r greedy step fuel (r.next done)
      let w :=
        if done < r.least then (step s).foldl further w
        else
          let w := if greedy then w else w.found s
          let w := if r.mayGoOn done then
              (step s).foldl (fun w e => if e.place = s.place then w.found e else further w e) w
            else w
          w.found s
      { w with left := (done, s) :: w.left }

def run (r : Rounds) (size : Nat) (greedy : Bool) (step : Spot → List Spot) (starts : List Spot) : List Spot :=
  (starts.foldl (onward r greedy step (r.fuel size) 0) ⟨[], []⟩).ends.reverse

end Walk

/-- The end of rounds that each keep their first match; nothing when there are too few. -/
def committed? (r : Rounds) (step : Spot → List Spot) : Nat → Nat → Spot → Option Spot
  | 0, _, s => some s
  | fuel + 1, done, s =>
    if r.mayGoOn done then
      match step s with
      | e :: _ => if e.place = s.place && r.least ≤ done then some e else committed? r step fuel (r.next done) e
      | [] => if done < r.least then none else some s
    else some s

def repetition (size : Nat) (appetite : Appetite) (least : Nat) (most : Option Nat) (step : Spot → List Spot)
    (starts : List Spot) : List Spot :=
  let r := Rounds.within size least most
  match appetite with
  | .greedy => Walk.run r size true step starts
  | .lazy => Walk.run r size false step starts
  | .possessive => distinct (starts.filterMap (committed? r step (r.fuel size) 0))

/-- Looks from a place and comes back to it, with the groups of the first match. A `negated` look wants no
match. -/
def look (negated : Bool) (found : List Spot) (s : Spot) : Option Spot :=
  match found, negated with
  | e :: _, false => some { e with place := s.place }
  | [], true => some s
  | _, _ => none

mutual
/-- Ends of the matches that begin at the starts. Spans are kept for the `heeded` groups. -/
def ends (heeded : List Nat) (text : Subject) : RegexFlags → Regex → List Spot → List Spot
  | flags, .char t, starts => consume flags text t starts
  | flags, .anchor a, starts => starts.filter fun s => anchored flags text s.place a
  | flags, .sequence parts, starts => endsAll heeded text flags parts starts
  | flags, .choice parts, starts => distinct (starts.flatMap fun s => endsAny heeded text flags parts [s])
  | flags, .repeated appetite least most part, starts =>
    repetition text.size appetite least most (fun s => ends heeded text flags part [s]) starts
  | flags, .atomic part, starts =>
    distinct (starts.filterMap fun s => (ends heeded text flags part [s]).head?)
  | flags, .ahead negated part, starts =>
    starts.filterMap fun s => look negated (ends heeded text flags part [s]) s
  | flags, .behind negated width part, starts =>
    starts.filterMap fun s =>
      let before := if width ≤ s.place then [{ s with place := s.place - width }] else []
      look negated (ends heeded text flags part before) s
  | flags, .group number part, starts =>
    if heeded.contains number then
      (ends heeded text flags part (starts.map (Spot.openGroup number))).map (Spot.closeGroup number)
    else ends heeded text flags part starts
  | _, .flagged flags part, starts => ends heeded text flags part starts
  | flags, .again number, starts => starts.filterMap (repeatGroup? flags text number)
  | flags, .given number yes no, starts =>
    distinct (starts.flatMap fun s =>
      if (s.span? number).isSome then ends heeded text flags yes [s] else ends heeded text flags no [s])
termination_by structural _ r => r
def endsAll (heeded : List Nat) (text : Subject) : RegexFlags → List Regex → List Spot → List Spot
  | _, [], starts => starts
  | flags, r :: rest, starts => endsAll heeded text flags rest (ends heeded text flags r starts)
termination_by structural _ rs => rs
def endsAny (heeded : List Nat) (text : Subject) : RegexFlags → List Regex → List Spot → List Spot
  | _, [], _ => []
  | flags, r :: rest, starts => ends heeded text flags r starts ++ endsAny heeded text flags rest starts
termination_by structural _ rs => rs
end

/-- Whether some part of the text matches. -/
def search (r : Regex) (s : String) : Bool :=
  let text := s.toList.toArray
  !(ends (referred r).eraseDups text [] r ((List.range (text.size + 1)).map Spot.start)).isEmpty

end Schemata.Regex
