/-! Quoted text: strings and byte strings as they are shown in messages. -/
namespace Schemata.Text

def hexPair (n : Nat) : List Char :=
  let digits := Nat.toDigits 16 n
  List.replicate (2 - digits.length) '0' ++ digits

/-- Two hexadecimal digits a byte. -/
def hexText (bs : List UInt8) : String :=
  String.ofList (bs.flatMap fun b => hexPair b.toNat)

def hexDigit (c : Char) : Nat :=
  if c.isDigit then c.toNat - '0'.toNat else c.toNat - 'a'.toNat + 10

def bytesOfPairs : List Char → List UInt8
  | high :: low :: rest => UInt8.ofNat (16 * hexDigit high + hexDigit low) :: bytesOfPairs rest
  | _ => []

/-- Reads what `hexText` writes. -/
def bytesOfHex (s : String) : List UInt8 :=
  bytesOfPairs s.toList

/-- A single quote, unless the text holds one and no double quote. -/
def quoteFor (cs : List Char) : Char :=
  if cs.contains '\'' && !cs.contains '"' then '"' else '\''

/-- Control characters, the no-break space and the soft hyphen. -/
def isControl (n : Nat) : Bool :=
  n < 0x20 || (0x7f ≤ n && n ≤ 0xa0) || n == 0xad

def escapeChar (quote c : Char) : List Char :=
  if c = quote ∨ c = '\\' then ['\\', c]
  else if c = '\n' then ['\\', 'n']
  else if c = '\t' then ['\\', 't']
  else if c = '\r' then ['\\', 'r']
  else if isControl c.toNat then '\\' :: 'x' :: hexPair c.toNat
  else [c]

def quotedChars (cs : List Char) : List Char :=
  let quote := quoteFor cs
  quote :: cs.flatMap (escapeChar quote) ++ [quote]

def quoted (s : String) : String :=
  String.ofList (quotedChars s.toList)

def escapeByte (quote : Char) (b : UInt8) : List Char :=
  if b.toNat < 0x80 then escapeChar quote (Char.ofNat b.toNat) else '\\' :: 'x' :: hexPair b.toNat

/-- Bytes outside of ASCII are always escaped. -/
def quotedBytes (bs : List UInt8) : String :=
  let quote := quoteFor (bs.map fun b => Char.ofNat b.toNat)
  String.ofList ('b' :: quote :: bs.flatMap (escapeByte quote) ++ [quote])

end Schemata.Text
