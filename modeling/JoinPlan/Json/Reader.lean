import JoinPlan.Json.Basic

/-!
# The parts of a JSON text

A reader takes characters from the front of a text and returns what it read with
the rest.  The loops over characters and items count down from a bound, which is
the length of the whole text, so reading recurses on numbers only.

A number without fraction and exponent is an integer if it fits 64 bits.  Any
other number is a decimal, read from the digits that fit 64 bits together: a
digit that does not fit, and in a fraction all after it, only count for the
place of the point.
-/

namespace JoinPlan.Json

abbrev Reader (α : Type) := List Char → Option (α × List Char)

def isSpace (c : Char) : Bool :=
  c = ' ' || c = '\n' || c = '\t' || c = '\r'

def skipSpace (text : List Char) : List Char :=
  text.dropWhile isSpace

def hexValue? (c : Char) : Option Nat :=
  if '0' ≤ c ∧ c ≤ '9' then some (c.toNat - '0'.toNat)
  else if 'a' ≤ c ∧ c ≤ 'f' then some (c.toNat - 'a'.toNat + 10)
  else if 'A' ≤ c ∧ c ≤ 'F' then some (c.toNat - 'A'.toNat + 10)
  else none

/-- Four hexadecimal digits. -/
def readUnit : Reader Nat
  | a :: b :: c :: d :: rest => do
      let w ← hexValue? a
      let x ← hexValue? b
      let y ← hexValue? c
      let z ← hexValue? d
      some (((w * 16 + x) * 16 + y) * 16 + z, rest)
  | _ => none

/-- The character of an escaped code unit, which for a character beyond the
basic plane is followed by an escaped second unit. -/
def readEscapedUnit (text : List Char) : Option (Char × List Char) := do
  let (unit, rest) ← readUnit text
  if 0xD800 ≤ unit ∧ unit < 0xDC00 then
    match rest with
    | '\\' :: 'u' :: rest =>
        let (second, rest) ← readUnit rest
        if 0xDC00 ≤ second ∧ second < 0xE000 then
          some (Char.ofNat (0x10000 + (unit - 0xD800) * 0x400 + (second - 0xDC00)), rest)
        else none
    | _ => none
  else if 0xDC00 ≤ unit ∧ unit < 0xE000 then none
  else some (Char.ofNat unit, rest)

/-- The character after a backslash, for the escapes of one letter. -/
def escapedChar? (c : Char) : Option Char :=
  if c = '"' then some '"'
  else if c = '\\' then some '\\'
  else if c = '/' then some '/'
  else if c = 'b' then some '\x08'
  else if c = 'f' then some '\x0c'
  else if c = 'n' then some '\n'
  else if c = 'r' then some '\r'
  else if c = 't' then some '\t'
  else none

/-- The characters up to the closing quotation mark, fewer than the bound. -/
def readChars : Nat → Reader (List Char)
  | 0, _ => none
  | _, [] => none
  | bound + 1, c :: rest =>
      if c = '"' then some ([], rest)
      else if c = '\\' then
        match rest with
        | [] => none
        | e :: rest =>
            if e = 'u' then do
              let (escaped, rest) ← readEscapedUnit rest
              let (others, rest) ← readChars bound rest
              some (escaped :: others, rest)
            else do
              let escaped ← escapedChar? e
              let (others, rest) ← readChars bound rest
              some (escaped :: others, rest)
      else if c.toNat < 32 then none
      else do
        let (others, rest) ← readChars bound rest
        some (c :: others, rest)

/-- A string, after its opening quotation mark. -/
def readString (bound : Nat) : Reader String := fun text =>
  (readChars bound text).map fun read => (String.ofList read.1, read.2)

/-- Appends digits to a number while the result fits 64 bits; the digits left
over are returned. -/
def gather (value : Nat) : List Char → Nat × List Char
  | [] => (value, [])
  | c :: rest =>
      let next := value * 10 + Text.digitValue c
      if next < countLimit then gather next rest else (value, c :: rest)

def readDigits (text : List Char) : List Char × List Char :=
  (text.takeWhile Char.isDigit, text.dropWhile Char.isDigit)

/-- The digits of a fraction, none if there is no point. -/
def readFraction : Reader (Option (List Char))
  | '.' :: rest =>
      let (digits, rest) := readDigits rest
      if digits.isEmpty then none else some (some digits, rest)
  | text => some (none, text)

/-- The digits of an exponent with its sign. -/
def readSignedDigits (text : List Char) : Option (Int × List Char) :=
  let (negative, rest) :=
    match text with
    | '-' :: rest => (true, rest)
    | '+' :: rest => (false, rest)
    | rest => (false, rest)
  let (digits, rest) := readDigits rest
  if digits.isEmpty then none
  else
    let size : Int := Text.ofDigits 0 digits
    some (if negative then -size else size, rest)

def readExponent : Reader (Option Int)
  | 'e' :: rest => (readSignedDigits rest).map fun read => (some read.1, read.2)
  | 'E' :: rest => (readSignedDigits rest).map fun read => (some read.1, read.2)
  | text => some (none, text)

/-- The parts of a number as it is written. -/
structure Numeral where
  negative : Bool
  whole : List Char
  fraction : Option (List Char)
  exponent : Option Int

/-- Whether a text starts with a minus sign, and what comes after it. -/
def readMinus : List Char → Bool × List Char
  | '-' :: rest => (true, rest)
  | text => (false, text)

/-- A numeral; its whole part has no leading zero. -/
def readNumeral (text : List Char) : Option (Numeral × List Char) := do
  let (negative, rest) := readMinus text
  let (whole, rest) := readDigits rest
  if whole.isEmpty || (whole.head? == some '0' && whole.length != 1) then none
  else
    let (fraction, rest) ← readFraction rest
    let (exponent, rest) ← readExponent rest
    some ({ negative, whole, fraction, exponent }, rest)

/-- The number a numeral writes; a decimal beyond the largest is none. -/
def Numeral.number? (written : Numeral) : Option Number :=
  let (gathered, left) := gather 0 written.whole
  let decimal (digits : Nat) (shift : Int) : Option Number :=
    (Decimal.read? written.negative digits (shift + written.exponent.getD 0)).map .decimal
  match written.fraction, written.exponent with
  | none, none =>
      if !left.isEmpty then decimal gathered left.length
      else if !written.negative then some (.int gathered)
      else if 0 < gathered ∧ 2 * gathered ≤ countLimit then some (.int (-gathered))
      else decimal gathered 0
  | none, some _ => decimal gathered left.length
  | some digits, _ =>
      let (all, unread) := gather gathered digits
      decimal all ((left.length : Int) - (digits.length - unread.length : Nat))

def readNumber (text : List Char) : Option (Number × List Char) := do
  let (written, rest) ← readNumeral text
  let number ← written.number?
  some (number, rest)

/-- A value that is neither an array nor an object. -/
def readScalar (bound : Nat) : Reader Json
  | 'n' :: 'u' :: 'l' :: 'l' :: rest => some (.null, rest)
  | 't' :: 'r' :: 'u' :: 'e' :: rest => some (.bool true, rest)
  | 'f' :: 'a' :: 'l' :: 's' :: 'e' :: rest => some (.bool false, rest)
  | '"' :: rest => (readString bound rest).map fun read => (.string read.1, read.2)
  | text => (readNumber text).map fun read => (.number read.1, read.2)

/-! ### Items and members -/

/-- Items separated by commas, up to the closing character: at least one, and fewer
than the bound.  `item` reads the item at an index. -/
def readSeparated {α : Type} (item : Nat → Reader α) (close : Char) :
    Nat → Nat → Reader (List α)
  | 0, _, _ => none
  | bound + 1, index, text => do
      let (first, rest) ← item index text
      match skipSpace rest with
      | [] => none
      | c :: rest =>
          if c = close then some ([first], rest)
          else if c = ',' then
            let (others, rest) ← readSeparated item close bound (index + 1) rest
            some (first :: others, rest)
          else none

/-- The items after an opening bracket, up to the closing one. -/
def readItems {α : Type} (bound : Nat) (item : Nat → Reader α) (close : Char) :
    Reader (List α) := fun text =>
  match skipSpace text with
  | [] => none
  | c :: rest =>
      if c = close then some ([], rest)
      else readSeparated item close bound 0 (c :: rest)

/-- A member of an object: its key, after the opening quotation mark, and then the
value, read as the key asks. -/
def readMember {K V : Type} (key : Reader K) (value : K → Reader V) :
    Reader (K × V) := fun text =>
  match skipSpace text with
  | '"' :: rest => do
      let (key, rest) ← key rest
      match skipSpace rest with
      | ':' :: rest => do
          let (value, rest) ← value key rest
          some ((key, value), rest)
      | _ => none
  | _ => none

end JoinPlan.Json
