/-!
# Counts

A count is a natural number that fits 64 bits.  Its text is a run of decimal
digits, which a plus sign may precede and zeros may lead.
-/

namespace JoinPlan

/-- The number of values a 64 bit count can take. -/
def countLimit : Nat := 18446744073709551616

namespace Text

def digitValue (c : Char) : Nat := c.toNat - '0'.toNat

/-- The number a run of decimal digits spells after `before`. -/
def ofDigits (before : Nat) (digits : List Char) : Nat :=
  digits.foldl (fun value c => value * 10 + digitValue c) before

def dropPlus : List Char → List Char
  | '+' :: rest => rest
  | text => text

/-- Reads a count from its text. -/
def count? (text : String) : Option Nat :=
  let digits := dropPlus text.toList
  if digits.isEmpty || !digits.all Char.isDigit then none
  else
    let value := ofDigits 0 digits
    if value < countLimit then some value else none

end Text

end JoinPlan
