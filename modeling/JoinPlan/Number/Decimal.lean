import JoinPlan.Number.Binary64

/-!
# Decimal numbers

A number with a fraction or an exponent is held as its shortest decimal: the
fewest digits that read back as the same binary number, and of those the digits
nearest to it.  It is never computed with, only read, passed on and written.
-/

namespace JoinPlan

-- powers are those of the core library, whatever instances are in scope besides
attribute [local instance (high)] instPowNat

/-- The number `digits * 10 ^ exponent`, with its sign.  Zeros at the end are left to
the exponent, so every number has one decimal. -/
@[ext]
structure Decimal where
  negative : Bool
  digits : Nat
  exponent : Int
  normal : digits % 10 = 0 → digits = 0 ∧ exponent = 0
deriving DecidableEq, Repr

namespace Decimal

def zero (negative : Bool) : Decimal := ⟨negative, 0, 0, fun _ => ⟨rfl, rfl⟩⟩

/-- The decimal with these digits, unless they end in zeros. -/
def ofDigits? (negative : Bool) (digits : Nat) (exponent : Int) : Option Decimal :=
  if h : digits % 10 = 0 → digits = 0 ∧ exponent = 0 then some ⟨negative, digits, exponent, h⟩
  else none

/-- The greatest power of ten that is a binary number. -/
def greatestPower : Nat := 308

/-- A text keeps at most seventeen significant digits. -/
def mostDigits : Nat := 17

/-- The ratio `digits * 10 ^ exponent`. -/
def ratio (digits : Nat) (exponent : Int) : Nat × Nat :=
  if 0 ≤ exponent then (digits * 10 ^ exponent.toNat, 1)
  else (digits, 10 ^ (-exponent).toNat)

def readsBack (x : Binary64) (digits : Nat) (exponent : Int) : Bool :=
  Binary64.nearest (ratio digits exponent).1 (ratio digits exponent).2 == some x

/-- Of the two neighbours of `x` among the multiples of `10 ^ exponent`, the one
that reads back as `x`; of two the nearer, and of two as near the even one. -/
def onGrid? (x : Binary64) (exponent : Int) : Option Nat :=
  let (num, den) := x.ratio
  let (num, den) :=
    if 0 ≤ exponent then (num, den * 10 ^ exponent.toNat)
    else (num * 10 ^ (-exponent).toNat, den)
  let below := num / den
  match readsBack x below exponent, readsBack x (below + 1) exponent with
  | true, true => some (Binary64.divideToEven num den)
  | true, false => some below
  | false, true => some (below + 1)
  | false, false => none

/-- The exponent of the first digit of a number that is not zero. -/
def leadingExponent (x : Binary64) : Int :=
  let (num, den) := x.ratio
  if den ≤ num then ((Nat.toDigits 10 (num / den)).length : Int) - 1
  else
    let zeros := (Nat.toDigits 10 (den / num)).length
    if den ≤ num * 10 ^ (zeros - 1) then -((zeros : Int) - 1) else -zeros

/-- The shortest decimal of a binary number.  The first grid is the one above the
leading digit, where a number just below a power of ten is that power.  Digits that
end in a zero are on a coarser grid, which comes before. -/
def shortest (negative : Bool) (x : Binary64) : Decimal :=
  if x.isZero then zero negative
  else
    let grids := (List.range (mostDigits + 1)).map fun (finer : Nat) =>
      leadingExponent x + 1 - (finer : Int)
    let found := grids.findSome? fun exponent =>
      (onGrid? x exponent).bind fun digits => ofDigits? negative digits exponent
    found.getD (zero negative)

/-- Scales a binary number by a power of ten in the fewest roundings: one
multiplication, or one division, or two when the divisor alone would be too
great.  There is no result when it would be too great. -/
def scale (x : Binary64) (exponent : Int) : Option Binary64 :=
  if x.isZero then some x
  else if 0 ≤ exponent then do
    if exponent.toNat ≤ greatestPower then
      x.times (← Binary64.powerOfTen exponent.toNat)
    else none
  else do
    let power := (-exponent).toNat
    if power ≤ greatestPower then
      x.quotient (← Binary64.powerOfTen power)
    else if power ≤ 2 * greatestPower then
      let once ← x.quotient (← Binary64.powerOfTen greatestPower)
      once.quotient (← Binary64.powerOfTen (power - greatestPower))
    else some Binary64.zero

/-- Reads `digits * 10 ^ exponent`: the digits are rounded to a binary number,
which is then scaled. -/
def read? (negative : Bool) (digits : Nat) (exponent : Int) : Option Decimal := do
  let whole ← Binary64.nearest digits 1
  let scaled ← scale whole exponent
  some (shortest negative scaled)

def zeros (count : Nat) : List Char := List.replicate count '0'

/-- How decimals are written: positionally from 0.00001 up to sixteen places
before the point, and with a signed exponent otherwise. -/
def magnitudeText (digits : Nat) (exponent : Int) : List Char :=
  let shown := Nat.toDigits 10 digits
  let point : Int := shown.length + exponent
  if digits = 0 then "0.0".toList
  else if 0 ≤ exponent ∧ point ≤ 16 then
    shown ++ zeros exponent.toNat ++ ".0".toList
  else if 0 < point ∧ point ≤ 16 then
    shown.take point.toNat ++ '.' :: shown.drop point.toNat
  else if -5 < point ∧ point ≤ 0 then
    "0.".toList ++ zeros (-point).toNat ++ shown
  else
    let power := point - 1
    let sign := if power < 0 then '-' else '+'
    let fraction := if shown.length = 1 then [] else '.' :: shown.drop 1
    shown.take 1 ++ fraction ++ 'e' :: sign :: Nat.toDigits 10 power.natAbs

def text (number : Decimal) : List Char :=
  (if number.negative then ['-'] else []) ++ magnitudeText number.digits number.exponent

end Decimal

end JoinPlan
