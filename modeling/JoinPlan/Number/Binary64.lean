/-!
# Binary floating point

The non-negative finite numbers of the 64 bit binary format, as a mantissa of at
most 53 bits and an exponent of two.  A ratio is rounded to the nearest of them,
a tie to the even mantissa; beyond the largest there is no nearest number.
Products and quotients are the exact ones, rounded once.
-/

namespace JoinPlan

-- powers are those of the core library, whatever instances are in scope besides
attribute [local instance (high)] instPowNat

/-- The number `mantissa * 2 ^ exponent`. -/
structure Binary64 where
  mantissa : Nat
  exponent : Int
deriving DecidableEq, Repr

namespace Binary64

def mantissaBits : Nat := 53
def leastExponent : Int := -1074
def greatestExponent : Int := 971

def zero : Binary64 := ⟨0, leastExponent⟩

def isZero (x : Binary64) : Bool := x.mantissa == 0

/-- The value as a numerator and a denominator. -/
def ratio (x : Binary64) : Nat × Nat :=
  if 0 ≤ x.exponent then (x.mantissa * 2 ^ x.exponent.toNat, 1)
  else (x.mantissa, 2 ^ (-x.exponent).toNat)

/-- The quotient rounded to the nearest integer, a tie to the even one. -/
def divideToEven (num den : Nat) : Nat :=
  let floor := num / den
  let twice := 2 * (num % den)
  if twice < den then floor
  else if den < twice then floor + 1
  else floor + floor % 2

/-- The ratio `num / den` divided by `2 ^ exponent`. -/
def rescaled (num den : Nat) (exponent : Int) : Nat × Nat :=
  if 0 ≤ exponent then (num, den * 2 ^ exponent.toNat)
  else (num * 2 ^ (-exponent).toNat, den)

/-- The number nearest to `num / den`. -/
def nearest (num den : Nat) : Option Binary64 :=
  if num = 0 then some zero
  else
    let low : Int := (Nat.log2 num : Int) - Nat.log2 den - mantissaBits
    let (n, d) := rescaled num den low
    let fitting := if 2 ^ mantissaBits ≤ n / d then low + 1 else low
    let exponent := max fitting leastExponent
    let (n, d) := rescaled num den exponent
    let mantissa := divideToEven n d
    let rounded : Binary64 :=
      if mantissa = 2 ^ mantissaBits then ⟨2 ^ (mantissaBits - 1), exponent + 1⟩
      else ⟨mantissa, exponent⟩
    if rounded.exponent ≤ greatestExponent then some rounded else none

def times (x y : Binary64) : Option Binary64 :=
  nearest (x.ratio.1 * y.ratio.1) (x.ratio.2 * y.ratio.2)

/-- The quotient, for a divisor that is not zero. -/
def quotient (x y : Binary64) : Option Binary64 :=
  nearest (x.ratio.1 * y.ratio.2) (x.ratio.2 * y.ratio.1)

/-- The number nearest to a power of ten. -/
def powerOfTen (power : Nat) : Option Binary64 :=
  nearest (10 ^ power) 1

end Binary64

end JoinPlan
