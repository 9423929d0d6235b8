import SemanticVersioning.Reader.Basic
import SemanticVersioning.Text.Double

/-!
# Numerals

Structured data holds numbers in decimal notation, and they are told apart by how they were written.
A numeral without a point and without an exponent is an integer if it fits in 64 bits. Each other
numeral stands for a double, also if its value is a whole number.

The double is found in few steps and not exactly. As many digits as fit in 64 bits are rounded to a
double, and the result is multiplied or divided by a power of ten. Each step rounds, so the double
is close to the number without always being the nearest.
-/

namespace SemanticVersioning

/-- A number as written in decimal notation: its digits before and after the point, and its
exponent. -/
structure Numeral where
  negative : Bool
  whole : List Char
  fraction? : Option (List Char) := none
  exponent? : Option Int := none
deriving DecidableEq, Repr, Inhabited

/-! ## Reading -/

namespace Reader

/-- The exponent of a numeral, with its sign. -/
def numeralExponent : Reader Int := do
  orElse (literal ['e']) (literal ['E'])
  let minus ← optional (literal ['-'])
  let _ ← optional (literal ['+'])
  let ds ← charsWhile1 Char.isDigit
  let n := Nat.ofDigitChars 10 ds 0
  return if minus.isSome then Int.negOfNat n else Int.ofNat n

/-- A numeral. -/
def numeral : Reader Numeral := do
  let minus ← optional (literal ['-'])
  let whole ← charsWhile1 Char.isDigit
  let fraction? ← optional do
    literal ['.']
    charsWhile1 Char.isDigit
  let exponent? ← optional numeralExponent
  return { negative := minus.isSome, whole, fraction?, exponent? }

end Reader

/-- The numeral that a text writes. -/
def Numeral.parse? (text : String) : Option Numeral :=
  match Reader.numeral text.toList with
  | .read numeral [] => some numeral
  | _ => none

namespace Numeral

/-! ## Integers -/

/-- The largest number of 64 bits. -/
def maxWord : Nat := 0xFFFFFFFFFFFFFFFF

/-- The number before the point, without its sign. -/
def wholeValue (numeral : Numeral) : Nat :=
  Nat.ofDigitChars 10 numeral.whole 0

/-- Whether a numeral is an integer: it has neither a point nor an exponent and fits in 64 bits,
with a sign if it is negative. A zero with a minus sign is none, since no integer keeps that
sign. -/
def isInteger (numeral : Numeral) : Bool :=
  numeral.fraction?.isNone && numeral.exponent?.isNone &&
    if numeral.negative then
      0 < numeral.wholeValue && numeral.wholeValue ≤ 0x8000000000000000
    else
      numeral.wholeValue ≤ maxWord

/-- The number before the point, with its sign. -/
def toInt (numeral : Numeral) : Int :=
  if numeral.negative then Int.negOfNat numeral.wholeValue else Int.ofNat numeral.wholeValue

/-! ## Doubles -/

/-- A number continued by as many digits as it can take within 64 bits, and the digits left over. -/
def extend (n : Nat) : List Char → Nat × List Char
  | [] => (n, [])
  | d :: ds =>
      let longer := Nat.ofDigitChars 10 [d] n
      if longer ≤ maxWord then extend longer ds else (n, d :: ds)

/-- The digits of a numeral that fit in 64 bits, as a number, and the power of ten that goes with
it. -/
def significand (numeral : Numeral) : Nat × Int :=
  let fraction := numeral.fraction?.getD []
  let (n, wholeLeft) := extend 0 numeral.whole
  let (n, fractionLeft) := extend n fraction
  (n, numeral.exponent?.getD 0 + Int.ofNat wholeLeft.length
    - Int.ofNat (fraction.length - fractionLeft.length))

/-- The double nearest to a power of ten. From `10 ^ 309` on it is infinite. -/
def powerOfTen (e : Nat) : Float :=
  Float.ofScientific 1 false (min e 309)

/-- A double divided by a power of ten, in steps of the largest finite one. -/
def divide (x : Float) (e : Nat) : Float :=
  if e ≤ 308 then
    x / powerOfTen e
  else if x == 0 then
    x
  else
    divide (x / powerOfTen 308) (e - 308)
termination_by e

/-- The double that a numeral stands for. -/
def toFloat (numeral : Numeral) : Float :=
  let (n, exponent) := numeral.significand
  let x := Float.ofScientific n false 0
  let magnitude := match exponent with
    | .ofNat e => if n = 0 then x else x * powerOfTen e
    | .negSucc e => divide x (e + 1)
  if numeral.negative then magnitude.neg else magnitude

/-! ## Text -/

/-- The style of doubles: positional from `10 ^ -5` on and below `10 ^ 16`. -/
def style : Text.DecimalStyle where
  lowest := -5
  highest := 15

/-- The decimal text of the number that a numeral stands for. -/
def render (numeral : Numeral) : String :=
  if numeral.isInteger then numeral.toInt.repr else Text.renderDouble style numeral.toFloat

end Numeral
end SemanticVersioning
