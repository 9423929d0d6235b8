/-!
# The decimal text of a double

A double-precision number is written with the fewest digits that read back as the same number, and
of several such decimals with the nearest. Where the point stands is a matter of style: a style says
which magnitudes are written in positional notation, and all others are scientific. A whole number
in positional notation has one zero after its point, and the exponent in scientific notation always
has a sign.

The search for the digits is exact. A finite double is `m * 2 ^ q`; the reals that round to it form an interval
around it, which holds its ends if `m` is even. For each number of digits in turn, the two decimals
next to the double are tested against that interval, in whole numbers throughout. Seventeen digits
always suffice.
-/

namespace SemanticVersioning
namespace Text

/-! ## Exact magnitudes -/

/-- A non-negative fraction. -/
structure Ratio where
  numerator : Nat
  denominator : Nat
deriving DecidableEq, Repr, Inhabited

namespace Ratio

/-- The fraction `n * base ^ exponent`. -/
def scaled (n base : Nat) (exponent : Int) : Ratio :=
  match exponent with
  | .ofNat e => ⟨n * base.pow e, 1⟩
  | .negSucc e => ⟨n, base.pow (e + 1)⟩

/-- Comparison of fractions by cross-multiplication. -/
instance : Ord Ratio where
  compare a b := compare (a.numerator * b.denominator) (b.numerator * a.denominator)

end Ratio

/-! ## Finite doubles -/

/-- The magnitude `significand * 2 ^ exponent` of a finite double. -/
structure Magnitude where
  significand : Nat
  exponent : Int
deriving DecidableEq, Repr, Inhabited

/-- The significand of a power of two, which is the least significand of a normal double. -/
def leastSignificand : Nat := 0x10000000000000

/-- The magnitude of a finite double. -/
def Magnitude.ofFloat (x : Float) : Magnitude :=
  let bits := x.toBits.toNat
  let fraction := bits % leastSignificand
  let biased := bits / leastSignificand % 0x800
  if biased = 0 then
    ⟨fraction, -1074⟩
  else
    ⟨leastSignificand + fraction, Int.ofNat biased - 1075⟩

namespace Magnitude

/-- The magnitude as a fraction. -/
def value (x : Magnitude) : Ratio :=
  .scaled x.significand 2 x.exponent

/-- The least real that rounds to the magnitude, half-way to the double below it. Below a power of
two the doubles are twice as dense. -/
def low (x : Magnitude) : Ratio :=
  if x.significand = leastSignificand ∧ x.exponent > -1074 then
    .scaled (4 * x.significand - 1) 2 (x.exponent - 2)
  else
    .scaled (2 * x.significand - 1) 2 (x.exponent - 1)

/-- The greatest real that rounds to the magnitude, half-way to the double above it. -/
def high (x : Magnitude) : Ratio :=
  .scaled (2 * x.significand + 1) 2 (x.exponent - 1)

/-- Whether a fraction rounds to the magnitude. -/
def isNearest (x : Magnitude) (r : Ratio) : Bool :=
  if x.significand % 2 = 0 then
    (compare x.low r).isLE && (compare r x.high).isLE
  else
    (compare x.low r).isLT && (compare r x.high).isLT

/-- The number of digits before the point, or minus the number of zeros after it. -/
def decimalWidth (x : Magnitude) : Int :=
  let r := x.value
  if r.numerator ≥ r.denominator then
    Int.ofNat (Nat.toDigits 10 (r.numerator / r.denominator)).length
  else
    let zeros := (List.range 400).find? fun z => r.numerator * Nat.pow 10 (z + 1) ≥ r.denominator
    Int.negOfNat (zeros.getD 0)

/-- The whole number `n` for which `n * 10 ^ exponent` is a decimal that rounds to the magnitude,
the nearest if there are two, if there is one at all. -/
def decimalAt? (x : Magnitude) (exponent : Int) : Option Nat :=
  let r := x.value
  let unit := Ratio.scaled 1 10 exponent
  let below := r.numerator * unit.denominator / (r.denominator * unit.numerator)
  let above := below + 1
  let middle := Ratio.scaled (10 * below + 5) 10 (exponent - 1)
  match x.isNearest (.scaled below 10 exponent), x.isNearest (.scaled above 10 exponent) with
  | true, true =>
      match compare r middle with
      | .lt => some below
      | .gt => some above
      | .eq => some (if below % 2 = 0 then below else above)
  | true, false => some below
  | false, true => some above
  | false, false => none

/-- The shortest decimal `n * 10 ^ e` that rounds to the magnitude, as `n` and `e`. The search
begins with no digit at all, where the decimal above is the next power of ten. -/
def shortestDecimal (x : Magnitude) : Nat × Int :=
  ((List.range 18).findSome? fun digits =>
    let exponent := x.decimalWidth - Int.ofNat digits
    (x.decimalAt? exponent).map fun n => (n, exponent)).getD (0, 0)

end Magnitude

/-! ## Text -/

/-- A decimal `n * 10 ^ exponent` in positional notation with a point. -/
def renderPositional (n : Nat) (exponent : Int) : String :=
  let digits := Nat.toDigits 10 n
  match exponent with
  | .ofNat e => String.ofList (digits ++ List.replicate e '0' ++ ['.', '0'])
  | .negSucc e =>
      let places := e + 1
      let padded := List.replicate (places + 1 - digits.length) '0' ++ digits
      let whole := padded.length - places
      String.ofList (padded.take whole ++ '.' :: padded.drop whole)

/-- A decimal `n * 10 ^ exponent` in scientific notation, with one digit before the point. -/
def renderScientific (n : Nat) (exponent : Int) : String :=
  let digits := Nat.toDigits 10 n
  let leading := exponent + Int.ofNat (digits.length - 1)
  let places := if digits.length > 1 then '.' :: digits.drop 1 else []
  String.ofList (digits.take 1 ++ places) ++ (if leading < 0 then "e" else "e+") ++ leading.repr

/-- The magnitudes that are written in positional notation, by the power of ten of their first
digit. -/
structure DecimalStyle where
  lowest : Int
  highest : Int
deriving DecidableEq, Repr, Inhabited

/-- The text of a decimal `n * 10 ^ exponent` in a style. -/
def DecimalStyle.render (style : DecimalStyle) (n : Nat) (exponent : Int) : String :=
  let leading := exponent + Int.ofNat ((Nat.toDigits 10 n).length - 1)
  if style.lowest ≤ leading ∧ leading ≤ style.highest then
    renderPositional n exponent
  else
    renderScientific n exponent

/-- The text of a finite double in a style. A zero is positional and keeps its sign. -/
def renderDouble (style : DecimalStyle) (x : Float) : String :=
  let sign := if x.toBits.toNat ≥ 0x8000000000000000 then "-" else ""
  let magnitude := Magnitude.ofFloat x
  if magnitude.significand = 0 then
    sign ++ renderPositional 0 0
  else
    sign ++ style.render magnitude.shortestDecimal.1 magnitude.shortestDecimal.2

end Text
end SemanticVersioning
