import LinkAnalysis.Score

/-!
# Shortest decimals

A finite machine number is a whole number times a power of two.  Both are read
off its bits, and quotients of whole numbers are rounded, so that all decimal
texts are computed exactly.

Every machine number owns an interval of reals that round to it.  The shortest
decimal of a number is the one on the coarsest power-of-ten grid that meets this
interval; of two grid points in the interval the nearer is taken.  If a grid
meets the interval at all, then one of the two neighbours of the number on that
grid lies in it, so two candidates per grid suffice.
-/

namespace LinkAnalysis.Decimal

inductive Binary where
  | notANumber
  | infinite (negative : Bool)
  /-- `mantissa * 2 ^ exponent`, negated on demand; zero keeps its sign. -/
  | finite (negative : Bool) (mantissa : Nat) (exponent : Int)
  deriving DecidableEq, Repr

def leastExponent : Int := -1074

def leadingMantissa : Nat := twoTo 52

/-- The value of a machine number, read off its sign, exponent and fraction
bits. -/
def Binary.ofFloat (x : Float) : Binary :=
  let bits : Nat := x.toBits.toNat
  let negative := bits / twoTo 63 == 1
  let biased : Nat := bits / twoTo 52 % twoTo 11
  let fraction : Nat := bits % twoTo 52
  if biased = 2047 then
    if fraction = 0 then .infinite negative else .notANumber
  else if biased = 0 then
    .finite negative fraction leastExponent
  else
    .finite negative (leadingMantissa + fraction) ((biased : Int) - 1075)

def roundHalfEven (num den : Nat) : Nat :=
  let below := num / den
  let rest := num % den
  if 2 * rest < den then below
  else if den < 2 * rest then below + 1
  else if below % 2 = 0 then below
  else below + 1

inductive Tie where
  | even
  | up
  deriving DecidableEq, Repr

/-- A positive value together with the interval of reals that round to it, as
numerators over one denominator. -/
structure Interval where
  low : Nat
  center : Nat
  high : Nat
  den : Nat
  closed : Bool
  deriving DecidableEq, Repr

/-- The interval of `mantissa * 2 ^ exponent`.  Below a power of two the spacing
is halved, so the lower end is nearer there.  A tie rounds to the even mantissa,
which then owns both ends. -/
def Interval.ofBinary (mantissa : Nat) (exponent : Int) : Interval :=
  let narrow := mantissa == leadingMantissa && decide (leastExponent < exponent)
  let scale := twoTo (exponent - 2).toNat
  { low := (4 * mantissa - if narrow then 1 else 2) * scale
    center := 4 * mantissa * scale
    high := (4 * mantissa + 2) * scale
    den := twoTo (2 - exponent).toNat
    closed := mantissa % 2 == 0 }

/-- Whether the quotient `num / den` lies in the interval, where `num` and the
ends have been brought to the same denominator. -/
def Interval.holds (i : Interval) (num : Nat) : Bool :=
  if i.closed then decide (i.low ≤ num) && decide (num ≤ i.high)
  else decide (i.low < num) && decide (num < i.high)

def Interval.times (i : Interval) (factor : Nat) : Interval :=
  { i with low := i.low * factor, center := i.center * factor, high :=
    i.high * factor }

/-- The neighbour of the value on the grid of multiples of `10 ^ power` that
lies in the interval, as a multiple of the grid width. -/
def Interval.onGrid? (tie : Tie) (i : Interval) (power : Int) : Option Nat :=
  let j := i.times (tenTo (-power).toNat)
  let width := j.den * tenTo power.toNat
  let below := j.center / width
  let above := below + 1
  match j.holds (below * width), j.holds (above * width) with
  | true, true =>
    let down := j.center - below * width
    let up := above * width - j.center
    if down < up then some below
    else if up < down then some above
    else match tie with
      | .even => some (if below % 2 = 0 then below else above)
      | .up => some above
  | true, false => some below
  | false, true => some above
  | false, false => none

/-- Try the grids from `10 ^ power` downwards and take the first that meets the
interval. -/
def Interval.coarsest (tie : Tie) (i : Interval) : Nat → Int → Nat × Int
  | 0, power =>
    (i.center * tenTo (-power).toNat / (i.den * tenTo power.toNat), power)
  | tries + 1, power =>
    match i.onGrid? tie power with
    | some digits => (digits, power)
    | none => i.coarsest tie tries (power - 1)

/-- A power of ten above the positive value `mantissa * 2 ^ exponent`, at most a
few powers too high: `30103 / 100000` is a little more than the logarithm of
two. -/
def powerAbove (mantissa : Nat) (exponent : Int) : Int :=
  (exponent + mantissa.log2 + 1) * 30103 / 100000 + 2

/-- The shortest decimal `digits * 10 ^ power` that rounds to the positive value
`mantissa * 2 ^ exponent`, the nearest one if there are several. -/
def shortest (tie : Tie) (mantissa : Nat) (exponent : Int) : Nat × Int :=
  (Interval.ofBinary mantissa exponent).coarsest tie 30
    (powerAbove mantissa exponent)

end LinkAnalysis.Decimal
