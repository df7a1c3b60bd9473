import LinkAnalysis.Decimal.Shortest

/-!
# Decimal texts of machine numbers

Three forms are written.  Reports use the shortest decimal, positional for
moderate magnitudes and with a power of ten otherwise.  Prose uses the shortest
decimal, always positional and without a needless fraction.  Tables use a fixed
number of places.
-/

namespace LinkAnalysis.Decimal

structure Form where
  /-- The decimal exponents of the leading digit that are written positionally;
  all of them where none is given. -/
  positional : Option (Int × Int)
  keepsPoint : Bool
  tie : Tie

/-- Reports: positional from `0.00001` up to sixteen whole digits, always with a
point there. -/
def Form.report : Form := ⟨some (-5, 15), true, .even⟩

def Form.prose : Form := ⟨none, false, .up⟩

def digitsOf (n : Nat) : List Char := Nat.toDigits 10 n

def positionalParts (digits : List Char)
    (power : Int) : List Char × List Char :=
  if 0 ≤ power then (digits ++ List.replicate power.toNat '0', [])
  else
    let places := (-power).toNat
    let padded := List.replicate (places + 1 - digits.length) '0' ++ digits
    padded.splitAt (padded.length - places)

def joinParts (keepsPoint : Bool) : List Char × List Char → List Char
  | (whole, []) => if keepsPoint then whole ++ ['.', '0'] else whole
  | (whole, fraction) => whole ++ '.' :: fraction

def scientific (digits : List Char) (leading : Int) : List Char :=
  let mantissa := match digits with
    | [] => []
    | [d] => [d]
    | d :: more => d :: '.' :: more
  let sign := if leading < 0 then '-' else '+'
  mantissa ++ 'e' :: sign :: digitsOf leading.natAbs

def Form.magnitude (f : Form) (mantissa : Nat) (exponent : Int) : List Char :=
  if mantissa = 0 then joinParts f.keepsPoint (['0'], [])
  else
    let (value, power) := shortest f.tie mantissa exponent
    let digits := digitsOf value
    let leading := power + digits.length - 1
    let plain := match f.positional with
      | none => true
      | some (least, greatest) =>
        decide (least ≤ leading) && decide (leading ≤ greatest)
    if plain then joinParts f.keepsPoint (positionalParts digits power)
    else scientific digits leading

def signed (negative : Bool) (magnitude : List Char) : String :=
  String.ofList (if negative then '-' :: magnitude else magnitude)

def Form.write (f : Form) (x : Float) : String :=
  match Binary.ofFloat x with
  | .notANumber => "NaN"
  | .infinite negative => if negative then "-inf" else "inf"
  | .finite negative mantissa exponent =>
    signed negative (f.magnitude mantissa exponent)

/-- The text of a machine number with a fixed number of places, rounded to
nearest; a half goes to the even neighbour. -/
def fixed (places : Nat) (x : Float) : String :=
  match Binary.ofFloat x with
  | .notANumber => "NaN"
  | .infinite negative => if negative then "-inf" else "inf"
  | .finite negative mantissa exponent =>
    let num := mantissa * twoTo exponent.toNat * tenTo places
    let digits := digitsOf (roundHalfEven num (twoTo (-exponent).toNat))
    signed negative (joinParts false (positionalParts digits (-(places : Int))))

end LinkAnalysis.Decimal
