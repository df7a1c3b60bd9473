import LinkAnalysis.Score

/-!
# Reading numbers

Counts are whole numbers that fit a word.  Scores are decimals with an optional
point and power of ten, or the words for infinity and for an undefined value; a
decimal is rounded to the nearest machine number, half to even.
-/

namespace LinkAnalysis.Decimal

def ofDigits (digits : List Char) : Nat :=
  digits.foldl (fun n c => 10 * n + (c.toNat - '0'.toNat)) 0

def count? (text : String) : Option Nat :=
  let digits := match text.toList with
    | '+' :: rest => rest
    | all => all
  if digits.isEmpty || !digits.all Char.isDigit then none
  else
    let n := ofDigits digits
    if n < wordSize then some n else none

/-- The machine number nearest to `digits * 10 ^ power`.  Powers far outside the
range of machine numbers are settled without computing them. -/
def nearest (digits : Nat) (power : Int) : Float :=
  if digits = 0 then 0.0
  else if 400 < power then 1.0 / 0.0
  else if power < -(digits.log2 + 401 : Int) then 0.0
  else if power < 0 then OfScientific.ofScientific digits true power.natAbs
  else OfScientific.ofScientific digits false power.natAbs

/-- A power of ten: a mark, an optional sign and digits; nothing at all stands
for the power zero. -/
def powerOfTen? : List Char → Option Int
  | [] => some 0
  | mark :: rest =>
    if mark != 'e' && mark != 'E' then none
    else
      let (negative, digits) := match rest with
        | '+' :: more => (false, more)
        | '-' :: more => (true, more)
        | more => (false, more)
      if digits.isEmpty || !digits.all Char.isDigit then none
      else
        let n : Int := ofDigits digits
        some (if negative then -n else n)

/-- A decimal without sign: digits with an optional point, at least one digit,
and an optional power of ten. -/
def magnitude? (text : List Char) : Option Float :=
  let whole := text.takeWhile Char.isDigit
  let (fraction, rest) := match text.dropWhile Char.isDigit with
    | '.' :: more => (more.takeWhile Char.isDigit, more.dropWhile Char.isDigit)
    | other => ([], other)
  if whole.isEmpty && fraction.isEmpty then none
  else
    match powerOfTen? rest with
    | none => none
    | some power =>
      some (nearest (ofDigits (whole ++ fraction)) (power - fraction.length))

/-- A number without sign: a decimal or, in letters of either case, a word for
infinity or for an undefined value. -/
def unsigned? (text : List Char) : Option Float :=
  let word := String.ofList (text.map Char.toLower)
  if word = "inf" || word = "infinity" then some (1.0 / 0.0)
  else if word = "nan" then some (0.0 / 0.0)
  else magnitude? text

def score? (text : String) : Option Float :=
  match text.toList with
  | '+' :: rest => unsigned? rest
  | '-' :: rest => (unsigned? rest).map (fun x => -x)
  | all => unsigned? all

end LinkAnalysis.Decimal
