import LinkAnalysis.Config.Setting
import LinkAnalysis.Decimal.Reading
import LinkAnalysis.Toml.Text

/-!
# Numbers, dates and times of TOML

Whole numbers lie between `-2 ^ 63` and `2 ^ 63 - 1`; decimals round to the
nearest machine number and must not exceed them all.  A date or time is
recognised and checked, but it serves no configuration: it stands there as a
table without a field that anybody knows.
-/

namespace LinkAnalysis.Toml

/-- The further digits at the front, with single underscores between them,
behind those read, which come latest first. -/
def furtherDigits (isMember : Char → Bool)
    (read : List Char) : Parser (List Char)
  | '_' :: c :: rest =>
    if isMember c then furtherDigits isMember (c :: read) rest else none
  | ['_'] => none
  | c :: rest =>
    if isMember c then furtherDigits isMember (c :: read) rest
    else some (read.reverse, c :: rest)
  | [] => some (read.reverse, [])

def digitRun (isMember : Char → Bool) : Parser (List Char)
  | c :: rest => if isMember c then furtherDigits isMember [c] rest else none
  | [] => none

/-- The digits of a whole number: a zero alone, or digits that start with
another one. -/
def wholeRun : Parser (List Char)
  | '0' :: rest => some (['0'], rest)
  | text => digitRun isDigit text

def ofBase (base : Nat) (digits : List Char) : Nat :=
  digits.foldl (fun n c => base * n + ofHexDigits [c]) 0

def largest : Nat := twoTo 63 - 1

def based? (base : Nat) (isMember : Char → Bool) : Parser Setting := fun text =>
  match digitRun isMember text with
  | some (digits, rest) =>
    let n := ofBase base digits
    if n ≤ largest then some (.integer n, rest) else none
  | none => none

def fraction? : Parser (List Char)
  | '.' :: rest => digitRun isDigit rest
  | text => some ([], text)

def power? : Parser (Option Int)
  | c :: rest =>
    if c = 'e' ∨ c = 'E' then
      let (negative, digits) := match rest with
        | '+' :: more => (false, more)
        | '-' :: more => (true, more)
        | more => (false, more)
      match digitRun isDigit digits with
      | some (run, behind) =>
        let n : Int := Decimal.ofDigits run
        some (some (if negative then -n else n), behind)
      | none => none
    else some (none, c :: rest)
  | [] => some (none, [])

def decimal? (negative : Bool) (whole fraction : List Char)
    (power : Int) : Option Setting :=
  let x :=
    Decimal.nearest (Decimal.ofDigits (whole ++ fraction))
      (power - fraction.length)
  if negative then some (.decimal (-x))
  else if x.isInf then none else some (.decimal x)

def integer? (negative : Bool) (whole : List Char) : Option Setting :=
  let n := Decimal.ofDigits whole
  if negative then (if n ≤ largest + 1 then some (.integer (-n)) else none)
  else if n ≤ largest then some (.integer n) else none

def digits? (negative : Bool) : Parser Setting := fun text =>
  match wholeRun text with
  | none => none
  | some (whole, afterWhole) =>
    match fraction? afterWhole with
    | none => none
    | some (fraction, afterFraction) =>
      match power? afterFraction with
      | none => none
      | some (none, rest) =>
        let value :=
          if fraction.isEmpty then integer? negative whole
          else decimal? negative whole fraction 0
        value.map (·, rest)
      | some (some power, rest) =>
        (decimal? negative whole fraction power).map (·, rest)

/-- A number whose sign has been read: a word for infinity or an undefined
value, or digits. -/
def magnitude? (negative : Bool) : Parser Setting
  | 'i' :: 'n' :: 'f' :: rest =>
    some (.decimal (if negative then -(1.0 / 0.0) else 1.0 / 0.0), rest)
  | 'n' :: 'a' :: 'n' :: rest => some (.decimal (0.0 / 0.0), rest)
  | text => digits? negative text

def number? : Parser Setting
  | '+' :: rest => magnitude? false rest
  | '-' :: rest => magnitude? true rest
  | '0' :: 'x' :: rest => based? 16 isHex rest
  | '0' :: 'o' :: rest => based? 8 (fun c => decide ('0' ≤ c ∧ c ≤ '7')) rest
  | '0' :: 'b' :: rest => based? 2 (fun c => c = '0' || c = '1') rest
  | text => magnitude? false text

def twoDigits? (least greatest : Nat) : Parser Nat
  | a :: b :: rest =>
    let n := Decimal.ofDigits [a, b]
    if isDigit a && isDigit b && decide (least ≤ n ∧ n ≤ greatest) then
      some (n, rest)
    else none
  | _ => none

def colonDigits? (greatest : Nat) : Parser Nat
  | ':' :: rest => twoDigits? 0 greatest rest
  | _ => none

def skipSecondFraction (text : List Char) : List Char :=
  match text with
  | '.' :: c :: rest => if isDigit c then rest.dropWhile isDigit else text
  | _ => text

def afterHour? (text : List Char) : Option (List Char) := do
  let (_, rest) ← colonDigits? 59 text
  let (_, rest) ← colonDigits? 60 rest
  return skipSecondFraction rest

def offset? (text : List Char) : Option (List Char) :=
  match text with
  | 'Z' :: rest | 'z' :: rest => some rest
  | '+' :: rest | '-' :: rest => do
    let (_, rest) ← twoDigits? 0 23 rest
    let (_, rest) ← colonDigits? 59 rest
    return rest
  | _ => some text

def daysOf (year month : Nat) : Nat :=
  if month = 2 then
    (if year % 4 = 0 ∧ (year % 100 ≠ 0 ∨ year % 400 = 0) then 29 else 28)
  else if month = 4 ∨ month = 6 ∨ month = 9 ∨ month = 11 then 30
  else 31

/-- The time behind a date, if there is one: a mark, an hour and a colon decide
that there is. -/
def timeAfterDate? (text : List Char) : Option (List Char) :=
  match text with
  | mark :: rest =>
    if mark = 'T' ∨ mark = 't' ∨ mark = ' ' then
      match twoDigits? 0 23 rest with
      | some (_, ':' :: more) => (afterHour? (':' :: more)).bind offset?
      | _ => some text
    else some text
  | [] => some text

def afterYear? (year : Nat) (text : List Char) : Option (List Char) := do
  let (month, rest) ← twoDigits? 1 12 text
  match rest with
  | '-' :: more =>
    let (_, rest) ← twoDigits? 1 (daysOf year month) more
    timeAfterDate? rest
  | _ => none

def timeOrNumber? (text : List Char) : Option (Setting × List Char) :=
  match twoDigits? 0 23 text with
  | some (_, ':' :: rest) => (afterHour? (':' :: rest)).map (.table [], ·)
  | _ => number? text

def numberOrMoment? : Parser Setting
  | a :: b :: c :: d :: '-' :: rest =>
    if isDigit a && isDigit b && isDigit c && isDigit d then
      (afterYear? (Decimal.ofDigits [a, b, c, d]) rest).map (.table [], ·)
    else timeOrNumber? (a :: b :: c :: d :: '-' :: rest)
  | text => timeOrNumber? text

end LinkAnalysis.Toml
