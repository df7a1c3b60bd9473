/-!
# Characters, strings and keys of TOML

A parser takes characters off the front of a text and hands out what it read
together with the rest; it has no answer where the text does not start with what
it looks for.
-/

namespace LinkAnalysis.Toml

abbrev Parser (β : Type) := List Char → Option (β × List Char)

def isBlank (c : Char) : Bool := c = ' ' || c = '\t'

def isDigit (c : Char) : Bool := decide ('0' ≤ c ∧ c ≤ '9')

def isHex (c : Char) : Bool :=
  isDigit c || decide ('a' ≤ c ∧ c ≤ 'f') || decide ('A' ≤ c ∧ c ≤ 'F')

/-- A character that may stand in a comment or string: a tab, or anything but a
control character of ASCII. -/
def isPrintable (c : Char) : Bool :=
  c = '\t' || decide (0x20 ≤ c.toNat ∧ c.toNat ≠ 0x7F)

def isBare (c : Char) : Bool :=
  isDigit c || decide ('a' ≤ c ∧ c ≤ 'z') || decide ('A' ≤ c ∧ c ≤ 'Z') ||
    c = '-' || c = '_'

def skipBlanks (text : List Char) : List Char := text.dropWhile isBlank

def newline? : List Char → Option (List Char)
  | '\n' :: rest => some rest
  | '\r' :: '\n' :: rest => some rest
  | _ => none

def skipComment (text : List Char) : List Char :=
  match text with
  | '#' :: rest => rest.dropWhile isPrintable
  | _ => text

/-- Take the end of a line off the front: blanks, perhaps a comment, and a line
end unless the text ends here. -/
def lineEnd? (text : List Char) : Option (List Char) :=
  match skipComment (skipBlanks text) with
  | [] => some []
  | rest => newline? rest

def skipLines : Nat → List Char → List Char
  | 0, text => text
  | lines + 1, text =>
    let rest := skipBlanks text
    match rest with
    | '#' :: _ =>
      match newline? (skipComment rest) with
      | some more => skipLines lines more
      | none => rest
    | _ =>
      match newline? rest with
      | some more => skipLines lines more
      | none => rest

def escape? : Char → Option Char
  | 'b' => some '\x08'
  | 't' => some '\t'
  | 'n' => some '\n'
  | 'f' => some '\x0C'
  | 'r' => some '\r'
  | '"' => some '"'
  | '\\' => some '\\'
  | _ => none

def ofHexDigits (digits : List Char) : Nat :=
  digits.foldl (fun n c =>
    16 * n +
      (if isDigit c then c.toNat - '0'.toNat
        else c.toLower.toNat - 'a'.toNat + 10)) 0

def ofHex? (digits : List Char) : Option Char :=
  let n := ofHexDigits digits
  if digits.all isHex && decide n.isValidChar then some (Char.ofNat n) else none

def basicRest (read : List Char) : Parser String
  | '"' :: rest => some (String.ofList read.reverse, rest)
  | '\\' :: 'u' :: a :: b :: c :: d :: rest =>
    match ofHex? [a, b, c, d] with
    | some x => basicRest (x :: read) rest
    | none => none
  | '\\' :: 'U' :: a :: b :: c :: d :: e :: f :: g :: digit :: rest =>
    match ofHex? [a, b, c, d, e, f, g, digit] with
    | some x => basicRest (x :: read) rest
    | none => none
  | '\\' :: c :: rest =>
    match escape? c with
    | some x => basicRest (x :: read) rest
    | none => none
  | c :: rest => if isPrintable c then basicRest (c :: read) rest else none
  | [] => none

def literalRest (read : List Char) : Parser String
  | '\'' :: rest => some (String.ofList read.reverse, rest)
  | c :: rest => if isPrintable c then literalRest (c :: read) rest else none
  | [] => none

/-- Up to two quotes that belong to a string over several lines although its
closing quotes have been read. -/
def lateQuotes (quote : Char) (read : List Char) :
    List Char → String × List Char
  | a :: b :: rest =>
    if a = quote then
      if b = quote then (String.ofList (quote :: quote :: read).reverse, rest)
      else (String.ofList (quote :: read).reverse, b :: rest)
    else (String.ofList read.reverse, a :: b :: rest)
  | [a] =>
    if a = quote then (String.ofList (quote :: read).reverse, [])
    else (String.ofList read.reverse, [a])
  | [] => (String.ofList read.reverse, [])

def literalLinesRest (read : List Char) : Parser String
  | '\'' :: '\'' :: '\'' :: rest => some (lateQuotes '\'' read rest)
  | '\r' :: '\n' :: rest => literalLinesRest ('\n' :: read) rest
  | '\n' :: rest => literalLinesRest ('\n' :: read) rest
  | c :: rest =>
    if isPrintable c then literalLinesRest (c :: read) rest else none
  | [] => none

/-- What an escaped line end in a string over several lines makes of the
characters behind it. -/
inductive Trim where
  | no
  | toLineEnd
  | all

def basicLinesRest (trim : Trim) (read : List Char) : Parser String
  | [] => none
  | '\r' :: '\n' :: rest =>
    match trim with
    | .no => basicLinesRest .no ('\n' :: read) rest
    | _ => basicLinesRest .all read rest
  | c :: rest =>
    if c = '\n' then
      match trim with
      | .no => basicLinesRest .no ('\n' :: read) rest
      | _ => basicLinesRest .all read rest
    else if isBlank c && !(trim matches .no) then basicLinesRest trim read rest
    else if trim matches .toLineEnd then none
    else if c = '"' then
      match rest with
      | '"' :: '"' :: more => some (lateQuotes '"' read more)
      | _ => basicLinesRest .no ('"' :: read) rest
    else if c = '\\' then
      match rest with
      | 'u' :: a :: b :: c :: d :: more =>
        match ofHex? [a, b, c, d] with
        | some x => basicLinesRest .no (x :: read) more
        | none => none
      | 'U' :: a :: b :: c :: d :: e :: f :: g :: digit :: more =>
        match ofHex? [a, b, c, d, e, f, g, digit] with
        | some x => basicLinesRest .no (x :: read) more
        | none => none
      | '\r' :: '\n' :: more => basicLinesRest .all read more
      | x :: more =>
        if x = '\n' then basicLinesRest .all read more
        else if isBlank x then basicLinesRest .toLineEnd read more
        else match escape? x with
          | some y => basicLinesRest .no (y :: read) more
          | none => none
      | [] => none
    else if isPrintable c then basicLinesRest .no (c :: read) rest
    else none

def skipNewline (text : List Char) : List Char := (newline? text).getD text

def string? : Parser String
  | '"' :: '"' :: '"' :: rest => basicLinesRest .no [] (skipNewline rest)
  | '"' :: rest => basicRest [] rest
  | '\'' :: '\'' :: '\'' :: rest => literalLinesRest [] (skipNewline rest)
  | '\'' :: rest => literalRest [] rest
  | _ => none

def keyPart? : Parser String
  | '"' :: rest => basicRest [] rest
  | '\'' :: rest => literalRest [] rest
  | text =>
    let bare := text.takeWhile isBare
    if bare.isEmpty then none
    else some (String.ofList bare, text.dropWhile isBare)

/-- A key: parts with points between them and blanks around them, in so many
parts at most. -/
def keyParts? : Nat → Parser (List String)
  | 0, _ => none
  | parts + 1, text =>
    match keyPart? (skipBlanks text) with
    | none => none
    | some (part, rest) =>
      match skipBlanks rest with
      | '.' :: more =>
        match keyParts? parts more with
        | some (key, behind) => some (part :: key, behind)
        | none => none
      | behind => some ([part], behind)

def depthLimit : Nat := 80

def key? : Parser (List String) := keyParts? (depthLimit - 1)

end LinkAnalysis.Toml
