import LinkAnalysis.Text.Symbols

/-!
# JSON tokens

A scanner takes one symbol at a time and hands out the tokens of a JSON text:
punctuation, words, numbers and strings.  Where the text stops being JSON the
scanner hands out one last token that says so, and is deaf from then on.
-/

namespace LinkAnalysis.Json

open Text (Symbol)

inductive Token where
  | openRecord
  | closeRecord
  | openList
  | closeList
  | comma
  | colon
  | null
  | flag (value : Bool)
  | number (numeral : String)
  /-- A string, or nothing where it holds something that is no character: a lone
  half of a surrogate pair or a byte that is not UTF-8. -/
  | text (content : Option String)
  | stray
  deriving DecidableEq, Repr

inductive Phase where
  | minus
  | zero
  | whole
  | point
  | fraction
  | mark
  | markSign
  | power
  deriving DecidableEq, Repr

def Phase.next? (phase : Phase) (c : Char) : Option Phase :=
  match phase with
  | minus =>
    if c = '0' then some zero else if c.isDigit then some whole else none
  | zero =>
    if c = '.' then some point
    else if c = 'e' ∨ c = 'E' then some mark else none
  | whole =>
    if c.isDigit then some whole
    else if c = '.' then some point
    else if c = 'e' ∨ c = 'E' then some mark
    else none
  | point => if c.isDigit then some fraction else none
  | fraction =>
    if c.isDigit then some fraction
    else if c = 'e' ∨ c = 'E' then some mark else none
  | mark =>
    if c = '+' ∨ c = '-' then some markSign
    else if c.isDigit then some power else none
  | markSign => if c.isDigit then some power else none
  | power => if c.isDigit then some power else none

def Phase.isFinal : Phase → Bool
  | zero | whole | fraction | power => true
  | minus | point | mark | markSign => false

inductive Mode where
  | blank
  | word (letters : List Char) (token : Token)
  | number (phase : Phase) (read : List Char)
  | text (units : List Nat)
  | escape (units : List Nat)
  | hex (units : List Nat) (missing : Nat) (value : Nat)
  /-- Behind the point where the text stopped being JSON. -/
  | deaf
  deriving DecidableEq, Repr

def unreadable : Nat := 0x110000

def isHigh (unit : Nat) : Bool := decide (0xD800 ≤ unit ∧ unit ≤ 0xDBFF)

def isLow (unit : Nat) : Bool := decide (0xDC00 ≤ unit ∧ unit ≤ 0xDFFF)

def assemble : List Nat → Option (List Char)
  | [] => some []
  | [u] => if u.isValidChar then some [Char.ofNat u] else none
  | u :: v :: rest =>
    if isHigh u && isLow v then
      (assemble rest).map
        (Char.ofNat (0x10000 + (u - 0xD800) * 0x400 + (v - 0xDC00)) :: ·)
    else if u.isValidChar then (assemble (v :: rest)).map (Char.ofNat u :: ·)
    else none

def escapeUnit? (c : Char) : Option Nat :=
  match c with
  | '"' => some 0x22
  | '\\' => some 0x5C
  | '/' => some 0x2F
  | 'b' => some 0x08
  | 'f' => some 0x0C
  | 'n' => some 0x0A
  | 'r' => some 0x0D
  | 't' => some 0x09
  | _ => none

def hexDigit? (c : Char) : Option Nat :=
  if '0' ≤ c ∧ c ≤ '9' then some (c.toNat - '0'.toNat)
  else if 'a' ≤ c ∧ c ≤ 'f' then some (c.toNat - 'a'.toNat + 10)
  else if 'A' ≤ c ∧ c ≤ 'F' then some (c.toNat - 'A'.toNat + 10)
  else none

def isBlank (c : Char) : Bool := c = ' ' || c = '\t' || c = '\n' || c = '\r'

/-- A scanner: what it is in the middle of, and the tokens it has handed out,
latest first. -/
structure Scanner where
  mode : Mode
  tokens : List Token
  deriving DecidableEq, Repr

namespace Scanner

def start : Scanner := ⟨.blank, []⟩

def emit (s : Scanner) (t : Token) : Scanner := ⟨.blank, t :: s.tokens⟩

def become (s : Scanner) (m : Mode) : Scanner := ⟨m, s.tokens⟩

def giveUp (s : Scanner) : Scanner := ⟨.deaf, .stray :: s.tokens⟩

def begin (s : Scanner) (c : Char) : Scanner :=
  if isBlank c then s.become .blank
  else match c with
    | '\x7b' => s.emit .openRecord
    | '\x7d' => s.emit .closeRecord
    | '[' => s.emit .openList
    | ']' => s.emit .closeList
    | ',' => s.emit .comma
    | ':' => s.emit .colon
    | '"' => s.become (.text [])
    | 'n' => s.become (.word ['u', 'l', 'l'] .null)
    | 't' => s.become (.word ['r', 'u', 'e'] (.flag true))
    | 'f' => s.become (.word ['a', 'l', 's', 'e'] (.flag false))
    | '-' => s.become (.number .minus ['-'])
    | '0' => s.become (.number .zero ['0'])
    | d => if d.isDigit then s.become (.number .whole [d]) else s.giveUp

def numeral (read : List Char) : Token := .number (String.ofList read.reverse)

def stringToken (units : List Nat) : Token :=
  .text ((assemble units.reverse).map String.ofList)

def take (s : Scanner) (c : Char) : Scanner :=
  match s.mode with
  | .blank => s.begin c
  | .word [] t => (s.emit t).begin c
  | .word (l :: letters) t =>
    if c = l then
      (if letters.isEmpty then s.emit t else s.become (.word letters t))
    else s.giveUp
  | .number phase read =>
    match phase.next? c with
    | some p => s.become (.number p (c :: read))
    | none =>
      if phase.isFinal then (s.emit (numeral read)).begin c else s.giveUp
  | .text units =>
    if c = '"' then s.emit (stringToken units)
    else if c = '\\' then s.become (.escape units)
    else if c.toNat < 0x20 then s.giveUp
    else s.become (.text (c.toNat :: units))
  | .escape units =>
    if c = 'u' then s.become (.hex units 4 0)
    else match escapeUnit? c with
      | some u => s.become (.text (u :: units))
      | none => s.giveUp
  | .hex units missing value =>
    match hexDigit? c with
    | none => s.giveUp
    | some d =>
      if missing ≤ 1 then s.become (.text ((16 * value + d) :: units))
      else s.become (.hex units (missing - 1) (16 * value + d))
  | .deaf => s

/-- Take a byte that belongs to no character: inside a string it is remembered,
elsewhere the text stops being JSON. -/
def takeUnreadable (s : Scanner) : Scanner :=
  match s.mode with
  | .text units => s.become (.text (unreadable :: units))
  | .deaf => s
  | _ => s.giveUp

def step (s : Scanner) : Symbol → Scanner
  | some c => s.take c
  | none => s.takeUnreadable

def finish (s : Scanner) : List Token :=
  match s.mode with
  | .blank | .deaf => s.tokens.reverse
  | .number phase read =>
    if phase.isFinal then (numeral read :: s.tokens).reverse
    else (.stray :: s.tokens).reverse
  | _ => (.stray :: s.tokens).reverse

end Scanner

def tokens (text : List Symbol) : List Token :=
  (text.foldl Scanner.step .start).finish

end LinkAnalysis.Json
