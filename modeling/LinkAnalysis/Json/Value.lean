import LinkAnalysis.Decimal.Text

/-!
# JSON values and their texts

Values that are to be written, with the fields of a record in the order in which
they appear.  The compact text has no blanks; the indented text puts every item
and field on a line of its own, two blanks deeper than its container.  Both
escape what JSON demands and nothing else.
-/

namespace LinkAnalysis.Json

inductive Value where
  | null
  | flag (value : Bool)
  | number (numeral : String)
  | text (content : String)
  | list (items : List Value)
  | record (fields : List (String × Value))

namespace Value

def count (n : Nat) : Value := number (toString n)

def texts (items : List String) : Value := list (items.map text)

def optional {α : Type} (write : α → Value) : Option α → Value
  | some a => write a
  | none => null

/-- A score in a report; a score that is not finite has no JSON number and is
written as missing. -/
def score (x : Float) : Value :=
  if x.isFinite then number (Decimal.Form.report.write x) else null

end Value

def escaped (c : Char) : List Char :=
  match c with
  | '"' => ['\\', '"']
  | '\\' => ['\\', '\\']
  | '\x08' => ['\\', 'b']
  | '\x0C' => ['\\', 'f']
  | '\n' => ['\\', 'n']
  | '\r' => ['\\', 'r']
  | '\t' => ['\\', 't']
  | c =>
    if c.toNat < 0x20 then
      ['\\', 'u', '0', '0', Nat.digitChar (c.toNat / 16),
        Nat.digitChar (c.toNat % 16)]
    else [c]

def quoted (s : String) : List Char :=
  '"' :: (s.toList.flatMap escaped ++ ['"'])

mutual

def Value.compact : Value → List Char
  | .null => ['n', 'u', 'l', 'l']
  | .flag true => ['t', 'r', 'u', 'e']
  | .flag false => ['f', 'a', 'l', 's', 'e']
  | .number numeral => numeral.toList
  | .text content => quoted content
  | .list [] => ['[', ']']
  | .list (v :: more) => '[' :: (v.compact ++ compactItems more)
  | .record [] => ['\x7b', '\x7d']
  | .record ((name, v) :: more) =>
    '\x7b' :: (quoted name ++ ':' :: (v.compact ++ compactFields more))

def compactItems : List Value → List Char
  | [] => [']']
  | v :: more => ',' :: (v.compact ++ compactItems more)

def compactFields : List (String × Value) → List Char
  | [] => ['\x7d']
  | (name, v) :: more =>
    ',' :: (quoted name ++ ':' :: (v.compact ++ compactFields more))

end

def newline (depth : Nat) : List Char := '\n' :: List.replicate (2 * depth) ' '

mutual

def Value.indentedAt (depth : Nat) : Value → List Char
  | .null => ['n', 'u', 'l', 'l']
  | .flag true => ['t', 'r', 'u', 'e']
  | .flag false => ['f', 'a', 'l', 's', 'e']
  | .number numeral => numeral.toList
  | .text content => quoted content
  | .list [] => ['[', ']']
  | .list (v :: more) =>
    '[' :: (newline (depth + 1) ++ v.indentedAt (depth + 1) ++
      indentedItems depth more)
  | .record [] => ['\x7b', '\x7d']
  | .record ((name, v) :: more) =>
    '\x7b' :: (newline (depth + 1) ++ quoted name ++ ':' :: ' ' ::
      (v.indentedAt (depth + 1) ++ indentedFields depth more))

def indentedItems (depth : Nat) : List Value → List Char
  | [] => newline depth ++ [']']
  | v :: more =>
    ',' :: (newline (depth + 1) ++ v.indentedAt (depth + 1) ++
      indentedItems depth more)

def indentedFields (depth : Nat) : List (String × Value) → List Char
  | [] => newline depth ++ ['\x7d']
  | (name, v) :: more =>
    ',' :: (newline (depth + 1) ++ quoted name ++ ':' :: ' ' ::
      (v.indentedAt (depth + 1) ++ indentedFields depth more))

end

def Value.toText (v : Value) : String := String.ofList v.compact

def Value.toIndentedText (v : Value) : String := String.ofList (v.indentedAt 0)

end LinkAnalysis.Json
