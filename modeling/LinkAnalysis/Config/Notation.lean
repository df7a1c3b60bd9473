import LinkAnalysis.Config.Writing
import LinkAnalysis.Decimal.Reading
import LinkAnalysis.Json.Draft

/-!
# Configurations in JSON

Beside files, a configuration may be given as a JSON value.  A number is whole
if it is written with digits alone and fits a word, with its sign; zero with a
minus sign is a decimal.  A list holds no more values than its section has
fields.
-/

namespace LinkAnalysis

open Json (Draft)

namespace Setting

def ofNumeral (numeral : String) : Setting :=
  let whole (digits : List Char) (limit : Nat) : Option Nat :=
    if digits.all Char.isDigit then
      let n := Decimal.ofDigits digits
      if n ≤ limit then some n else none
    else none
  let decimal := Setting.decimal ((Decimal.score? numeral).getD (0.0 / 0.0))
  match numeral.toList with
  | '-' :: digits =>
    match whole digits (twoTo 63) with
    | some (n + 1) => .integer (-(n + 1 : Nat))
    | _ => decimal
  | digits =>
    match whole digits (wordSize - 1) with
    | some n => .integer n
    | none => decimal

mutual

def ofDraft : Draft → Setting
  | .number numeral => ofNumeral numeral
  | .list items _ => .list (ofDrafts items)
  | .record fields _ => .table (ofFields fields)
  | _ => .other

def ofDrafts : List Draft → List Setting
  | [] => []
  | d :: more => ofDraft d :: ofDrafts more

def ofFields : List (Option String × Draft) → List (String × Setting)
  | [] => []
  | (name, d) :: more => (name.getD "", ofDraft d) :: ofFields more

end

end Setting

def Config.ofDraft? (d : Draft) : Option (Config Float) :=
  Config.ofSetting? true (Setting.ofDraft d)

def CommunityConfig.ofDraft? (d : Draft) : Option CommunityConfig :=
  CommunityConfig.ofSetting? true (Setting.ofDraft d)

end LinkAnalysis
