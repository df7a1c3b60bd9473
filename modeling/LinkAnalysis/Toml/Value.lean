import LinkAnalysis.Toml.Number
import LinkAnalysis.Toml.Table

/-!
# Values of TOML

Strings, numbers, moments and truth values stand alone; lists and inline tables
hold values, down to a limited depth.  A list may run over several lines, an
inline table may not.
-/

namespace LinkAnalysis.Toml

def scalar? : Parser Setting
  | '"' :: rest =>
    (string? ('"' :: rest)).map fun (_, behind) => (.other, behind)
  | '\'' :: rest =>
    (string? ('\'' :: rest)).map fun (_, behind) => (.other, behind)
  | 't' :: 'r' :: 'u' :: 'e' :: rest => some (.other, rest)
  | 'f' :: 'a' :: 'l' :: 's' :: 'e' :: rest => some (.other, rest)
  | text => numberOrMoment? text

/-- The items of a list from here on, and its end: `item` reads one of them, and
there are at most so many. -/
def listRest (item : Parser Setting) : Nat → Parser (List Setting)
  | 0, _ => none
  | items + 1, text =>
    match skipLines text.length text with
    | ']' :: rest => some ([], rest)
    | start =>
      match item start with
      | none => none
      | some (setting, rest) =>
        match skipLines rest.length rest with
        | ']' :: behind => some ([setting], behind)
        | ',' :: more =>
          match listRest item items more with
          | some (settings, behind) => some (setting :: settings, behind)
          | none => none
        | _ => none

def keyValue? (item : Parser Setting) :
    Parser (List String × Setting) := fun text =>
  match key? text with
  | some (key, '=' :: rest) =>
    match item (skipBlanks rest) with
    | some (setting, behind) => some ((key, setting), behind)
    | none => none
  | _ => none

def fieldsRest (item : Parser Setting) :
    Nat → Parser (List (List String × Setting))
  | 0, _ => none
  | fields + 1, text =>
    match keyValue? item text with
    | none => none
    | some (field, rest) =>
      match skipBlanks rest with
      | '\x7d' :: behind => some ([field], behind)
      | ',' :: more =>
        match fieldsRest item fields more with
        | some (others, behind) => some (field :: others, behind)
        | none => none
      | _ => none

def inlineTable? (item : Parser Setting) : Parser Setting := fun text =>
  match skipBlanks text with
  | '\x7d' :: rest => some (.table [], rest)
  | _ =>
    match fieldsRest item (text.length + 1) text with
    | none => none
    | some (fields, rest) =>
      match addValues fields [] with
      | some entries => some (.table (settings entries), rest)
      | none => none

def value? : Nat → Parser Setting
  | 0, text => scalar? text
  | depth + 1, text =>
    match text with
    | '[' :: rest =>
      match listRest (value? depth) (rest.length + 1) rest with
      | some (items, behind) => some (.list items, behind)
      | none => none
    | '\x7b' :: rest => inlineTable? (value? depth) rest
    | _ => scalar? text

end LinkAnalysis.Toml
