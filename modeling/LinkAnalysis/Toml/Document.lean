import LinkAnalysis.Toml.Value

/-!
# Documents of TOML

A document is a row of lines: blank ones, values under their keys, and headers
that open a table or the next table of a list.  The values behind a header
belong to its table.
-/

namespace LinkAnalysis.Toml

inductive Statement where
  | value (key : List String) (setting : Setting)
  | table (key : List String)
  | element (key : List String)

def header? : Parser Statement
  | '[' :: rest =>
    match key? rest with
    | some (key, ']' :: ']' :: behind) => some (.element key, behind)
    | _ => none
  | text =>
    match key? text with
    | some (key, ']' :: behind) => some (.table key, behind)
    | _ => none

def statement? : Parser Statement
  | '[' :: rest => header? rest
  | text =>
    match keyValue? (value? (depthLimit - 1)) text with
    | some ((key, setting), behind) => some (.value key setting, behind)
    | none => none

def statements : Nat → List Char → Option (List Statement)
  | 0, _ => none
  | lines + 1, text =>
    match skipLines (text.length + 1) text with
    | [] => some []
    | '#' :: rest =>
      if (rest.dropWhile isPrintable).isEmpty then some [] else none
    | start =>
      match statement? start with
      | none => none
      | some (statement, rest) =>
        match lineEnd? rest with
        | some more => (statements lines more).map (statement :: ·)
        | none => none

/-- The values at the front of a row of statements, and the statements from the
next header on. -/
def leadingValues :
    List Statement → List (List String × Setting) × List Statement
  | .value key setting :: more =>
    let (values, rest) := leadingValues more
    ((key, setting) :: values, rest)
  | rest => ([], rest)

/-- Build the tables of the headers among the statements; values without a
header come before. -/
def build : List Statement → Entries → Option Entries
  | [], entries => some entries
  | .value _ _ :: more, entries => build more entries
  | .table key :: more, entries =>
    (addTable key (leadingValues more).1 entries).bind (build more)
  | .element key :: more, entries =>
    (addElement key (leadingValues more).1 entries).bind (build more)

def ofText? (text : String) : Option Setting :=
  let characters := match text.toList with
    | '\uFEFF' :: rest => rest
    | all => all
  match statements (characters.length + 1) characters with
  | none => none
  | some all =>
    ((addValues (leadingValues all).1 []).bind (build all)).map fun entries =>
      .table (settings entries)

end LinkAnalysis.Toml
