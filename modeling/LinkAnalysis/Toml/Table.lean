import LinkAnalysis.Config.Setting

/-!
# Tables of TOML

A document builds its tables step by step: a header opens a table, a dotted key
reaches into tables below the open one.  A table remembers how it came to be,
since that decides who may add to it: a table with a header of its own is not
opened again and not reached by dotted keys; a table that a longer header
implied may still get its own header; a table made by dotted keys takes further
dotted keys only.
-/

namespace LinkAnalysis.Toml

/-- How a table came to be. -/
inductive Origin where
  | header
  | implied
  | dotted
  deriving DecidableEq, Repr

/-- What a name stands for while the document is being built. -/
inductive Entry where
  | value (setting : Setting)
  | table (origin : Origin) (entries : List (String × Entry))
  | tables (elements : List (List (String × Entry)))

abbrev Entries := List (String × Entry)

def put (name : String) (entry : Entry) : Entries → Entries
  | [] => [(name, entry)]
  | (other, old) :: more =>
    if other = name then (name, entry) :: more
    else (other, old) :: put name entry more

/-- Change the table at the end of a path, making tables of this origin on the
way.  The last table of a list stands for the list.  Dotted keys do not pass
through a table with a header. -/
def alter (made : Origin) (change : Origin → Entries → Option Entries) :
    List String → Origin → Entries → Option Entries
  | [], origin, entries => change origin entries
  | name :: path, _, entries =>
    match entries.lookup name with
    | none =>
      (alter made change path made []).map fun sub =>
        put name (.table made sub) entries
    | some (.value _) => none
    | some (.tables elements) =>
      match elements.getLast? with
      | none => none
      | some last =>
        (alter made change path .header last).map fun sub =>
          put name (.tables (elements.dropLast ++ [sub])) entries
    | some (.table origin old) =>
      if made = .dotted ∧ origin = .header then none
      else
        (alter made change path origin old).map fun sub =>
          put name (.table origin sub) entries

/-- Add a value under a key.  A key with several parts must end in a table that
dotted keys made. -/
def addValue (key : List String) (setting : Setting)
    (entries : Entries) : Option Entries :=
  match key.getLast? with
  | none => none
  | some name =>
    let path := key.dropLast
    alter .dotted (fun origin table =>
      if !path.isEmpty && origin != .dotted then none
      else if (table.lookup name).isSome then none
      else some (put name (.value setting) table)) path .header entries

def addValues : List (List String × Setting) → Entries → Option Entries
  | [], entries => some entries
  | (key, setting) :: more, entries =>
    (addValue key setting entries).bind (addValues more)

def addTable (key : List String) (values : List (List String × Setting))
    (entries : Entries) : Option Entries :=
  match key.getLast? with
  | none => none
  | some name =>
    alter .implied (fun _ parent =>
      let opened := match parent.lookup name with
        | none => some []
        | some (.table .implied old) => some old
        | some _ => none
      (opened.bind (addValues values)).map fun table =>
        put name (.table .header table) parent)
      key.dropLast .header entries

def addElement (key : List String) (values : List (List String × Setting))
    (entries : Entries) : Option Entries :=
  match key.getLast? with
  | none => none
  | some name =>
    alter .implied (fun _ parent =>
      let elements := match parent.lookup name with
        | none => some []
        | some (.tables old) => some old
        | some _ => none
      elements.bind fun old =>
        (addValues values []).map fun table =>
          put name (.tables (old ++ [table])) parent)
      key.dropLast .header entries

mutual

def Entry.toSetting : Entry → Setting
  | .value setting => setting
  | .table _ entries => .table (settings entries)
  | .tables elements => .list (elementSettings elements)

def settings : List (String × Entry) → List (String × Setting)
  | [] => []
  | (name, entry) :: more => (name, entry.toSetting) :: settings more

def elementSettings : List (List (String × Entry)) → List Setting
  | [] => []
  | entries :: more => .table (settings entries) :: elementSettings more

end

end LinkAnalysis.Toml
