import LinkAnalysis.Decimal.Text
import LinkAnalysis.Text.Symbols

/-!
# Output modes and the layout of prose

Results are written as JSON or as prose.  Prose comes in two styles: plain rows
for other programs, and aligned columns with headings for readers.
-/

namespace LinkAnalysis.Command

inductive Mode where
  | pretty
  | text
  | json
  deriving DecidableEq, Repr

def Mode.ofName? (name : String) : Option Mode :=
  if name = "pretty" then some .pretty
  else if name = "text" then some .text
  else if name = "json" then some .json
  else none

/-- The mode of a run: what the options say, else what the environment says in
letters of either case, else what suits the reader, who may be at a terminal. -/
def Mode.resolve (format : Option Mode) (json : Bool)
    (environment : Option String) (terminal : Bool) : Mode :=
  let byReader := if terminal then Mode.pretty else Mode.text
  match format with
  | some mode => mode
  | none =>
    if json then .json
    else match environment with
      | some name =>
        (ofName? (String.ofList (Text.lowercase name))).getD byReader
      | none => byReader

def endLines (lines : List String) : String :=
  String.join (lines.map (· ++ "\n"))

def blanks (n : Nat) : String := String.ofList (List.replicate n ' ')

def leftCell (width : Nat) (s : String) : String :=
  s ++ blanks (width - s.length)

def rightCell (width : Nat) (s : String) : String :=
  blanks (width - s.length) ++ s

def rule : String := String.ofList (List.replicate 72 '-')

def heading (title : String) : List String := [title, rule]

def entry (name value : String) : String :=
  leftCell 16 (name ++ ":") ++ " " ++ value

def showScore (x : Float) : String := Decimal.fixed 4 x

end LinkAnalysis.Command
