import LinkAnalysis.Json.Draft

/-!
# Records with known fields

A record is written with named fields in any order, or as a list of its values
in the order of their declaration.  Fields with other names are skipped; a field
that may be left out has a value for that case.  The first thing that is wrong,
reading from left to right, is the reason of a refusal; that a field is missing
shows at the end of its record.
-/

namespace LinkAnalysis.Json

inductive Misread where
  | missing (field : String)
  | duplicate (field : String)
  | malformed
  deriving DecidableEq, Repr

/-- What is reported of a document that cannot be read.  The JSON parser adds
the line and the column to this, and has words of its own for a malformed
document; these are the parser's and are left out here, so that a placeholder
stands for the words on a malformed document. -/
def Misread.text : Misread → String
  | missing field => "missing field `" ++ field ++ "`"
  | duplicate field => "duplicate field `" ++ field ++ "`"
  | malformed => "<parse error>"

structure Member (β : Type) where
  name : String
  otherName : Option String
  /-- Its value where it is left out; a required field has none. -/
  absent : Option β
  read : Draft → Except Misread β

namespace Member

variable {β : Type}

def answersTo (field : Member β) (label : String) : Bool :=
  label == field.name || some label == field.otherName

def settle : List (Member β) → List (Option β) → Except Misread (List β)
  | field :: fields, slot :: slots =>
    match slot.or field.absent with
    | some value => (settle fields slots).map (value :: ·)
    | none => .error (.missing field.name)
  | _, _ => .ok []

def ofNamed (fields : List (Member β)) (closed : Bool) :
    List (Option String × Draft) → List (Option β) → Except Misread (List β)
  | [], slots => if closed then settle fields slots else .error .malformed
  | (none, _) :: _, _ => .error .malformed
  | (some label, value) :: more, slots =>
    match fields.findIdx? (·.answersTo label) with
    | none => ofNamed fields closed more slots
    | some i =>
      match fields[i]?, slots[i]? with
      | some field, some none =>
        match field.read value with
        | .ok b => ofNamed fields closed more (slots.set i (some b))
        | .error e => .error e
      | some field, _ => .error (.duplicate field.name)
      | none, _ => .error .malformed

def ofListed (closed : Bool) :
    List (Member β) → List Draft → Except Misread (List β)
  | [], items => if closed && items.isEmpty then .ok [] else .error .malformed
  | field :: fields, [] =>
    match closed, field.absent with
    | true, some b => (ofListed closed fields []).map (b :: ·)
    | _, _ => .error .malformed
  | field :: fields, item :: items =>
    match field.read item with
    | .ok b => (ofListed closed fields items).map (b :: ·)
    | .error e => .error e

def readRecord (fields : List (Member β)) : Draft → Except Misread (List β)
  | .record entries closed =>
    ofNamed fields closed entries (fields.map fun _ => none)
  | .list items closed => ofListed closed fields items
  | _ => .error .malformed

end Member

def readString : Draft → Except Misread String
  | .text (some content) => .ok content
  | _ => .error .malformed

def readList {β : Type} (item : Draft → Except Misread β) :
    Draft → Except Misread (List β)
  | .list items closed =>
    match items.mapM item with
    | .ok values => if closed then .ok values else .error .malformed
    | .error e => .error e
  | _ => .error .malformed

end LinkAnalysis.Json
