import LinkAnalysis.Json.Token

/-!
# JSON drafts

A draft is what a JSON text says from its start up to the point where it stops
being JSON.  A text that is JSON throughout gives a draft in which every
container is closed; in any other draft the containers around the breaking point
are left open.  Whoever reads a draft from left to right meets the first thing
that is wrong with the text, be it a matter of grammar or of meaning.
-/

namespace LinkAnalysis.Json

open Text (Symbol)

inductive Draft where
  | null
  | flag (value : Bool)
  | number (numeral : String)
  | text (content : Option String)
  /-- The items of a list, all of them where it is closed. -/
  | list (items : List Draft) (closed : Bool)
  /-- The fields of a record in the order of the text, all of them where it is
  closed. -/
  | record (fields : List (Option String × Draft)) (closed : Bool)
  | broken

/-- A container that is being read around the present point; what is complete
comes latest first. -/
inductive Frame where
  | list (before : List Draft)
  | record (before : List (Option String × Draft)) (name : Option String)

namespace Frame

def leaveOpen (value : Draft) : Frame → Draft
  | list before => .list (value :: before).reverse false
  | record before name => .record ((name, value) :: before).reverse false

end Frame

/-- What a reader of tokens waits for, with the containers around it, innermost
first. -/
inductive Stage where
  | value (around : List Frame)
  | listStart (around : List Frame)
  | recordStart (around : List Frame)
  | name (before : List (Option String × Draft)) (around : List Frame)
  | colon (before : List (Option String × Draft)) (name : Option String)
      (around : List Frame)
  | after (value : Draft) (around : List Frame)
  | stuck (draft : Draft)

namespace Stage

def abandon : Stage → Draft
  | value around => around.foldl Frame.leaveOpen .broken
  | listStart around => around.foldl Frame.leaveOpen (.list [] false)
  | recordStart around => around.foldl Frame.leaveOpen (.record [] false)
  | name before around =>
    around.foldl Frame.leaveOpen (.record before.reverse false)
  | colon before label around =>
    around.foldl Frame.leaveOpen
      (.record ((label, .broken) :: before).reverse false)
  | after v around => around.foldl Frame.leaveOpen v
  | stuck draft => draft

def startValue (around : List Frame) (otherwise : Stage) : Token → Stage
  | .null => after .null around
  | .flag b => after (.flag b) around
  | .number numeral => after (.number numeral) around
  | .text content => after (.text content) around
  | .openList => listStart around
  | .openRecord => recordStart around
  | _ => stuck otherwise.abandon

def step (stage : Stage) (token : Token) : Stage :=
  match stage with
  | value around => startValue around stage token
  | listStart around =>
    match token with
    | .closeList => after (.list [] true) around
    | _ => startValue (.list [] :: around) stage token
  | recordStart around =>
    match token with
    | .closeRecord => after (.record [] true) around
    | .text content => colon [] content around
    | _ => stuck stage.abandon
  | name before around =>
    match token with
    | .text content => colon before content around
    | _ => stuck stage.abandon
  | colon before label around =>
    match token with
    | .colon => value (.record before label :: around)
    | _ => stuck stage.abandon
  | after v [] => stuck v
  | after v (.list before :: around) =>
    match token with
    | .comma => value (.list (v :: before) :: around)
    | .closeList => after (.list (v :: before).reverse true) around
    | _ => stuck stage.abandon
  | after v (.record before label :: around) =>
    match token with
    | .comma => name ((label, v) :: before) around
    | .closeRecord => after (.record ((label, v) :: before).reverse true) around
    | _ => stuck stage.abandon
  | stuck draft => stuck draft

end Stage

structure Reading where
  draft : Draft
  /-- Whether the text is JSON throughout, with nothing behind its value. -/
  whole : Bool

def Stage.finish : Stage → Reading
  | .after v [] => ⟨v, true⟩
  | stage => ⟨stage.abandon, false⟩

def read (text : List Symbol) : Reading :=
  ((tokens text).foldl Stage.step (.value [])).finish

end LinkAnalysis.Json
