import LinkAnalysis.Json.Record
import LinkAnalysis.Json.Value
import LinkAnalysis.Snapshot.Basic

/-!
# Snapshots in writing

The input contract: a record with the nodes and the edges, both required.  A
node needs its id, an edge its two ends; labels and categories may be left out.
The category may also be called the type.  The whole document is read before any
id is looked at.

The document that is written names every field, empty ones included, in the
order of declaration.
-/

namespace LinkAnalysis

open Json (Draft Member Misread Value readString readList)

def requiredString (name : String) : Member String :=
  ⟨name, none, none, readString⟩

def optionalString (name : String)
    (otherName : Option String) : Member String :=
  ⟨name, otherName, some "", readString⟩

def Node.fields : List (Member String) :=
  [requiredString "id", optionalString "label" none,
    optionalString "category" (some "type")]

def Node.ofValues : List String → Except Misread Node
  | [id, label, category] => .ok ⟨id, label, category⟩
  | _ => .error .malformed

def Node.ofDraft (d : Draft) : Except Misread Node :=
  (Member.readRecord Node.fields d).bind Node.ofValues

def Edge.fields : List (Member String) :=
  [requiredString "from", requiredString "to", optionalString "label" none,
    optionalString "category" (some "type")]

def Edge.ofValues : List String → Except Misread Edge
  | [source, target, label, category] => .ok ⟨source, target, label, category⟩
  | _ => .error .malformed

def Edge.ofDraft (d : Draft) : Except Misread Edge :=
  (Member.readRecord Edge.fields d).bind Edge.ofValues

namespace Snapshot

inductive Part where
  | nodes (nodes : List Node)
  | edges (edges : List Edge)

def fields : List (Member Part) :=
  [⟨"nodes", none, none, fun d => (readList Node.ofDraft d).map Part.nodes⟩,
    ⟨"edges", none, none, fun d => (readList Edge.ofDraft d).map Part.edges⟩]

def listsOfParts : List Part → Except Misread (List Node × List Edge)
  | [.nodes nodes, .edges edges] => .ok (nodes, edges)
  | _ => .error .malformed

def listsOfDraft (d : Draft) : Except Misread (List Node × List Edge) :=
  (Member.readRecord fields d).bind listsOfParts

def listsOfSymbols (text : List Text.Symbol) :
    Except Misread (List Node × List Edge) :=
  let reading := Json.read text
  match listsOfDraft reading.draft with
  | .ok lists => if reading.whole then .ok lists else .error .malformed
  | .error e => .error e

def ofReadLists : Except Misread (List Node × List Edge) → Except Fault Snapshot
  | .ok (nodes, edges) => ofLists nodes edges
  | .error reason => .error (.invalidSnapshot reason.text)

def ofDraft (d : Draft) : Except Fault Snapshot := ofReadLists (listsOfDraft d)

def ofSymbols (text : List Text.Symbol) : Except Fault Snapshot :=
  ofReadLists (listsOfSymbols text)

def ofText (text : String) : Except Fault Snapshot :=
  ofSymbols (Text.symbolsOfString text)

def ofBytes (bytes : ByteArray) : Except Fault Snapshot :=
  ofSymbols (Text.symbolsOfBytes bytes)

end Snapshot

def Node.toValue (n : Node) : Value :=
  .record [("id", .text n.id), ("label", .text n.label),
    ("category", .text n.category)]

def Edge.toValue (e : Edge) : Value :=
  .record [("from", .text e.source), ("to", .text e.target),
    ("label", .text e.label), ("category", .text e.category)]

def Snapshot.toValue (s : Snapshot) : Value :=
  .record [("nodes", .list (s.nodes.map Node.toValue)),
    ("edges", .list (s.edges.map Edge.toValue))]

def Snapshot.toText (s : Snapshot) : String := s.toValue.toText

end LinkAnalysis
