import LinkAnalysis.Network.Basic
import LinkAnalysis.Text.Symbols

/-!
# Flows

A relationship carries information, money, influence or evidence, as its label
tells: it belongs to the first kind with a keyword that occurs in the lower case
of the label, and is unclassified where no keyword occurs.
-/

namespace LinkAnalysis

inductive FlowKind where
  | information
  | money
  | influence
  | evidence
  | unclassified
  deriving DecidableEq, Repr

namespace FlowKind

def all : List FlowKind :=
  [information, money, influence, evidence, unclassified]

def name : FlowKind → String
  | information => "information"
  | money => "money"
  | influence => "influence"
  | evidence => "evidence"
  | unclassified => "unclassified"

def keywords : FlowKind → List String
  | information =>
    ["téléphone", "message", "email", "dit", "informe", "communique",
      "rencontre", "appel", "phone", "call", "told", "inform", "meet"]
  | money =>
    ["paie", "donne", "transfert", "transaction", "argent", "virement",
      "achète", "vend", "pay", "transfer", "money", "wire", "buy", "sell"]
  | influence =>
    ["ordonne", "contrôle", "dirige", "emploie", "supervise", "menace",
      "influence", "order", "control", "direct", "employ", "threat"]
  | evidence =>
    ["possède", "détient", "trouvé", "vu", "témoin", "preuve", "indice", "own",
      "hold", "found", "saw", "witness", "evidence", "clue"]
  | unclassified => []

end FlowKind

def occursIn (word : List Char) : List Char → Bool
  | [] => word.isEmpty
  | c :: rest => word.isPrefixOf (c :: rest) || occursIn word rest

def FlowKind.ofLabel (label : String) : FlowKind :=
  let lowered := Text.lowercase label
  (all.find? fun kind => kind.keywords.any fun w =>
    occursIn w.toList lowered).getD unclassified

def Network.joins (net : Network) (e : Edge) : Bool :=
  e.source != e.target && (net.indexOf? e.source).isSome &&
    (net.indexOf? e.target).isSome

def classifyFlows (s : Snapshot) (net : Network) :
    List (FlowKind × List Edge) :=
  let kinds :=
    (s.edges.filter net.joins).map fun e => (FlowKind.ofLabel e.label, e)
  FlowKind.all.map fun kind => (kind, (kinds.filter (·.1 == kind)).map Prod.snd)

end LinkAnalysis
