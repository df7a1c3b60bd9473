import LinkAnalysis.Score

/-!
# Brokers and ranks

A broker is a node whose betweenness is above a threshold.

Scores in descending order are ranked as in a competition: equal scores share a
rank, and the ranks that a shared one stands for are skipped.  A score is
compared with the one just before it, and counts as equal when the difference is
rounding noise.
-/

namespace LinkAnalysis

variable {α : Type} [Score α]

/-- The order of scored items: higher scores first; items whose scores do not
differ by number. -/
def rankedLe (x y : Nat × α) : Bool :=
  if y.2 < x.2 then true else if x.2 < y.2 then false else decide (x.1 ≤ y.1)

def ranked (scores : Array α) : List (Nat × α) :=
  (scores.toList.zipIdx.map fun (score, v) => (v, score)).mergeSort rankedLe

def brokers (scores : Array α) (threshold : α) : List (Nat × α) :=
  ((scores.toList.zipIdx.map fun (score, v) => (v, score)).filter
    fun p => decide (threshold < p.2)).mergeSort rankedLe

def rankWidth : α := Score.count 1 / Score.count (tenTo 12)

def opensRank (previous : Option α) (score : α) : Bool :=
  match previous with
  | none => true
  | some before => decide (rankWidth < Score.distance before score)

def ranksFrom : Nat → Option α → Nat → List α → List Nat
  | _, _, _, [] => []
  | position, previous, current, score :: more =>
    let rank := if opensRank previous score then position + 1 else current
    rank :: ranksFrom (position + 1) (some score) rank more

def competitionRanks (scores : List α) : List Nat := ranksFrom 0 none 0 scores

def rankedNodes (scores : Array α) : List ((Nat × α) × Nat) :=
  let order := ranked scores
  order.zip (competitionRanks (order.map Prod.snd))

end LinkAnalysis
