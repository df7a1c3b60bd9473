import LinkAnalysis.Centrality.Betweenness
import LinkAnalysis.Centrality.Composite
import LinkAnalysis.Network.Statistics
import LinkAnalysis.Proofs.Network.LinkGraph
import LinkAnalysis.Proofs.Score.Counts
import LinkAnalysis.Proofs.Strict.Betweenness

/-!
# Wordwise programs

Counts are words of 64 bits.  A wordwise program gets stuck where a sum or a
product of counts does not fit a word, where a difference of counts would be
negative, and where a score is divided by one that is not positive.  The metrics
do none of this on a graph whose nodes are numbered in 32 bits: its pairs of
nodes fit a word, and no distance is as large as the number of nodes.
-/

namespace LinkAnalysis

namespace Wordwise

def word (n : Nat) : Strict Nat := do
  Strict.require (n < wordSize)
  return n

def plus (a b : Nat) : Strict Nat := word (a + b)

def times (a b : Nat) : Strict Nat := word (a * b)

def minus (a b : Nat) : Strict Nat := do
  Strict.require (b ≤ a)
  return a - b

variable {α : Type} [Score α]

def divide (x y : α) : Strict α := do
  Strict.require (Score.zero < y)
  return x / y

/-! ## Programs -/

def halfProduct (a b : Nat) : Strict α := do
  let product ← times a b
  divide (Score.count product) (Score.count 2)

def density (n m : Nat) : Strict α :=
  if n < 2 then return Score.zero
  else do
    let others ← minus n 1
    let pairs ← halfProduct n others
    let links ← word m
    divide (Score.count links) pairs

def averageDegree (n m : Nat) : Strict α :=
  if n = 0 then return Score.zero
  else do
    let ends ← times 2 m
    divide (Score.count ends) (Score.count n)

def statistics (net : Network) : Strict (Statistics α) := do
  let density ← density net.size net.linkCount
  let averageDegree ← averageDegree net.size net.linkCount
  return { (net.statistics : Statistics α) with
    density := density
    averageDegree := averageDegree }

def summary (net : Network) (members : List Nat) : Strict (GroupSummary α) := do
  let density ← density members.length (net.linksWithin members).length
  return { (net.summary members : GroupSummary α) with density := density }

def handOn (g : Geodesics α) (w : Nat) (t : Tally α)
    (step : Nat × Nat) : Strict (Tally α) :=
  let total := g.countOf w
  if Score.zero < total then do
    let part ← divide (g.countOf step.1) total
    let share := part * (Score.one + t.dependencyOf w)
    return { t with
      link := t.link.modify step.2 (· + share)
      dependency := t.dependency.modify step.1 (· + share) }
  else return t

def settle (g : Geodesics α) (w : Nat) (t : Tally α) : Strict (Tally α) := do
  let t ← (g.predecessorsOf w).foldlM (handOn g w) t
  if w = g.source then return t
  else return { t with node := t.node.modify w (· + t.dependencyOf w) }

def addSource (adj : Adjacency) (t : Tally α)
    (source : Nat) : Strict (Tally α) :=
  let g : Geodesics α := Geodesics.ofSource adj source
  g.order.toList.reverse.foldlM (fun t w => settle g w t) (t.reset g)

def accumulate (signal : Signal) (adj : Adjacency) (m : Nat) :
    Strict (Betweenness α) := do
  let t ← adj.nodes.foldlM (fun t source => do
    Strict.poll signal
    addSource adj t source) (Tally.blank adj.size m)
  return ⟨t.node, t.link⟩

def normalize (scores : Array α) : Strict (Array α) :=
  if scores.size ≤ 2 then return scores.map fun _ => Score.zero
  else do
    let others ← minus scores.size 1
    let more ← minus scores.size 2
    let pairs ← halfProduct others more
    scores.mapM fun s => do
      let half ← divide s (Score.count 2)
      let share ← divide half pairs
      return Score.clampUnit share

def betweenness (signal : Signal) (adj : Adjacency) (m : Nat) :
    Strict (Betweenness α) := do
  let b ← accumulate signal adj m
  let node ← normalize b.node
  return { b with node := node }

def addDistance (g : Geodesics α) (found : Nat × Nat)
    (w : Nat) : Strict (Nat × Nat) :=
  match g.distanceTo w with
  | some (d + 1) => do
    let reach ← plus found.1 1
    let total ← plus found.2 (d + 1)
    return (reach, total)
  | _ => return found

def reachAndTotal (g : Geodesics α) : Strict (Nat × Nat) :=
  g.order.toList.foldlM (addDistance g) (0, 0)

def rawCloseness (adj : Adjacency) (v : Nat) : Strict α := do
  let g : Geodesics α := Geodesics.ofSource adj v
  let (reach, total) ← reachAndTotal g
  if total = 0 then return Score.zero
  else divide (Score.count reach) (Score.count total)

def scaleByMax (values : Array α) : Strict (Array α) :=
  let most := values.foldl Score.larger Score.zero
  if most ≤ Score.zero then return values
  else if Score.isFinite most then values.mapM fun x => divide x most
  else return values

def closeness (signal : Signal) (adj : Adjacency) : Strict (Array α) := do
  let raw ← adj.nodes.mapM fun v => do
    Strict.poll signal
    rawCloseness adj v
  scaleByMax raw.toArray

def normalizeDegrees (degrees : Array Nat) : Strict (Array α) :=
  let most := degrees.foldl max 0
  degrees.mapM fun d =>
    if most = 0 then return Score.zero
    else divide (Score.count d) (Score.count most)

def centrality (signal : Signal) (adj : Adjacency) (betweenness : Array α)
    (w : Weights α) : Strict (Centrality α) := do
  let degree := (adj.nodes.map adj.degree).toArray
  let degreeNormalized ← normalizeDegrees degree
  let close ← closeness signal adj
  let composite := adj.nodes.map fun v =>
    weigh w (degreeNormalized.getD v Score.zero) (close.getD v Score.zero)
      (betweenness.getD v Score.zero)
  return ⟨degree, degreeNormalized, close, betweenness, composite.toArray⟩

/-! ## Single operations -/

theorem word_of_lt {n : Nat} (hlt : n < wordSize) : word n = .ok n := by
  rw [word, Strict.require_of hlt]
  rfl

theorem minus_of_le {a b : Nat} (hle : b ≤ a) : minus a b = .ok (a - b) := by
  rw [minus, Strict.require_of hle]
  rfl

theorem divide_of_pos
    {y : α}
    (hpos : Score.zero < y)
    (x : α) :
    divide x y = .ok (x / y) := by
  rw [divide, Strict.require_of hpos]
  rfl

/-! ## Accumulation -/

/-- Shares are divided only by positive counts. -/
theorem handOn_eq
    (g : Geodesics α) (w : Nat) (t : Tally α) (step : Nat × Nat) :
    handOn g w t step = .ok (t.handOn g w step) := by
  unfold handOn Tally.handOn
  by_cases hpositive : Score.zero < g.countOf w
  · rw [if_pos hpositive, if_pos hpositive, divide_of_pos hpositive]
    rfl
  · rw [if_neg hpositive, if_neg hpositive]
    rfl

theorem settle_eq
    (g : Geodesics α) (w : Nat) (t : Tally α) :
    settle g w t = .ok (t.settle g w) := by
  unfold settle Tally.settle
  rw [Strict.foldlM_eq_ok_of_forall fun t step _ => handOn_eq g w t step,
    Strict.ok_bind]
  by_cases hsource : w = g.source
  · rw [if_pos hsource, if_pos hsource]
    rfl
  · rw [if_neg hsource, if_neg hsource]
    rfl

theorem addSource_eq
    (adj : Adjacency) (t : Tally α) (source : Nat) :
    addSource adj t source = .ok (t.addSource adj source) := by
  rw [addSource, Tally.addSource, ← Array.foldr_toList, ← List.foldl_reverse]
  exact Strict.foldlM_eq_ok_of_forall (fun t w _ => settle_eq _ w t) _

theorem accumulate_eq
    (signal : Signal) (adj : Adjacency) (m : Nat) :
    (accumulate signal adj m : Strict (Betweenness α)) =
      Strict.lift (LinkAnalysis.accumulate signal adj m) := by
  have hpolled : ∀ t : Tally α, ∀ source ∈ adj.nodes,
      (do Strict.poll signal; addSource adj t source) =
        Strict.lift (do signal.check; return t.addSource adj source) :=
    fun t source _ => Strict.poll_bind_ok signal (addSource_eq adj t source)
  exact Strict.bind_eq_lift
    (Strict.foldlM_eq_lift_of_forall hpolled _) fun _ _ => rfl

/-! ## Reach and total -/

section Reach

variable {β : Type} {g : Geodesics β} {bound : Nat}

/-- One more node, with its distance, unless it is the source. -/
def addedDistance (g : Geodesics β) (found : Nat × Nat) (w : Nat) : Nat × Nat :=
  match g.distanceTo w with
  | some (d + 1) => (found.1 + 1, found.2 + (d + 1))
  | _ => found

theorem addDistance_eq
    {w : Nat}
    (hdist : ∀ d, g.distanceTo w = some d → d ≤ bound)
    (found : Nat × Nat)
    (hreach : found.1 + 1 < wordSize)
    (htotal : found.2 + bound < wordSize) :
    addDistance g found w = .ok (addedDistance g found w) ∧
      (addedDistance g found w).1 ≤ found.1 + 1 ∧
      (addedDistance g found w).2 ≤ found.2 + bound := by
  unfold addDistance addedDistance
  split
  case h_1 d hd =>
    have hle := hdist _ hd
    rw [plus, word_of_lt hreach, Strict.ok_bind, plus, word_of_lt (by omega)]
    exact ⟨rfl, le_rfl, by omega⟩
  case h_2 => exact ⟨rfl, by omega, by omega⟩

theorem foldlM_addDistance_eq
    {l : List Nat}
    (hdist : ∀ w ∈ l, ∀ d, g.distanceTo w = some d → d ≤ bound)
    {found : Nat × Nat}
    (hreach : found.1 + l.length < wordSize)
    (htotal : found.2 + l.length * bound < wordSize) :
    l.foldlM (addDistance g) found = .ok (l.foldl (addedDistance g) found) ∧
      (l.foldl (addedDistance g) found).2 < wordSize := by
  induction l generalizing found with
  | nil => exact ⟨rfl, by simpa using htotal⟩
  | cons w l ih =>
      rw [List.length_cons] at hreach htotal
      rw [Nat.add_mul, Nat.one_mul] at htotal
      rcases addDistance_eq (hdist w List.mem_cons_self) found (by omega)
        (by omega) with ⟨heq, hreach', htotal'⟩
      rw [List.foldlM_cons, heq, Strict.ok_bind, List.foldl_cons]
      exact ih (fun v hv => hdist v (List.mem_cons_of_mem _ hv))
        (by omega) (by omega)

/-- So many nodes are counted at most, each at this distance at most. -/
theorem reachAndTotal_eq
    (hdist : ∀ w ∈ g.order, ∀ d, g.distanceTo w = some d → d ≤ bound)
    (hreach : g.order.size < wordSize)
    (htotal : g.order.size * bound < wordSize) :
    reachAndTotal g = .ok g.reachAndTotal ∧ g.reachAndTotal.2 < wordSize := by
  have hfold :
      g.reachAndTotal = g.order.toList.foldl (addedDistance g) (0, 0) := by
    rw [Geodesics.reachAndTotal, ← Array.foldl_toList]
    rfl
  rw [hfold]
  apply foldlM_addDistance_eq fun w hw => hdist w (Array.mem_toList_iff.mp hw)
  · rwa [Nat.zero_add, Array.length_toList]
  · rwa [Nat.zero_add, Array.length_toList]

end Reach

variable [Score.CountsPositive α]

theorem zero_lt_two : Score.zero < (Score.count 2 : α) :=
  Score.CountsPositive.zero_lt_count (by decide) (by decide)

/-- The product is not reduced, and its half is positive. -/
theorem halfProduct_eq
    {a b : Nat}
    (hpos : 0 < a * b)
    (hword : a * b < wordSize) :
    (halfProduct a b : Strict α) = .ok (Score.halfProduct a b) ∧
      Score.zero < (Score.halfProduct a b : α) := by
  rw [halfProduct, times, word_of_lt hword, Strict.ok_bind,
    divide_of_pos zero_lt_two, Score.halfProduct, Nat.mod_eq_of_lt hword]
  exact ⟨rfl, Score.CountsPositive.zero_lt_half hpos hword⟩

/-! ## Densities and degrees -/

theorem density_eq
    {n m : Nat}
    (hn : n < 2 ^ 32)
    (hm : m < wordSize) :
    (density n m : Strict α) = .ok (LinkAnalysis.density n m) := by
  unfold density LinkAnalysis.density
  by_cases hfew : n < 2
  · rw [if_pos hfew, if_pos hfew]
    rfl
  · have hpos : 0 < n * (n - 1) := Nat.mul_pos (by omega) (by omega)
    have hword : n * (n - 1) < wordSize := mul_lt_wordSize hn (by omega)
    rcases halfProduct_eq (α := α) hpos hword with ⟨heq, hpositive⟩
    rw [if_neg hfew, if_neg hfew, minus_of_le (by omega), Strict.ok_bind, heq,
      Strict.ok_bind, word_of_lt hm, Strict.ok_bind, divide_of_pos hpositive]

/-- The pairs of more nodes would not fit a word. -/
example : (density (2 ^ 32 + 1) 0 : Strict ℚ) = .error .stuck := by
  decide +kernel

theorem averageDegree_eq
    {n m : Nat}
    (hn : n < wordSize)
    (hm : 2 * m < wordSize) :
    (averageDegree n m : Strict α) = .ok (LinkAnalysis.averageDegree n m) := by
  unfold averageDegree LinkAnalysis.averageDegree
  by_cases hnone : n = 0
  · rw [if_pos hnone, if_pos hnone]
    rfl
  · have hpositive : Score.zero < (Score.count n : α) :=
      Score.CountsPositive.zero_lt_count (Nat.pos_of_ne_zero hnone) hn
    rw [if_neg hnone, if_neg hnone, times, word_of_lt hm, Strict.ok_bind,
      divide_of_pos hpositive]

theorem normalizeDegrees_eq
    {degrees : Array Nat}
    (hwords : ∀ d ∈ degrees, d < wordSize) :
    (normalizeDegrees degrees : Strict (Array α)) =
      .ok (LinkAnalysis.normalizeDegrees degrees) := by
  have hmost : degrees.foldl max 0 < wordSize := by
    rw [← Array.foldl_toList]
    rcases List.mem_cons.mp (isGreatest_foldl_max 0 degrees.toList).1
      with hzero | hmem
    · rw [hzero]
      decide
    · exact hwords _ (Array.mem_toList_iff.mp hmem)
  unfold normalizeDegrees LinkAnalysis.normalizeDegrees
  apply Strict.mapM_array_eq_ok
  intro d _
  by_cases hzero : degrees.foldl max 0 = 0
  · rw [if_pos hzero, if_pos hzero]
    rfl
  · rw [if_neg hzero, if_neg hzero]
    exact divide_of_pos
      (Score.CountsPositive.zero_lt_count (Nat.pos_of_ne_zero hzero) hmost) _

/-! ## Betweenness -/

theorem normalize_eq {scores : Array α} (hlt : scores.size < 2 ^ 32) :
    normalize scores = .ok (LinkAnalysis.normalize scores) := by
  unfold normalize LinkAnalysis.normalize
  by_cases hfew : scores.size ≤ 2
  · rw [if_pos hfew]
    simp only [if_pos hfew]
    rfl
  · have hpos : 0 < (scores.size - 1) * (scores.size - 2) :=
      Nat.mul_pos (by omega) (by omega)
    have hword : (scores.size - 1) * (scores.size - 2) < wordSize :=
      mul_lt_wordSize (by omega) (by omega)
    rcases halfProduct_eq (α := α) hpos hword with ⟨heq, hpositive⟩
    rw [if_neg hfew, minus_of_le (by omega), Strict.ok_bind,
      minus_of_le (by omega), Strict.ok_bind, heq, Strict.ok_bind]
    simp only [if_neg hfew]
    apply Strict.mapM_array_eq_ok
    intro s _
    rw [divide_of_pos zero_lt_two, Strict.ok_bind, divide_of_pos hpositive]
    rfl

theorem betweenness_eq
    (signal : Signal) {adj : Adjacency} {m : Nat}
    (hadj : adj.Bounded m)
    (hlt : adj.size < 2 ^ 32) :
    (betweenness signal adj m : Strict (Betweenness α)) =
      Strict.lift (LinkAnalysis.betweenness signal adj m) := by
  apply Strict.bind_eq_lift (accumulate_eq signal adj m)
  intro b hb
  have hsize : b.node.size = adj.size :=
    ((Strict.accumulate_eq signal hadj).2 b hb).1
  rw [normalize_eq (hsize.trans_lt hlt)]
  rfl

/-! ## Closeness -/

section Closeness

variable {n : Nat} {ends : Array (Nat × Nat)} {active : List Nat}

theorem rawCloseness_eq
    (hrange : Adjacency.InRange n ends active)
    (hn : n < 2 ^ 32)
    {v : Nat}
    (hv : v < n) :
    (rawCloseness (Adjacency.ofEnds n ends active) v : Strict α) =
      .ok (LinkAnalysis.rawCloseness (Adjacency.ofEnds n ends active) v) := by
  have hsource : v < (Adjacency.ofEnds n ends active).size := by simpa using hv
  rcases Geodesics.explored_ofSource (α := α) hrange.closed hsource with ⟨d, hd⟩
  have hsize : (Geodesics.ofSource (Adjacency.ofEnds n ends active) v :
          Geodesics α).order.size ≤ n := by
    simpa using hd.size_order_le
  have hword : n < wordSize := hn.trans (by decide)
  rcases reachAndTotal_eq (fun w _ d hw =>
    (distanceTo_lt (α := α) hrange hv hw).le) (hsize.trans_lt hword)
    (mul_lt_wordSize (hsize.trans_lt hn) hn) with ⟨heq, htotal⟩
  dsimp only [rawCloseness, LinkAnalysis.rawCloseness]
  rw [heq, Strict.ok_bind]
  generalize (Geodesics.ofSource (Adjacency.ofEnds n ends active) v :
    Geodesics α).reachAndTotal = found at htotal ⊢
  by_cases hzero : found.2 = 0
  · rw [if_pos hzero, if_pos hzero]
    rfl
  · rw [if_neg hzero, if_neg hzero]
    exact divide_of_pos
      (Score.CountsPositive.zero_lt_count (Nat.pos_of_ne_zero hzero) htotal) _

theorem scaleByMax_eq (values : Array α) :
    scaleByMax values = .ok (LinkAnalysis.scaleByMax values) := by
  unfold scaleByMax LinkAnalysis.scaleByMax
  by_cases hzero : values.foldl Score.larger Score.zero ≤ Score.zero
  · rw [if_pos hzero]
    simp only [if_pos hzero]
    rfl
  · by_cases hfinite : Score.isFinite (values.foldl Score.larger Score.zero) =
      true
    · simp only [if_neg hzero, if_pos hfinite]
      apply Strict.mapM_array_eq_ok
      intro x _
      exact divide_of_pos
        (Score.CountsPositive.zero_lt_of_not_le hfinite hzero) x
    · simp only [if_neg hzero, if_neg hfinite]
      rfl

theorem closeness_eq
    (signal : Signal)
    (hrange : Adjacency.InRange n ends active)
    (hn : n < 2 ^ 32) :
    (closeness signal (Adjacency.ofEnds n ends active) : Strict (Array α)) =
      Strict.lift
        (LinkAnalysis.closeness signal (Adjacency.ofEnds n ends active)) := by
  have hstep : ∀ v ∈ (Adjacency.ofEnds n ends active).nodes,
      (do
        Strict.poll signal
        rawCloseness (Adjacency.ofEnds n ends active) v : Strict α) =
        Strict.lift (do
          signal.check
          return LinkAnalysis.rawCloseness
            (Adjacency.ofEnds n ends active) v) := by
    intro v hv
    exact Strict.poll_bind_ok signal
      (rawCloseness_eq hrange hn (by simpa [Adjacency.nodes] using hv))
  exact Strict.bind_eq_lift (Strict.mapM_eq_lift hstep) fun raw _ =>
    scaleByMax_eq raw.toArray

theorem centrality_eq
    (signal : Signal)
    (hrange : Adjacency.InRange n ends active)
    (hn : n < 2 ^ 32)
    (hdegree : ∀ v < n, (Adjacency.ofEnds n ends active).degree v < wordSize)
    (betweenness : Array α) (w : Weights α) :
    centrality signal (Adjacency.ofEnds n ends active) betweenness w =
      Strict.lift (LinkAnalysis.centrality signal
        (Adjacency.ofEnds n ends active) betweenness w) := by
  have hdegrees : ∀ d ∈ ((Adjacency.ofEnds n ends active).nodes.map
          (Adjacency.ofEnds n ends active).degree).toArray,
      d < wordSize := by
    intro d hd
    rcases List.mem_map.mp (List.mem_toArray.mp hd) with ⟨v, hv, rfl⟩
    exact hdegree v (by simpa [Adjacency.nodes] using hv)
  dsimp only [centrality, LinkAnalysis.centrality]
  rw [normalizeDegrees_eq hdegrees, Strict.ok_bind]
  exact Strict.bind_eq_lift (closeness_eq signal hrange hn) fun _ _ => rfl

end Closeness

end Wordwise

end LinkAnalysis
