import LinkAnalysis.Proofs.Centrality.Betweenness
import LinkAnalysis.Proofs.Graph.Closeness
import LinkAnalysis.Proofs.Network.Canonical
import LinkAnalysis.Proofs.Score.Extended
import Mathlib

/-!
# Composite centrality

Degrees and closeness are divided by the largest one, so they lie between zero
and one, and one is reached as soon as there is a link.  A weighted sum takes no
more than its share of each score, whatever a betweenness score may be, and so
it never exceeds the sum of the weights.
-/

namespace LinkAnalysis

open Adjacency

/-! ## Scaling -/

section Greatest

variable {β : Type*} [LinearOrder β]

theorem isGreatest_range_foldl_max
    {n : Nat} {f : Fin n → β} {x : β}
    (hle : ∀ v, x ≤ f v)
    (v : Fin n) :
    IsGreatest (Set.range f) (((List.finRange n).map f).foldl max x) := by
  have hmem : ∀ y, y ∈ (List.finRange n).map f ↔ y ∈ Set.range f := by simp
  obtain ⟨hfound, hgreatest⟩ := isGreatest_foldl_max x ((List.finRange n).map f)
  have hupper : ∀ w, f w ≤ ((List.finRange n).map f).foldl max x := fun w =>
    hgreatest (List.mem_cons_of_mem _ ((hmem _).mpr ⟨w, rfl⟩))
  refine ⟨?_, Set.forall_mem_range.mpr hupper⟩
  rcases List.mem_cons.mp hfound with heq | hfound
  · exact ⟨v, le_antisymm (hupper v) (heq.le.trans (hle v))⟩
  · exact (hmem _).mp hfound

end Greatest

/-- The values of a function on the nodes, divided by the largest one. -/
structure Scaled {n : Nat} (f : Fin n → ℚ)
    (values : Array Extended) : Prop where
  size_eq : values.size = n
  value_eq : ∀ v : Fin n, ∃ most, IsGreatest (Set.range f) most ∧
    values[v.val]? = some (.finite (f v / most))
  mem_Icc : ∀ value ∈ values, ∃ x ∈ Set.Icc (0 : ℚ) 1, value = .finite x
  exists_eq_one :
    (∃ v, 0 < f v) → ∃ v : Fin n, values[v.val]? = some (.finite 1)

section Scaling

variable {n : Nat} {f : Fin n → ℚ}

theorem Scaled.exists_mem_Icc
    {values : Array Extended}
    (hscaled : Scaled f values)
    (v : Fin n) :
    ∃ x, values[v.val]? = some (.finite x) ∧ x ∈ Set.Icc (0 : ℚ) 1 := by
  obtain ⟨most, -, hvalue⟩ := hscaled.value_eq v
  obtain ⟨x, hx, heq⟩ := hscaled.mem_Icc _ (Array.mem_of_getElem? hvalue)
  exact ⟨x, heq ▸ hvalue, hx⟩

theorem scaled_of_nonneg (hf : ∀ v, 0 ≤ f v) :
    Scaled f
      ((List.finRange n).map fun v =>
        Extended.finite
          (f v / ((List.finRange n).map f).foldl max 0)).toArray := by
  set most := ((List.finRange n).map f).foldl max 0 with hmost
  have hgreatest : ∀ v : Fin n, IsGreatest (Set.range f) most :=
    isGreatest_range_foldl_max hf
  have hvalue : ∀ v : Fin n, ((List.finRange n).map fun v =>
      Extended.finite (f v / most)).toArray[v.val]? =
        some (.finite (f v / most)) := by
    intro v
    simp
  refine
    { size_eq := by simp
      value_eq := fun v => ⟨most, hgreatest v, hvalue v⟩
      mem_Icc := fun value hvalue => ?_
      exists_eq_one := fun hpos => ?_ }
  · rw [List.mem_toArray, List.mem_map] at hvalue
    obtain ⟨v, -, rfl⟩ := hvalue
    have hle := (hgreatest v).2 ⟨v, rfl⟩
    exact ⟨_, ⟨div_nonneg (hf v) ((hf v).trans hle),
        div_le_one_of_le₀ hle ((hf v).trans hle)⟩, rfl⟩
  · obtain ⟨v, hv⟩ := hpos
    obtain ⟨⟨w, hw⟩, hupper⟩ := hgreatest v
    have hne : most ≠ 0 := (hv.trans_le (hupper ⟨v, rfl⟩)).ne'
    refine ⟨w, ?_⟩
    rw [hvalue w, hw, div_self hne]

theorem normalizeDegrees_eq (degrees : Array Nat) :
    normalizeDegrees degrees = degrees.map fun d : Nat =>
      Extended.finite ((d : ℚ) / (degrees.foldl max 0 : ℕ)) := by
  unfold normalizeDegrees
  apply congrArg (Array.map · degrees)
  funext d
  rcases Nat.eq_zero_or_pos (degrees.foldl max 0) with hzero | hpos
  · simp [hzero]
  · rw [if_neg hpos.ne', Extended.count_eq, Extended.count_eq,
      Extended.finite_div _ (Nat.cast_ne_zero.mpr hpos.ne')]

theorem scaleByMax_eq {xs : List ℚ} (hxs : ∀ x ∈ xs, 0 ≤ x) :
    scaleByMax (xs.map Extended.finite).toArray =
      (xs.map fun x => Extended.finite (x / xs.foldl max 0)).toArray := by
  have hmost : (xs.map Extended.finite).toArray.foldl Score.larger Score.zero =
      Extended.finite (xs.foldl max 0) := by
    rw [List.foldl_toArray, Extended.zero_eq, Extended.foldl_larger_finite]
  simp only [scaleByMax, hmost]
  rw [Extended.isFinite_finite, if_pos rfl]
  split
  case isTrue hle =>
    rw [Extended.zero_eq, Extended.finite_le_finite] at hle
    apply congrArg List.toArray
    apply List.map_congr_left
    intro x hx
    have hupper := (isGreatest_foldl_max 0 xs).2 (List.mem_cons_of_mem 0 hx)
    obtain rfl : x = 0 := le_antisymm (hupper.trans hle) (hxs x hx)
    rw [zero_div]
  case isFalse hpos =>
    rw [Extended.zero_eq, Extended.finite_le_finite, not_le] at hpos
    rw [List.map_toArray, List.map_map]
    apply congrArg List.toArray
    apply List.map_congr_left
    intro x _
    exact Extended.finite_div x hpos.ne'

end Scaling

/-! ## Closeness -/

theorem foldl_count_sum
    {β : Type*} (p : β → Bool) (f : β → Nat) (l : List β) (count sum : Nat) :
    l.foldl (fun (found : Nat × Nat) w =>
        (found.1 + (p w).toNat, found.2 + f w)) (count, sum) =
      (count + l.countP p, sum + (l.map f).sum) := by
  induction l generalizing count sum with
  | nil => rfl
  | cons w l ih =>
      rw [List.foldl_cons, ih, List.countP_cons, List.map_cons, List.sum_cons,
        Nat.add_assoc, Nat.add_assoc, Nat.add_comm (p w).toNat]
      cases p w <;> rfl

section Reach

variable {α : Type}

/-- Of what was reached all but the source is counted, and the distances are
added. -/
theorem Geodesics.reachAndTotal_eq
    {β : Type*} {g : Geodesics α} {place dist : β → Nat} {l : List β}
    (horder : g.order.toList = l.map place)
    (hdist : ∀ w ∈ l, g.distanceTo (place w) = some (dist w)) :
    g.reachAndTotal = (l.countP fun w => dist w != 0, (l.map dist).sum) := by
  rw [reachAndTotal, ← Array.foldl_toList, horder, List.foldl_map]
  have hsteps := foldl_count_sum (fun w => dist w != 0) dist l 0 0
  rw [Nat.zero_add, Nat.zero_add] at hsteps
  rw [← hsteps]
  apply List.foldl_ext
  intro found w hw
  rw [hdist w hw]
  cases dist w <;> rfl

variable [Score α] {n : Nat} {ends : Array (Nat × Nat)} {active : List Nat}

theorem reachAndTotal_ofSource (hrange : InRange n ends active) (v : Fin n) :
    (Geodesics.ofSource (ofEnds n ends active) v.val :
          Geodesics α).reachAndTotal =
      ((linkGraph n ends active).reachCount v,
        (linkGraph n ends active).totalDistance v) := by
  classical
  obtain ⟨order, horder, hnodup, hmem, -⟩ := exists_order_eq (α := α) hrange v
  have hdist : ∀ w ∈ order,
      (Geodesics.ofSource (ofEnds n ends active) v.val : Geodesics α).distanceTo
          w.val = some ((linkGraph n ends active).dist v w) :=
    fun w hw => distanceTo_of_reachable hrange ((hmem w).mp hw)
  have hreach : (linkGraph n ends active).reachCount v =
      order.countP fun w => (linkGraph n ends active).dist v w != 0 := by
    rw [List.countP_eq_length_filter, ← ncard_mem_eq_length (hnodup.filter _),
      SimpleGraph.reachCount]
    apply congrArg Set.ncard
    ext w
    rw [Set.mem_ofPred_eq, Set.mem_ofPred_eq, List.mem_filter, hmem, and_comm,
      bne_iff_ne]
    apply and_congr_right
    intro hreach
    rw [Ne, Ne, hreach.dist_eq_zero_iff, eq_comm]
  have htotal : (linkGraph n ends active).totalDistance v =
      (order.map fun w => (linkGraph n ends active).dist v w).sum := by
    rw [← List.sum_toFinset _ hnodup, SimpleGraph.totalDistance]
    apply Finset.sum_congr _ fun _ _ => rfl
    ext w
    simp [hmem]
  rw [Geodesics.reachAndTotal_eq horder hdist, hreach, htotal]

theorem rawCloseness_ofEnds (hrange : InRange n ends active) (v : Fin n) :
    rawCloseness (ofEnds n ends active) v.val =
      Extended.finite ((linkGraph n ends active).closeness v) := by
  rw [rawCloseness, reachAndTotal_ofSource hrange, SimpleGraph.closeness]
  dsimp only
  split
  case isTrue hzero => rw [hzero, Nat.cast_zero, div_zero, Extended.zero_eq]
  case isFalse hne =>
    rw [Extended.count_eq, Extended.count_eq,
      Extended.finite_div _ (Nat.cast_ne_zero.mpr hne)]

theorem closeness_live (adj : Adjacency) :
    (closeness .live adj : Except Fault (Array α)) =
      .ok (scaleByMax (adj.nodes.map (rawCloseness adj)).toArray) := by
  have hmap : (adj.nodes.mapM fun v => do
      Signal.live.check
      return rawCloseness adj v : Except Fault (List α)) =
        .ok (adj.nodes.map (rawCloseness adj)) := List.mapM_pure
  rw [closeness, hmap]
  rfl

end Reach

/-! ## Scores of a network -/

namespace Network

variable (s : Snapshot)

theorem nodes_ofSnapshot :
    (ofSnapshot s).adjacency.nodes =
      (List.finRange (ofSnapshot s).size).map Fin.val := by
  rw [nodes, size_adjacency_ofSnapshot]
  apply List.ext_getElem <;> simp

theorem scaled_closeness :
    Scaled (ofSnapshot s).wholeGraph.closeness
      (scaleByMax ((ofSnapshot s).adjacency.nodes.map
          (rawCloseness (ofSnapshot s).adjacency)).toArray) := by
  have hrange :=
    (simpleEnds_ofSnapshot s).inRange (activeLinks_range (ofSnapshot s))
  have hraw : (ofSnapshot s).adjacency.nodes.map
        (rawCloseness (ofSnapshot s).adjacency) =
      ((List.finRange (ofSnapshot s).size).map
          (ofSnapshot s).wholeGraph.closeness).map Extended.finite := by
    rw [nodes_ofSnapshot, List.map_map, List.map_map]
    apply List.map_congr_left
    intro v _
    rw [Function.comp_apply, adjacency_ofSnapshot]
    exact rawCloseness_ofEnds hrange v
  rw [hraw, scaleByMax_eq (by simp [SimpleGraph.closeness_nonneg]),
    List.map_map]
  exact scaled_of_nonneg SimpleGraph.closeness_nonneg

theorem scaled_degree :
    Scaled (fun v => (((ofSnapshot s).wholeGraph.neighborSet v).ncard : ℚ))
      (normalizeDegrees ((ofSnapshot s).adjacency.nodes.map
          (ofSnapshot s).adjacency.degree).toArray) := by
  have hdegrees :
      (ofSnapshot s).adjacency.nodes.map (ofSnapshot s).adjacency.degree =
        (List.finRange (ofSnapshot s).size).map fun v =>
        ((ofSnapshot s).wholeGraph.neighborSet v).ncard := by
    rw [nodes_ofSnapshot, List.map_map]
    exact List.map_congr_left fun v _ => degree_ofSnapshot s v
  have hcast : ∀ (l : List Nat) (a : Nat),
      ((l.foldl max a : ℕ) : ℚ) = (l.map Nat.cast).foldl max (a : ℚ) := by
    intro l
    induction l with
    | nil => exact fun a => rfl
    | cons x l ih =>
        exact fun a => (ih (max a x)).trans (by rw [Nat.cast_max]; rfl)
  rw [hdegrees, normalizeDegrees_eq, List.foldl_toArray, hcast,
    List.map_toArray, List.map_map, List.map_map, Nat.cast_zero]
  exact scaled_of_nonneg fun v => Nat.cast_nonneg _

end Network

/-! ## Weighted sums -/

section Weights

variable {d c b : ℚ} (x y z : Extended)

/-- No score contributes more than its weight. -/
theorem weigh_bounds
    (hd : 0 ≤ d)
    (hc : 0 ≤ c)
    (hb : 0 ≤ b) :
    Score.zero ≤ weigh ⟨.finite d, .finite c, .finite b⟩ x y z ∧
      weigh ⟨.finite d, .finite c, .finite b⟩ x y z ≤
        Extended.finite d + Extended.finite c + Extended.finite b := by
  have hx := x.share_mem_Icc
  have hy := y.share_mem_Icc
  have hz := z.share_mem_Icc
  rw [Extended.weigh_eq, Extended.zero_eq, Extended.finite_add,
    Extended.finite_add, Extended.finite_le_finite, Extended.finite_le_finite]
  constructor
  · exact add_nonneg (add_nonneg (mul_nonneg hd hx.1) (mul_nonneg hc hy.1))
      (mul_nonneg hb hz.1)
  · exact add_le_add (add_le_add (mul_le_of_le_one_right hd hx.2)
      (mul_le_of_le_one_right hc hy.2)) (mul_le_of_le_one_right hb hz.2)

theorem weigh_mono
    {d' c' b' : ℚ}
    (hd : d ≤ d')
    (hc : c ≤ c')
    (hb : b ≤ b') :
    weigh ⟨.finite d, .finite c, .finite b⟩ x y z ≤
      weigh ⟨.finite d', .finite c', .finite b'⟩ x y z := by
  rw [Extended.weigh_eq, Extended.weigh_eq, Extended.finite_le_finite]
  have hx := x.share_mem_Icc.1
  have hy := y.share_mem_Icc.1
  have hz := z.share_mem_Icc.1
  gcongr

end Weights

/-! ## The scores of all nodes -/

/-- The centralities of a graph, and their sums with these weights. -/
structure Centrality.IsExact {n : Nat} (G : SimpleGraph (Fin n))
    (scores : Array Extended) (w : Weights Extended)
    (c : Centrality Extended) : Prop where
  degree_eq : ∀ v : Fin n, c.degree[v.val]? = some (G.neighborSet v).ncard
  degree_scaled :
    Scaled (fun v => ((G.neighborSet v).ncard : ℚ)) c.degreeNormalized
  closeness_scaled : Scaled G.closeness c.closeness
  closeness_of_isIsolated : ∀ v : Fin n, G.IsIsolated v →
    c.closeness[v.val]? = some (.finite 0)
  /-- As soon as there is a link some node has the highest score. -/
  exists_eq_one : (∃ v w, G.Adj v w) →
    (∃ v : Fin n, c.closeness[v.val]? = some (.finite 1)) ∧
      ∃ v : Fin n, c.degreeNormalized[v.val]? = some (.finite 1)
  /-- Degrees and closeness are weighed as they are, and of betweenness the
  share. -/
  composite_eq : ∀ v : Fin n, ∃ x y,
    c.degreeNormalized[v.val]? = some (.finite x) ∧
    c.closeness[v.val]? = some (.finite y) ∧
    c.composite[v.val]? =
      some (w.degree * .finite x + w.closeness * .finite y +
        w.betweenness * .finite (scores.getD v.val Score.zero).share)

/-- All composite scores lie between zero and the sum of the weights. -/
structure Centrality.IsWithin (n : Nat) (w : Weights Extended)
    (c : Centrality Extended) : Prop where
  size_composite : c.composite.size = n
  zero_le : ∀ score ∈ c.composite, Score.zero ≤ score
  le_sum : ∀ score ∈ c.composite, score ≤ w.degree + w.closeness + w.betweenness

theorem centrality_live_eq
    {α : Type} [Score α] (adj : Adjacency) (scores : Array α) (w : Weights α) :
    centrality .live adj scores w = .ok
      { degree := (adj.nodes.map adj.degree).toArray
        degreeNormalized := normalizeDegrees (adj.nodes.map adj.degree).toArray
        closeness := scaleByMax (adj.nodes.map (rawCloseness adj)).toArray
        betweenness := scores
        composite := (adj.nodes.map fun v => weigh w
          ((normalizeDegrees (adj.nodes.map adj.degree).toArray).getD v
            Score.zero)
          ((scaleByMax (adj.nodes.map (rawCloseness adj)).toArray).getD v
            Score.zero)
          (scores.getD v Score.zero)).toArray } := by
  rw [centrality, closeness_live]
  rfl

theorem Network.getElem?_map_nodes
    {β : Type} (s : Snapshot) (f : Nat → β) (v : Fin (ofSnapshot s).size) :
    ((ofSnapshot s).adjacency.nodes.map f).toArray[v.val]? =
      some (f v.val) := by
  rw [nodes_ofSnapshot]
  simp

theorem isExact_centrality
    {s : Snapshot} {scores : Array Extended} {w : Weights Extended}
    {c : Centrality Extended}
    (hc : centrality .live (Network.ofSnapshot s).adjacency scores w = .ok c) :
    c.IsExact (Network.ofSnapshot s).wholeGraph scores w := by
  rw [centrality_live_eq] at hc
  obtain rfl := Except.ok.inj hc
  have hdegree := Network.scaled_degree s
  have hcloseness := Network.scaled_closeness s
  refine
    { degree_eq := fun v => ?_
      degree_scaled := hdegree
      closeness_scaled := hcloseness
      closeness_of_isIsolated := fun v hv => ?_
      exists_eq_one := fun hexists => ?_
      composite_eq := fun v => ?_ }
  · exact (Network.getElem?_map_nodes s _ v).trans
      (congrArg some (Network.degree_ofSnapshot s v))
  · obtain ⟨most, -, hvalue⟩ := hcloseness.value_eq v
    rw [SimpleGraph.closeness_of_isIsolated hv, zero_div] at hvalue
    exact hvalue
  · obtain ⟨v, w, hadj⟩ := hexists
    have hneighbors :
        0 < ((Network.ofSnapshot s).wholeGraph.neighborSet v).ncard :=
      (Set.ncard_pos (Set.toFinite _)).mpr ⟨w, hadj⟩
    exact ⟨hcloseness.exists_eq_one
        ⟨v, SimpleGraph.closeness_pos hadj.not_isIsolated_left⟩,
      hdegree.exists_eq_one ⟨v, Nat.cast_pos.mpr hneighbors⟩⟩
  · obtain ⟨x, hx, hxunit⟩ := hdegree.exists_mem_Icc v
    obtain ⟨y, hy, hyunit⟩ := hcloseness.exists_mem_Icc v
    refine ⟨x, y, hx, hy,
      (Network.getElem?_map_nodes s _ v).trans (congrArg some ?_)⟩
    rw [weigh, Extended.unitValue_eq,
      Extended.unitValue_eq, Extended.unitValue_eq, Array.getD_eq_getD_getElem?,
      hx, Option.getD_some, Array.getD_eq_getD_getElem?, hy, Option.getD_some,
      Extended.share_finite hxunit, Extended.share_finite hyunit]

theorem isWithin_centrality
    {s : Snapshot} {scores : Array Extended} {config : Config Extended}
    (hvalid : config.validate = .ok ())
    {c : Centrality Extended}
    (hc : centrality .live (Network.ofSnapshot s).adjacency scores
        config.weights = .ok c) :
    c.IsWithin (Network.ofSnapshot s).size config.weights := by
  obtain ⟨d, k, b, hd, hk, hb, hweights⟩ :=
    Config.exists_weights_of_validate hvalid
  rw [centrality_live_eq] at hc
  obtain rfl := Except.ok.inj hc
  have hbounds : ∀ x y z,
      Score.zero ≤ weigh config.weights x y z ∧
      weigh config.weights x y z ≤ config.weights.degree +
        config.weights.closeness + config.weights.betweenness := by
    intro x y z
    rw [hweights]
    exact weigh_bounds x y z hd hk hb
  refine
    { size_composite := by simp [Network.nodes_ofSnapshot]
      zero_le := fun score hscore => ?_
      le_sum := fun score hscore => ?_ }
  · obtain ⟨v, -, rfl⟩ := List.mem_map.mp (List.mem_toArray.mp hscore)
    exact (hbounds _ _ _).1
  · obtain ⟨v, -, rfl⟩ := List.mem_map.mp (List.mem_toArray.mp hscore)
    exact (hbounds _ _ _).2

theorem composite_mono
    {s : Snapshot} {scores : Array Extended} {config heavier : Config Extended}
    (hvalid : config.validate = .ok ())
    (hheavier : heavier.validate = .ok ())
    (hdegree : config.weights.degree ≤ heavier.weights.degree)
    (hcloseness : config.weights.closeness ≤ heavier.weights.closeness)
    (hbetweenness : config.weights.betweenness ≤ heavier.weights.betweenness)
    {c c' : Centrality Extended}
    (hc : centrality .live (Network.ofSnapshot s).adjacency scores
        config.weights = .ok c)
    (hc' : centrality .live (Network.ofSnapshot s).adjacency scores
        heavier.weights = .ok c')
    (v : Fin (Network.ofSnapshot s).size) :
    ∃ score score',
      c.composite[v.val]? = some score ∧
      c'.composite[v.val]? = some score' ∧
      score ≤ score' := by
  obtain ⟨d, k, b, -, -, -, hweights⟩ :=
    Config.exists_weights_of_validate hvalid
  obtain ⟨d', k', b', -, -, -, hweights'⟩ :=
    Config.exists_weights_of_validate hheavier
  rw [centrality_live_eq] at hc hc'
  obtain rfl := Except.ok.inj hc
  obtain rfl := Except.ok.inj hc'
  refine ⟨_, _, Network.getElem?_map_nodes s _ v,
    Network.getElem?_map_nodes s _ v, ?_⟩
  rw [hweights, hweights'] at hdegree hcloseness hbetweenness ⊢
  exact weigh_mono _ _ _ ((Extended.finite_le_finite d d').mp hdegree)
    ((Extended.finite_le_finite k k').mp hcloseness)
    ((Extended.finite_le_finite b b').mp hbetweenness)

/-- Scores are exact and bounded, whatever scores of betweenness are given: some
may be missing, out of range, infinite or undefined.  Raising a weight lowers no
composite score. -/
theorem centrality_exact (s : Snapshot) (scores : Array Extended) :
    (∀ w, ∃ c,
        centrality .live (Network.ofSnapshot s).adjacency scores w = .ok c ∧
        c.IsExact (Network.ofSnapshot s).wholeGraph scores w) ∧
      ∀ config : Config Extended, config.validate = .ok () → ∃ c,
        centrality .live (Network.ofSnapshot s).adjacency scores
            config.weights = .ok c ∧
        c.IsWithin (Network.ofSnapshot s).size config.weights ∧
        ∀ heavier : Config Extended, heavier.validate = .ok () →
          config.weights.degree ≤ heavier.weights.degree →
          config.weights.closeness ≤ heavier.weights.closeness →
          config.weights.betweenness ≤ heavier.weights.betweenness → ∃ c',
            centrality .live (Network.ofSnapshot s).adjacency scores
                heavier.weights = .ok c' ∧
            ∀ v : Fin (Network.ofSnapshot s).size, ∃ score score',
              c.composite[v.val]? = some score ∧
              c'.composite[v.val]? = some score' ∧
              score ≤ score' := by
  have hlive : ∀ w : Weights Extended, ∃ c,
      centrality .live (Network.ofSnapshot s).adjacency scores w = .ok c :=
    fun w => ⟨_, centrality_live_eq _ scores w⟩
  constructor
  · intro w
    obtain ⟨c, hc⟩ := hlive w
    exact ⟨c, hc, isExact_centrality hc⟩
  · intro config hvalid
    obtain ⟨c, hc⟩ := hlive config.weights
    refine ⟨c, hc, isWithin_centrality hvalid hc,
      fun heavier hheavier hdegree hclose hbetween => ?_⟩
    obtain ⟨c', hc'⟩ := hlive heavier.weights
    exact ⟨c', hc',
      composite_mono hvalid hheavier hdegree hclose hbetween hc hc'⟩

/-- A row of three nodes has a nearest one, and scores of betweenness that are
infinite, undefined or missing take no sum beyond one. -/
theorem centrality_exact_rowSnapshot :
    (Config.default : Config Extended).validate = .ok () ∧
      ∃ c,
        centrality .live (Network.ofSnapshot rowSnapshot).adjacency
            #[.undefined, .infinite false]
            (Config.default : Config Extended).weights = .ok c ∧
        (∃ v : Fin (Network.ofSnapshot rowSnapshot).size,
          c.closeness[v.val]? = some (.finite 1)) ∧
        ∀ score ∈ c.composite, Score.zero ≤ score ∧ score ≤ .finite 1 := by
  have hvalid : (Config.default : Config Extended).validate = .ok () := by
    decide +kernel
  have hsum : (Config.default : Config Extended).weights.degree +
        (Config.default : Config Extended).weights.closeness +
        (Config.default : Config Extended).weights.betweenness = .finite 1 := by
    decide +kernel
  obtain ⟨hexact, hwithin⟩ :=
    centrality_exact rowSnapshot #[.undefined, .infinite false]
  obtain ⟨c, hc, hc'⟩ := hexact (Config.default : Config Extended).weights
  obtain ⟨k, hk, hk', -⟩ := hwithin Config.default hvalid
  obtain rfl := Except.ok.inj (hc.symm.trans hk)
  have hsize : (Network.ofSnapshot rowSnapshot).size = 3 := by cbv
  have hcount : (Network.ofSnapshot rowSnapshot).linkCount = 2 := by cbv
  have hends : (Network.ofSnapshot rowSnapshot).ends[0]? = some (0, 1) := by cbv
  have hadj : ∃ v w, (Network.ofSnapshot rowSnapshot).wholeGraph.Adj v w :=
    ⟨_, _, linkGraph_adj_of_mem (List.mem_range.mpr (hcount ▸ by decide)) hends
      (by decide) (hsize ▸ by decide) (hsize ▸ by decide)⟩
  exact ⟨hvalid, c, hc, (hc'.exists_eq_one hadj).1, fun score hscore =>
    ⟨hk'.zero_le score hscore, hsum ▸ hk'.le_sum score hscore⟩⟩

end LinkAnalysis
