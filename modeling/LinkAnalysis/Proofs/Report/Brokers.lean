import LinkAnalysis.Proofs.Centrality.Broker
import LinkAnalysis.Proofs.Report.Outcome
import LinkAnalysis.Proofs.Report.Ranks

/-!
# Reports on brokers

The brokers of a network head its betweenness ranking, as far as scores exceed
the threshold.  A threshold that is not lower selects a head of that head.
-/

namespace LinkAnalysis

/-- What a report on brokers would say of a ranked node. -/
def RankedNode.broker {α : Type} (n : RankedNode α) : BrokerRecord α :=
  ⟨n.id, n.label, n.score⟩

/-- What a selection from a list of scores is: every number whose score exceeds
the threshold, once, and no other; in descending order, and equal scores in the
order of their numbers; all of it defined. -/
structure Selects (scores : Array Float) (threshold : Float)
    (found : List (Nat × Float)) : Prop where
  mem_iff : ∀ v x, (v, x) ∈ found ↔ scores[v]? = some x ∧ threshold < x
  nodup : (found.map Prod.fst).Nodup
  descending : found.Pairwise fun x y =>
    y.2 < x.2 ∨ (x.2 == y.2) = true ∧ x.1 < y.1
  isNaN_eq_false : ∀ x ∈ found, x.2.isNaN = false

theorem brokers_selects (scores : Array Float) (threshold : Float) :
    Selects scores threshold (brokers scores threshold) where
  mem_iff _ _ := mem_brokers_iff
  nodup := map_fst_brokers_nodup
  descending := by
    refine (brokers_pairwise scale_float).imp_of_mem fun {x y} hx _ hxy => ?_
    have hdefined := scale_float.ne_bot_of_lt (mem_brokers_iff.mp hx).2
    exact hxy.imp_right fun ⟨hlevel, hlt⟩ =>
      ⟨beq_iff_binaryLevel.mpr ⟨hdefined, hlevel.symm⟩, hlt⟩
  isNaN_eq_false x hx :=
    binaryLevel_ne_bot_iff.mp
      (scale_float.ne_bot_of_lt (mem_brokers_iff.mp hx).2)

/-! ## Reports -/

section Reports

variable (s : Snapshot)

def Snapshot.brokerRecord (item : Nat × ℚ) : BrokerRecord ℚ :=
  ⟨(Network.ofSnapshot s).idOf item.1,
    s.labelOf ((Network.ofSnapshot s).idOf item.1), item.2⟩

theorem Analysis.exists_betweenness_brokers :
    ∃ (scores : Array ℚ) (b : BetweennessReport ℚ),
      Analysis.betweenness .live s = .ok b ∧
      b.nodes.map RankedNode.broker = (ranked scores).map s.brokerRecord ∧
      ∀ config : Config ℚ, Analysis.brokers config .live s =
        .ok ⟨b.basis, config.brokerThreshold, (LinkAnalysis.brokers scores
              config.brokerThreshold).map s.brokerRecord⟩ := by
  obtain ⟨scores, hscores⟩ :=
    exists_betweenness_live (α := ℚ) (Network.ofSnapshot s).adjacency
      (Network.ofSnapshot s).linkCount
  simp only [Analysis.betweenness, Analysis.brokers, hscores]
  refine ⟨scores.node, _, rfl, ?_, fun config => rfl⟩
  rw [← map_fst_rankedNodes, List.map_map, List.map_map]
  rfl

/-- A report on brokers lists the head of a report on betweenness that exceeds
the threshold. -/
structure BrokerReport.Heads (r : BrokerReport ℚ) (threshold : ℚ)
    (b : BetweennessReport ℚ) : Prop where
  basis_eq : r.basis = b.basis
  threshold_eq : r.threshold = threshold
  lt_score : ∀ broker ∈ r.brokers, threshold < broker.score
  exists_rest : ∃ rest, b.nodes.map RankedNode.broker = r.brokers ++ rest ∧
    ∀ other ∈ rest, ¬ threshold < other.score

variable {s}

theorem brokers_eq_filter_exact (scores : Array ℚ) (threshold : ℚ) :
    brokers scores threshold =
      (ranked scores).filter fun x => decide (threshold < x.2) :=
  brokers_eq_filter_ranked scale_rat fun _ _ => WithBot.coe_ne_bot

theorem ranked_pairwise_exact (scores : Array ℚ) (threshold : ℚ) :
    (ranked scores).Pairwise fun x y =>
      decide (threshold < y.2) = true → decide (threshold < x.2) = true :=
  ranked_pairwise_above scale_rat (fun _ _ => WithBot.coe_ne_bot) threshold

theorem BrokerReport.heads
    {scores : Array ℚ} {threshold : ℚ} {b : BetweennessReport ℚ}
    (hnodes : b.nodes.map RankedNode.broker =
      (ranked scores).map s.brokerRecord) :
    BrokerReport.Heads ⟨b.basis, threshold, (LinkAnalysis.brokers scores
          threshold).map s.brokerRecord⟩ threshold b where
  basis_eq := rfl
  threshold_eq := rfl
  lt_score broker hbroker := by
    obtain ⟨item, hitem, rfl⟩ := List.mem_map.mp hbroker
    exact (mem_brokers_iff.mp hitem).2
  exists_rest := by
    refine ⟨((ranked scores).filter fun x =>
      !decide (threshold < x.2)).map s.brokerRecord, ?_, fun other hother => ?_⟩
    · rw [hnodes, brokers_eq_filter_exact, ← List.map_append,
        filter_append_filter_not (ranked_pairwise_exact scores threshold)]
    · obtain ⟨item, hitem, rfl⟩ := List.mem_map.mp hother
      change ¬ threshold < item.2
      simpa using (List.mem_filter.mp hitem).2

end Reports

/-- Brokers are the head of the betweenness ranking, the shorter the higher the
threshold; and a selection of machine numbers is complete and ordered, whatever
there is to select from. -/
theorem Analysis.brokers_head_ranking
    (s : Snapshot) {config config' : Config ℚ}
    (hle : config.brokerThreshold ≤ config'.brokerThreshold) :
    (∃ b r r',
        Analysis.betweenness .live s = .ok b ∧
        Analysis.brokers config .live s = .ok r ∧
        r.Heads config.brokerThreshold b ∧
        Analysis.brokers config' .live s = .ok r' ∧
        r'.Heads config'.brokerThreshold b ∧
        r'.brokers <+: r.brokers) ∧
      ∀ (scores : Array Float) (threshold : Float),
        Selects scores threshold (LinkAnalysis.brokers scores threshold) := by
  obtain ⟨scores, b, hb, hnodes, hbrokers⟩ := exists_betweenness_brokers s
  refine ⟨⟨b, _, _, hb, hbrokers config, BrokerReport.heads hnodes,
    hbrokers config', BrokerReport.heads hnodes, ?_⟩, brokers_selects⟩
  rw [brokers_eq_filter_exact, brokers_eq_filter_exact]
  refine List.IsPrefix.map s.brokerRecord
    (filter_prefix_filter (ranked_pairwise_exact scores _) fun x hx => ?_)
  rw [decide_eq_true_iff] at hx ⊢
  exact lt_of_le_of_lt hle hx

/-- A small case: a row of five nodes, where `b` and `d` share their score
behind `c`. -/
def longRowSnapshot : Snapshot where
  nodes :=
    [Node.bare "e", Node.bare "d", Node.bare "c", Node.bare "b", Node.bare "a"]
  edges :=
    [Edge.bare "a" "b", Edge.bare "b" "c", Edge.bare "c" "d", Edge.bare "d" "e"]
  id_ne_empty := by decide
  ids_nodup := by decide

def halfThreshold : Config ℚ := { Config.default with brokerThreshold := 1 / 2 }

theorem Analysis.brokers_head_ranking_longRowSnapshot :
    (Config.default : Config ℚ).brokerThreshold ≤
        halfThreshold.brokerThreshold ∧
      ∃ b r r',
        Analysis.betweenness .live longRowSnapshot = .ok b ∧
        Analysis.brokers Config.default .live longRowSnapshot = .ok r ∧
        r.Heads (3 / 10) b ∧
        Analysis.brokers halfThreshold .live longRowSnapshot = .ok r' ∧
        r'.Heads (1 / 2) b ∧
        r'.brokers <+: r.brokers := by
  have hle : (Config.default : Config ℚ).brokerThreshold ≤
      halfThreshold.brokerThreshold := by
    rw [Config.default, tenths, Score.count_rat, Score.count_rat, halfThreshold]
    norm_num
  exact ⟨hle, (brokers_head_ranking longRowSnapshot hle).1⟩

end LinkAnalysis
