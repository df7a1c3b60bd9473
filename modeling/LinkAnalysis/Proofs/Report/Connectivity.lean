import LinkAnalysis.Proofs.Report.Groups
import LinkAnalysis.Proofs.Route.Agreement
import Mathlib

/-!
# Connectivity in all reports

Three computations find out what is connected.  The components are gathered from
the adjacency, the statistics count representatives on the plain graph, and a
breadth-first search finds the distance between two nodes.  They agree: all of
them see the components of one graph, and every node and every link stands in
exactly one of these.
-/

namespace LinkAnalysis

open Network
open SimpleGraph.ConnectedComponent (members mem_members val_mem_members)

/-! ## Counting by groups -/

section Counting

variable {β γ : Type}

theorem countP_eq_sum (p : β → Bool) (l : List β) :
    l.countP p = (l.map fun x => if p x then 1 else 0).sum := by
  induction l with
  | nil => rfl
  | cons x l ih =>
      rw [List.countP_cons, ih, List.map_cons, List.sum_cons, Nat.add_comm]

/-- Pairs can be counted from either side. -/
theorem sum_countP_comm
    (p : β → γ → Bool) (l : List β) (k : List γ) :
    (l.map fun x => k.countP (p x)).sum =
      (k.map fun y => l.countP fun x => p x y).sum := by
  induction k with
  | nil => simp
  | cons y k ih =>
      simp only [List.countP_cons, List.sum_map_add, ih]
      rw [List.map_cons, List.sum_cons, countP_eq_sum, Nat.add_comm]

variable {n : Nat} {groups : List (List Nat)}
  (hgroups : groups.flatten.Perm (List.range n))

include hgroups

theorem countP_mem_eq_one {v : Nat} (hv : v < n) :
    groups.countP (fun group => decide (v ∈ group)) = 1 := by
  have hnodup : groups.flatten.Nodup := hgroups.nodup_iff.mpr List.nodup_range
  have hcount : groups.flatten.count v = 1 := by
    rw [hgroups.count_eq]
    exact List.count_eq_one_of_mem List.nodup_range (List.mem_range.mpr hv)
  rw [← hcount, List.count_flatten, countP_eq_sum]
  apply congrArg List.sum
  apply List.map_congr_left
  intro group hgroup
  rw [((List.nodup_flatten.mp hnodup).1 group hgroup).count]
  simp

/-- Every number stands in exactly one group. -/
theorem sum_countP_mem {values : List Nat} (hvalues : ∀ v ∈ values, v < n) :
    (groups.map fun group => values.countP fun v => decide (v ∈ group)).sum =
      values.length := by
  have hone : (values.map fun v => groups.countP fun group =>
      decide (v ∈ group)) = values.map fun _ => 1 :=
    List.map_congr_left fun v hv => countP_mem_eq_one hgroups (hvalues v hv)
  rw [sum_countP_comm (fun group v => decide (v ∈ group)), hone,
    List.map_const', List.sum_replicate, smul_eq_mul, Nat.mul_one]

theorem sum_countP_groups (p : Nat → Bool) :
    (groups.map fun group => group.countP p).sum = (List.range n).countP p := by
  rw [← hgroups.countP_eq, List.countP_flatten]

end Counting

/-! ## Components of the whole network -/

section Whole

variable (s : Snapshot)

theorem Network.components_ofSnapshot :
    components (ofSnapshot s).adjacency =
      (ofSnapshot s).componentsWithout [] := by
  rw [componentsWithout, linksWithout_nil, adjacency_ofSnapshot]

theorem Network.degree_eq_zero_iff (v : Fin (ofSnapshot s).size) :
    (ofSnapshot s).adjacency.degree v = 0 ↔
      ∀ w, ¬ ((ofSnapshot s).graphWithout []).Adj v w := by
  rw [degree_ofSnapshot, Set.ncard_eq_zero (Set.toFinite _),
    SimpleGraph.neighborSet_eq_empty, wholeGraph_eq]
  rfl

/-- Nodes without a link are the components of one node. -/
theorem Network.countP_degree_eq_zero :
    ((ofSnapshot s).adjacency.nodes.map (ofSnapshot s).adjacency.degree).countP
        (· == 0) =
      ((ofSnapshot s).componentsWithout []).countP fun group =>
        group.length == 1 := by
  have hnet := simpleEnds_ofSnapshot s
  have hgroup : ∀ group ∈ (ofSnapshot s).componentsWithout [],
      group.countP (fun v => (ofSnapshot s).adjacency.degree v == 0) =
        if group.length == 1 then 1 else 0 := by
    intro group hgroup
    obtain ⟨c, rfl⟩ := (mem_componentsWithout hnet []).mp hgroup
    have hdegree :
        c.members.countP (fun v => (ofSnapshot s).adjacency.degree v == 0) =
          c.members.countP fun _ => c.members.length == 1 := by
      apply List.countP_congr
      intro v hv
      obtain ⟨hlt, rfl⟩ := mem_members.mp hv
      rw [beq_iff_eq, beq_iff_eq]
      exact (degree_eq_zero_iff s ⟨v, hlt⟩).trans
        SimpleGraph.ConnectedComponent.forall_not_adj_iff
    rw [hdegree]
    by_cases hone : c.members.length = 1
    · simp [hone]
    · simp [hone]
  calc
    ((ofSnapshot s).adjacency.nodes.map (ofSnapshot s).adjacency.degree).countP
      (· == 0) = (List.range (ofSnapshot s).size).countP fun v =>
      (ofSnapshot s).adjacency.degree v == 0 := by
        rw [List.countP_map, Adjacency.nodes, size_adjacency_ofSnapshot]
        rfl
    _ = (((ofSnapshot s).componentsWithout []).map fun group =>
          group.countP fun v => (ofSnapshot s).adjacency.degree v == 0).sum :=
        (sum_countP_groups (flatten_componentsWithout_perm hnet []) _).symm
    _ = (((ofSnapshot s).componentsWithout []).map fun group =>
          if group.length == 1 then 1 else 0).sum :=
        congrArg List.sum (List.map_congr_left hgroup)
    _ = ((ofSnapshot s).componentsWithout []).countP fun group =>
          group.length == 1 :=
        (countP_eq_sum _ _).symm

/-- Every link stands in exactly one component. -/
theorem Network.sum_length_linksWithin :
    (((ofSnapshot s).componentsWithout []).map fun group =>
          ((ofSnapshot s).linksWithin group).length).sum =
      (ofSnapshot s).linkCount := by
  have hnet := simpleEnds_ofSnapshot s
  have hlow : ∀ group ∈ (ofSnapshot s).componentsWithout [],
      ((ofSnapshot s).linksWithin group).length =
      ((ofSnapshot s).links.toList.map Link.low).countP fun v =>
      decide (v ∈ group) := by
    intro group hgroup
    obtain ⟨c, rfl⟩ := (mem_componentsWithout hnet []).mp hgroup
    rw [linksWithin, ← List.countP_eq_length_filter, List.countP_map]
    apply List.countP_congr
    intro l hl
    obtain ⟨position, hget⟩ := List.mem_iff_getElem?.mp hl
    rw [Array.getElem?_toList] at hget
    have hposition : position ∈ (ofSnapshot s).linksWithout [] :=
      mem_linksWithout.mpr ⟨(Array.getElem?_eq_some_iff.mp hget).1,
        List.not_mem_nil⟩
    obtain ⟨a, b, hends, hadj⟩ := exists_adj_of_mem_linksWithout hnet hposition
    obtain ⟨l', hget', hlowEq, hhighEq⟩ := getElem?_ends.mp hends
    obtain rfl := Option.some_inj.mp (hget.symm.trans hget')
    have hsame : l.low ∈ c.members ↔ l.high ∈ c.members := by
      rw [hlowEq, hhighEq, val_mem_members, val_mem_members,
        SimpleGraph.ConnectedComponent.sound hadj.reachable]
    simp [hsame]
  rw [List.map_congr_left hlow,
    sum_countP_mem (flatten_componentsWithout_perm hnet [])]
  · rw [List.length_map, Array.length_toList, linkCount]
  · intro v hv
    obtain ⟨l, hl, rfl⟩ := List.mem_map.mp hv
    obtain ⟨hlt, hhigh, -⟩ := link_ofSnapshot s (Array.mem_toList_iff.mp hl)
    exact hlt.trans hhigh

end Whole

/-! ## The reports -/

/-- The components that a report lists are those that the other reports know
of. -/
structure ComponentReport.Consistent (config : Config ℚ) (s : Snapshot)
    (c : ComponentReport ℚ) : Prop where
  componentCount_eq :
    (Analysis.statistics s : StatisticsReport ℚ).statistics.componentCount =
      c.components.length
  /-- However the plain graph's own algorithm stores its partition, it counts
  the same components. -/
  componentCountBy_eq : ∀ {σ : Type} {uf : UnionFind σ} {fits : Nat → σ → Prop}
      {rep : σ → Nat → Nat},
    uf.Lawful fits rep →
      (Network.ofSnapshot s).graph.componentCountBy uf = c.components.length
  isolatedCount_eq :
    (Analysis.statistics s : StatisticsReport ℚ).statistics.isolatedCount =
      c.components.countP fun r => r.size == 1
  /-- Every id stands in exactly one record. -/
  members_perm :
    (c.components.flatMap GroupRecord.members).Perm (s.nodes.map Node.id)
  /-- There is a distance inside a record and nowhere else. -/
  distance_isSome_iff : ∀ x ∈ s.nodes.map Node.id, ∀ y ∈ s.nodes.map Node.id,
    ∃ q, Analysis.shortest config .live s x y = .ok q ∧
      (q.distance.isSome ↔ ∃ r ∈ c.components, x ∈ r.members ∧ y ∈ r.members)
  distance_lt : ∀ x y q d, Analysis.shortest config .live s x y = .ok q →
    q.distance = some d → ∀ r ∈ c.components, x ∈ r.members → d < r.size
  shortest_comm : ∀ x y q, Analysis.shortest config .live s x y = .ok q →
    ∃ q',
      Analysis.shortest config .live s y x = .ok q' ∧
      q'.distance = q.distance ∧
      q'.routeCount = q.routeCount
  density_eq : ∀ r ∈ c.components,
    r.density = density r.size ((Network.ofSnapshot s).linkCountAmong r.members)
  sum_linkCountAmong_eq : (c.components.map fun r =>
    (Network.ofSnapshot s).linkCountAmong r.members).sum =
    (Analysis.statistics s : StatisticsReport ℚ).statistics.linkCount

section Reports

variable {s : Snapshot} (config : Config ℚ)

/-- Two ids with a report on the routes between them are known. -/
theorem Analysis.exists_nodes_of_shortest
    {x y : String} {q : ShortestReport ℚ}
    (hq : Analysis.shortest config .live s x y = .ok q) :
    ∃ v w : Fin (Network.ofSnapshot s).size,
      (Network.ofSnapshot s).idOf v = x ∧
      (Network.ofSnapshot s).idOf w = y := by
  cases hends : (Network.ofSnapshot s).endpoints x y with
  | error fault => simp [Analysis.shortest, hends, bind, Except.bind] at hq
  | ok ends =>
      rcases Network.nodes_of_endpoints hends with ⟨⟨hv, hx⟩, hw, hy⟩
      exact ⟨⟨ends.1, hv⟩, ⟨ends.2, hw⟩, hx, hy⟩

/-- Between any two nodes the distance of the graph and the number of shortest
walks are reported. -/
theorem Analysis.exists_shortest_idOf (v w : Fin (Network.ofSnapshot s).size) :
    ∃ q,
      Analysis.shortest config .live s ((Network.ofSnapshot s).idOf v)
          ((Network.ofSnapshot s).idOf w) = .ok q ∧
      (∀ d, q.distance = some d ↔
        ((Network.ofSnapshot s).graphWithout []).Reachable v w ∧
          ((Network.ofSnapshot s).graphWithout []).dist v w = d) ∧
      q.routeCount =
        ((Network.ofSnapshot s).graphWithout []).shortestWalkCount v w := by
  have hends := simpleEnds_ofSnapshot s
  have hactive := activeLinks_range (Network.ofSnapshot s)
  have hrange := hends.inRange hactive
  obtain ⟨q, hq, hdistance, hcount, -, -⟩ :=
    Analysis.exists_shortest (α := ℚ) config (endpoints_idOf v w)
  rw [adjacency_ofSnapshot, adjacencyOf] at hdistance hcount
  rw [graphWithout, linksWithout_nil, graphOf]
  refine ⟨q, hq, fun d => ?_, ?_⟩
  · rw [hdistance]
    constructor
    · exact reachable_of_distanceTo hrange
    · intro hboth
      rw [← hboth.2]
      exact distanceTo_of_reachable hrange hboth.1
  · rw [hcount]
    exact countOf_ofSource hends hactive v w

/-! ## The records of all components -/

section Records

variable {groups : List (List Nat)}
  (hperm : groups.Perm ((Network.ofSnapshot s).componentsWithout []))

include hperm

theorem Network.countP_size_groupRecords :
    ((ofSnapshot s).groupRecords groups : List (GroupRecord ℚ)).countP
        (fun r => r.size == 1) =
      (Analysis.statistics s :
          StatisticsReport ℚ).statistics.isolatedCount := by
  have hsizes := map_groupRecords (α := ℚ) (ofSnapshot s) groups List.length
  simp only [List.length_map] at hsizes
  calc
    ((ofSnapshot s).groupRecords groups : List (GroupRecord ℚ)).countP
      (fun r => r.size == 1) =
      (groups.map fun group => group.length).countP (· == 1) := by
        rw [← hsizes, List.countP_map]
        rfl
    _ = groups.countP fun group => group.length == 1 := by
        rw [List.countP_map]
        rfl
    _ = ((ofSnapshot s).componentsWithout []).countP fun group =>
          group.length == 1 :=
        hperm.countP_eq _
    _ = (Analysis.statistics s : StatisticsReport ℚ).statistics.isolatedCount :=
        (countP_degree_eq_zero s).symm

theorem Network.lt_of_mem_group {group : List Nat} (hgroup : group ∈ groups) :
    ∀ v ∈ group, v < (ofSnapshot s).size :=
  fun _ hv => lt_of_mem_componentsWithout (simpleEnds_ofSnapshot s) []
    (hperm.subset hgroup) hv

theorem Network.sum_linkCountAmong_groupRecords :
    (((ofSnapshot s).groupRecords groups : List (GroupRecord ℚ)).map fun r =>
          (ofSnapshot s).linkCountAmong r.members).sum =
      (ofSnapshot s).linkCount := by
  rw [map_groupRecords]
  calc (groups.map fun group =>
        (ofSnapshot s).linkCountAmong (group.map (ofSnapshot s).idOf)).sum
      = (groups.map fun group =>
          ((ofSnapshot s).linksWithin group).length).sum :=
        congrArg List.sum (List.map_congr_left fun _ hgroup =>
          (length_linksWithin s (lt_of_mem_group hperm hgroup)).symm)
    _ = (((ofSnapshot s).componentsWithout []).map fun group =>
          ((ofSnapshot s).linksWithin group).length).sum := (hperm.map _).sum_eq
    _ = (ofSnapshot s).linkCount := sum_length_linksWithin s

/-- Two ids stand in one record exactly if their nodes are joined. -/
theorem Network.exists_groupRecord_iff_reachable
    {v w : Fin (ofSnapshot s).size} :
    (∃ r ∈ ((ofSnapshot s).groupRecords groups : List (GroupRecord ℚ)),
        (ofSnapshot s).idOf v ∈ r.members ∧ (ofSnapshot s).idOf w ∈ r.members) ↔
      ((ofSnapshot s).graphWithout []).Reachable v w := by
  constructor
  · intro hexists
    rcases hexists with ⟨r, hr, hv, hw⟩
    rcases exists_component_of_mem_groupRecords hperm.subset hr
      with ⟨c, -, hmembers⟩
    rw [hmembers, idOf_mem_map_members_iff] at hv hw
    exact SimpleGraph.ConnectedComponent.exact (hv.trans hw.symm)
  · intro hreach
    have hmem :
        (((ofSnapshot s).graphWithout []).connectedComponentMk v).members ∈
          groups :=
      hperm.mem_iff.mpr
        ((mem_componentsWithout (simpleEnds_ofSnapshot s) []).mpr ⟨_, rfl⟩)
    rcases List.mem_iff_getElem?.mp hmem with ⟨position, hget⟩
    refine ⟨_, (mem_groupRecords _ _).mpr ⟨position, _, hget, rfl⟩, ?_, ?_⟩
    · exact idOf_mem_map_members_iff.mpr rfl
    · exact idOf_mem_map_members_iff.mpr
        (SimpleGraph.ConnectedComponent.sound hreach.symm)

theorem Network.dist_lt_size_groupRecord
    {r : GroupRecord ℚ}
    (hr : r ∈ (ofSnapshot s).groupRecords groups)
    {v w : Fin (ofSnapshot s).size}
    (hv : (ofSnapshot s).idOf v ∈ r.members)
    (hreach : ((ofSnapshot s).graphWithout []).Reachable v w) :
    ((ofSnapshot s).graphWithout []).dist v w < r.size := by
  rcases exists_component_of_mem_groupRecords hperm.subset hr
    with ⟨c, -, hmembers⟩
  rw [hmembers, idOf_mem_map_members_iff] at hv
  rw [GroupRecord.size, hmembers, List.length_map, ← hv]
  exact SimpleGraph.ConnectedComponent.dist_lt_length_members hreach

end Records

/-! ## Agreement -/

/-- The report on components agrees with all others on what is connected. -/
theorem Analysis.components_consistent (config : Config ℚ) (s : Snapshot) :
    ∃ c, Analysis.components .live s = .ok c ∧ c.Consistent config s := by
  have hnet := simpleEnds_ofSnapshot s
  obtain ⟨groups, hperm, hreport⟩ : ∃ groups : List (List Nat),
      groups.Perm ((Network.ofSnapshot s).componentsWithout []) ∧
      (Analysis.components .live s : Except Fault (ComponentReport ℚ)) =
      .ok ⟨(Network.ofSnapshot s).basis,
      (Network.ofSnapshot s).groupRecords groups⟩ := by
    refine ⟨sortGroups
      (LinkAnalysis.components (Network.ofSnapshot s).adjacency), ?_, rfl⟩
    rw [components_ofSnapshot]
    exact List.mergeSort_perm _ _
  have hlength : ((Network.ofSnapshot s).groupRecords groups : List
          (GroupRecord ℚ)).length =
      (Network.ofSnapshot s).componentCountWithout [] := by
    rw [length_groupRecords, hperm.length_eq, length_componentsWithout hnet]
  refine ⟨_, hreport,
    { componentCount_eq := ?_
      componentCountBy_eq := fun huf => ?_
      isolatedCount_eq := (countP_size_groupRecords hperm).symm
      members_perm := ?_
      distance_isSome_iff := fun x hx y hy => ?_
      distance_lt := fun x y q d hq hd r hr hx => ?_
      shortest_comm := fun x y q hq => ?_
      density_eq := fun r hr => ?_
      sum_linkCountAmong_eq := sum_linkCountAmong_groupRecords hperm }⟩
  · rw [hlength]
    exact componentCountBy_ofSnapshot s Labels.lawful
  · rw [hlength]
    exact componentCountBy_ofSnapshot s huf
  · rw [flatMap_members_groupRecords]
    have hflatten :=
      hperm.flatten.trans (flatten_componentsWithout_perm hnet [])
    exact (hflatten.map _).trans (map_idOf_range_perm s)
  · rcases exists_idOf_eq hx with ⟨v, rfl⟩
    rcases exists_idOf_eq hy with ⟨w, rfl⟩
    rcases Analysis.exists_shortest_idOf config v w with ⟨q, hq, hdistance, -⟩
    refine ⟨q, hq, ?_⟩
    rw [exists_groupRecord_iff_reachable hperm, Option.isSome_iff_exists]
    simp only [hdistance, exists_and_left, exists_eq', and_true]
  · rcases Analysis.exists_nodes_of_shortest config hq with ⟨v, w, rfl, rfl⟩
    rcases Analysis.exists_shortest_idOf config v w with ⟨q', hq', hdistance, -⟩
    obtain rfl := Except.ok.inj (hq.symm.trans hq')
    rcases (hdistance d).mp hd with ⟨hreach, rfl⟩
    exact dist_lt_size_groupRecord hperm hr hx hreach
  · rcases Analysis.exists_nodes_of_shortest config hq with ⟨v, w, rfl, rfl⟩
    rcases Analysis.exists_shortest_idOf config v w
      with ⟨q', hq', hdistance, hcount⟩
    obtain rfl := Except.ok.inj (hq.symm.trans hq')
    rcases Analysis.exists_shortest_idOf config w v
      with ⟨back, hback, hdistanceBack, hcountBack⟩
    refine ⟨back, hback, ?_, ?_⟩
    · apply Option.ext
      intro d
      rw [hdistance, hdistanceBack, SimpleGraph.reachable_comm,
        SimpleGraph.dist_comm]
    · rw [hcount, hcountBack, SimpleGraph.shortestWalkCount_comm]
  · rcases (mem_groupRecords _ _).mp hr with ⟨position, group, hget, rfl⟩
    rw [density_groupRecord s position
      (lt_of_mem_group hperm (List.mem_of_getElem? hget)), GroupRecord.size,
      groupRecord, List.length_map]

end Reports

end LinkAnalysis
