import LinkAnalysis.Community.Detection
import LinkAnalysis.Proofs.Centrality.Accumulation
import LinkAnalysis.Proofs.Network.Removal

/-!
# Runs of division

Before a run looks at the components it remembers those of the look before.
Since components never become fewer, and stay what they were if they do not
become more, the components remembered after the look are always those of the
present graph.
-/

namespace LinkAnalysis

open Network

/-- A run before it looks at the components. -/
structure Division.Underway (net : Network) (target : Nat)
    (d : Division) : Prop where
  remaining_eq : d.remaining = net.linksWithout d.removed
  removed_nodup : d.removed.Nodup
  removed_lt : ∀ e ∈ d.removed, e < net.linkCount
  best_of_nil : d.removed = [] → d.best = []
  /-- What is remembered was found before the last removal, and was not
  enough. -/
  best_of_cons : ∀ e before, d.removed = e :: before →
    d.best = net.componentsWithout before ∧ d.best.length < target

/-- A run that has stopped after at most so many removals. -/
structure Division.Stopped (α : Type) [Score α] (net : Network)
    (target limit : Nat) (d : Division) (reason : StopReason) : Prop where
  removed_nodup : d.removed.Nodup
  removed_lt : ∀ e ∈ d.removed, e < net.linkCount
  best_eq : d.best = net.componentsWithout d.removed
  before_lt : ∀ e before,
    d.removed = e :: before → (net.componentsWithout before).length < target
  targetReached_iff : reason = .targetReached ↔ target ≤ d.best.length
  of_iterationCap : reason = .iterationCap →
    d.removed.length = limit ∧ net.linksWithout d.removed ≠ []
  of_noStructure : reason = .noStructure → net.linksWithout d.removed = [] ∨
    ∃ scores : Betweenness α,
      accumulate .live (net.adjacencyOf (net.linksWithout d.removed))
          net.linkCount = .ok scores ∧
      selectLink? (net.linksWithout d.removed) scores.link = none

theorem mem_of_selectLink?
    {α : Type} [Score α] {remaining : List Nat} {scores : Array α} {e : Nat}
    (hselect : selectLink? remaining scores = some e) :
    e ∈ remaining := by
  simp only [selectLink?] at hselect
  split at hselect
  · exact List.mem_of_find?_eq_some hselect
  · simp at hselect

namespace Division

variable {net : Network} {target : Nat} {d : Division}

theorem underway_start (net : Network) (target : Nat) :
    (start net.linkCount).Underway net target where
  remaining_eq := linksWithout_nil.symm
  removed_nodup := List.nodup_nil
  removed_lt := by simp [start]
  best_of_nil _ := rfl
  best_of_cons := by simp [start]

theorem Underway.mem_linksWithout_of_cons
    (hunderway : d.Underway net target)
    {e : Nat} {before : List Nat}
    (hremoved : d.removed = e :: before) :
    e ∈ net.linksWithout before := by
  have hnodup := hunderway.removed_nodup
  rw [hremoved] at hnodup
  exact mem_linksWithout.mpr
    ⟨hunderway.removed_lt e (by simp [hremoved]), (List.nodup_cons.mp hnodup).1⟩

/-- After a look the components remembered are those of the present graph. -/
theorem Underway.best_remember
    (hnet : SimpleEnds net.size net.ends)
    (hunderway : d.Underway net target) :
    (d.remember (net.componentsWithout d.removed)).best =
      net.componentsWithout d.removed := by
  unfold remember
  split
  case isTrue => rfl
  case isFalse hle =>
    cases hremoved : d.removed with
    | nil =>
        have hbest := hunderway.best_of_nil hremoved
        rw [hbest, hremoved] at hle
        rw [hbest]
        exact (List.eq_nil_of_length_eq_zero (by simpa using hle)).symm
    | cons e before =>
        obtain ⟨hbest, -⟩ := hunderway.best_of_cons e before hremoved
        have hmem := hunderway.mem_linksWithout_of_cons hremoved
        rw [hbest, hremoved, length_componentsWithout hnet,
          length_componentsWithout hnet] at hle
        have hcount := componentCountWithout_cons hnet hmem
        rw [hbest, componentsWithout_cons_of_count_eq hnet hmem (by omega)]

theorem remember_remaining (d : Division) (groups : List (List Nat)) :
    (d.remember groups).remaining = d.remaining := by
  unfold remember
  split <;> rfl

theorem remember_removed (d : Division) (groups : List (List Nat)) :
    (d.remember groups).removed = d.removed := by
  unfold remember
  split <;> rfl

theorem Underway.cut
    (hnet : SimpleEnds net.size net.ends)
    (hunderway : d.Underway net target)
    (hfew : (net.componentsWithout d.removed).length < target)
    {e : Nat}
    (he : e ∈ d.remaining) :
    ((d.remember (net.componentsWithout d.removed)).cut e).Underway net
      target := by
  rw [hunderway.remaining_eq, mem_linksWithout] at he
  have hbest := hunderway.best_remember hnet
  refine
    { remaining_eq := ?_
      removed_nodup := ?_
      removed_lt := ?_
      best_of_nil := by simp [Division.cut]
      best_of_cons := fun e' before heq => ?_ }
  · simp only [Division.cut, remember_remaining, remember_removed]
    rw [linksWithout_cons, hunderway.remaining_eq]
  · simp only [Division.cut, remember_removed]
    exact List.nodup_cons.mpr ⟨he.2, hunderway.removed_nodup⟩
  · simp only [Division.cut, remember_removed]
    exact List.forall_mem_cons.mpr ⟨he.1, hunderway.removed_lt⟩
  · simp only [Division.cut, remember_removed] at heq ⊢
    obtain ⟨rfl, rfl⟩ := List.cons.inj heq
    rw [hbest]
    exact ⟨rfl, hfew⟩

theorem Underway.before_lt
    (hunderway : d.Underway net target)
    (e : Nat) (before : List Nat)
    (hremoved : d.removed = e :: before) :
    (net.componentsWithout before).length < target := by
  obtain ⟨hbest, hlt⟩ := hunderway.best_of_cons e before hremoved
  rwa [hbest] at hlt

theorem Underway.stopped_of_le
    (α : Type) [Score α]
    (hunderway : d.Underway net target)
    (henough : target ≤ (net.componentsWithout d.removed).length)
    (limit : Nat) :
    ({ d with best := net.componentsWithout d.removed } : Division).Stopped α
      net target limit .targetReached where
  removed_nodup := hunderway.removed_nodup
  removed_lt := hunderway.removed_lt
  best_eq := rfl
  before_lt := hunderway.before_lt
  targetReached_iff := by simpa using henough
  of_iterationCap := by simp
  of_noStructure := by simp

theorem Underway.stopped_of_lt
    (α : Type) [Score α]
    (hnet : SimpleEnds net.size net.ends)
    (hunderway : d.Underway net target)
    (hfew : (net.componentsWithout d.removed).length < target)
    {limit : Nat} {reason : StopReason}
    (hreason : reason ≠ .targetReached)
    (hcap : reason = .iterationCap →
      d.removed.length = limit ∧ net.linksWithout d.removed ≠ [])
    (hnone : reason = .noStructure → net.linksWithout d.removed = [] ∨
      ∃ scores : Betweenness α,
        accumulate .live (net.adjacencyOf (net.linksWithout d.removed))
            net.linkCount = .ok scores ∧
        selectLink? (net.linksWithout d.removed) scores.link = none) :
    (d.remember (net.componentsWithout d.removed)).Stopped α net target
      limit reason := by
  have hbest := hunderway.best_remember hnet
  have hremoved := d.remember_removed (net.componentsWithout d.removed)
  exact
    { removed_nodup := by rw [hremoved]; exact hunderway.removed_nodup
      removed_lt := by rw [hremoved]; exact hunderway.removed_lt
      best_eq := by rw [hbest, hremoved]
      before_lt := by rw [hremoved]; exact hunderway.before_lt
      targetReached_iff := by simpa [hbest, hreason] using hfew
      of_iterationCap := by rw [hremoved]; exact hcap
      of_noStructure := by rw [hremoved]; exact hnone }

theorem Underway.run_eq
    (α : Type) [Score α]
    (hunderway : d.Underway net target)
    (budget : Nat) :
    run α .live net target budget d =
      if target ≤ (net.componentsWithout d.removed).length then
        .ok ({ d with best := net.componentsWithout d.removed }, .targetReached)
      else if net.linksWithout d.removed = [] then
        .ok (d.remember (net.componentsWithout d.removed), .noStructure)
      else
        (match budget with
        | 0 => .ok (d.remember (net.componentsWithout d.removed), .iterationCap)
        | more + 1 => do
          let scores : Betweenness α ←
            accumulate .live
              (net.adjacencyOf (net.linksWithout d.removed)) net.linkCount
          match selectLink? (net.linksWithout d.removed) scores.link with
          | none =>
              .ok (d.remember (net.componentsWithout d.removed), .noStructure)
          | some e =>
            run α .live net target more
              ((d.remember (net.componentsWithout d.removed)).cut e)) := by
  have hgroups : components (net.adjacencyOf d.remaining) =
      net.componentsWithout d.removed := by
    rw [hunderway.remaining_eq, componentsWithout]
  have hlive : (Signal.live.check : Except Fault Unit) = pure () := rfl
  cases budget with
  | zero =>
      rw [run]
      simp only [hlive, pure_bind, hgroups, remember_remaining]
      simp only [hunderway.remaining_eq, List.isEmpty_iff]
      split_ifs <;> rfl
  | succ more =>
      rw [run]
      simp only [hlive, pure_bind, hgroups, remember_remaining]
      simp only [hunderway.remaining_eq, List.isEmpty_iff]
      split_ifs <;> rfl

/-- Every run with a live token comes to a stop: the removals so far and the
budget left add up to the same number all along. -/
theorem exists_run_eq
    (α : Type) [Score α]
    (hnet : SimpleEnds net.size net.ends)
    (budget : Nat)
    (hunderway : d.Underway net target) :
    ∃ d' reason,
      run α .live net target budget d = .ok (d', reason) ∧
      d'.Stopped α net target (d.removed.length + budget) reason := by
  induction budget using Nat.strongRecOn generalizing d with
  | ind budget ih =>
      rw [hunderway.run_eq α]
      split
      case isTrue henough =>
        exact ⟨_, _, rfl, hunderway.stopped_of_le α henough _⟩
      case isFalse henough =>
        have hfew := Nat.lt_of_not_le henough
        split
        case isTrue hempty =>
          exact ⟨_, _, rfl, hunderway.stopped_of_lt α hnet hfew (by simp)
            (by simp) fun _ => Or.inl hempty⟩
        case isFalse hleft =>
          cases budget with
          | zero =>
              exact ⟨_, _, rfl, hunderway.stopped_of_lt α hnet hfew (by simp)
                (fun _ => ⟨rfl, hleft⟩) (by simp)⟩
          | succ more =>
              have hscores := accumulate_live_eq (α := α)
                (net.adjacencyOf (net.linksWithout d.removed)) net.linkCount
              rw [hscores]
              simp only [bind, Except.bind]
              split
              case h_1 hselect =>
                exact ⟨_, _, rfl, hunderway.stopped_of_lt α hnet hfew (by simp)
                  (by simp) fun _ => Or.inr ⟨_, hscores, hselect⟩⟩
              case h_2 e hselect =>
                have he : e ∈ d.remaining := by
                  rw [hunderway.remaining_eq]
                  exact mem_of_selectLink? hselect
                have hlength :
                    ((d.remember (net.componentsWithout d.removed)).cut
                            e).removed.length +
                        more = d.removed.length + (more + 1) := by
                  simp only [Division.cut, remember_removed, List.length_cons]
                  omega
                rw [← hlength]
                exact ih more (Nat.lt_succ_self more)
                  (hunderway.cut hnet hfew he)

end Division

/-! ## Partitions -/

/-- A partition that reports the components of what its removals have left. -/
structure Partition.Faithful (net : Network) (config : CommunityConfig)
    (p : Partition) : Prop where
  removed_nodup : p.removed.Nodup
  target_eq : p.target = targetCommunities net.size config
  /-- Every removed link was an edge, and added a component exactly if it was a
  bridge. -/
  removal : ∀ i e, p.removed[i]? = some e → ∃ a b : Fin net.size,
    net.ends[e]? = some (a.val, b.val) ∧
    (net.graphWithout (p.removed.take i)).Adj a b ∧
    (net.componentCountWithout (p.removed.take (i + 1)) =
        net.componentCountWithout (p.removed.take i) ∨
      net.componentCountWithout (p.removed.take (i + 1)) =
        net.componentCountWithout (p.removed.take i) + 1) ∧
    (net.componentCountWithout (p.removed.take (i + 1)) =
        net.componentCountWithout (p.removed.take i) + 1 ↔
      (net.graphWithout (p.removed.take i)).IsBridge s(a, b))
  communities_eq : p.communities =
    reported config (net.componentsWithout p.removed)
  componentCount_eq : p.componentCount =
    (net.componentsWithout p.removed).length
  componentCount_eq_card : p.componentCount =
    net.componentCountWithout p.removed
  /-- The target is hit exactly, and by the last removal. -/
  of_targetReached : p.stopReason = .targetReached →
    p.componentCount = max (net.componentCountWithout []) p.target ∧
      ∀ before e, p.removed = before ++ [e] → ∃ a b : Fin net.size,
        net.ends[e]? = some (a.val, b.val) ∧
        (net.graphWithout before).IsBridge s(a, b)
  of_iterationCap : p.stopReason = .iterationCap →
    p.componentCount < p.target ∧
      p.iterations = config.maxIterations ∧
      config.maxIterations < net.linkCount

section Faithful

variable {α : Type} [Score α] {net : Network} {target limit : Nat}
  {d : Division}
variable {reason : StopReason}

theorem Network.exists_adj_of_removed
    (hnet : SimpleEnds net.size net.ends)
    {removed : List Nat}
    (hnodup : removed.Nodup)
    (hlt : ∀ e ∈ removed, e < net.linkCount)
    {i e : Nat}
    (hget : removed[i]? = some e) :
    ∃ a b : Fin net.size,
      net.ends[e]? = some (a.val, b.val) ∧
      (net.graphWithout (removed.take i)).Adj a b ∧
      (net.componentCountWithout (removed.take (i + 1)) =
          net.componentCountWithout (removed.take i) ∨
        net.componentCountWithout (removed.take (i + 1)) =
          net.componentCountWithout (removed.take i) + 1) ∧
      (net.componentCountWithout (removed.take (i + 1)) =
          net.componentCountWithout (removed.take i) + 1 ↔
        (net.graphWithout (removed.take i)).IsBridge s(a, b)) := by
  have hsplit : removed.take (i + 1) = removed.take i ++ [e] := by
    rw [List.take_add_one, hget, Option.toList_some]
  have hnew : e ∉ removed.take i := by
    intro hmem
    have htake : (removed.take (i + 1)).Nodup :=
      (List.take_sublist _ _).nodup hnodup
    rw [hsplit] at htake
    exact (List.nodup_append.mp htake).2.2 e hmem e (by simp) rfl
  have hleft : e ∈ net.linksWithout (removed.take i) :=
    mem_linksWithout.mpr ⟨hlt e (List.mem_of_getElem? hget), hnew⟩
  have hcount : net.componentCountWithout (removed.take (i + 1)) =
      net.componentCountWithout (e :: removed.take i) :=
    componentCountWithout_congr fun x => by simp [hsplit, or_comm]
  obtain ⟨a, b, hab, hadj⟩ := exists_adj_of_mem_linksWithout hnet hleft
  rw [hcount]
  exact ⟨a, b, hab, hadj, componentCountWithout_cons hnet hleft,
    componentCountWithout_cons_eq_iff hnet hab hadj⟩

theorem Division.Stopped.length_best
    (hnet : SimpleEnds net.size net.ends)
    (hstopped : d.Stopped α net target limit reason) :
    d.best.length = net.componentCountWithout d.removed := by
  rw [hstopped.best_eq, length_componentsWithout hnet]

/-- The last removal before the target is reached adds the component that was
missing. -/
theorem Division.Stopped.last_removal
    (hnet : SimpleEnds net.size net.ends)
    (hstopped : d.Stopped α net target limit .targetReached)
    {e : Nat} {before : List Nat}
    (hremoved : d.removed = e :: before) :
    net.componentCountWithout before < target ∧
      d.best.length = target ∧
      ∃ a b : Fin net.size,
        net.ends[e]? = some (a.val, b.val) ∧
        (net.graphWithout before).IsBridge s(a, b) := by
  have hnodup := hstopped.removed_nodup
  rw [hremoved] at hnodup
  have hleft : e ∈ net.linksWithout before :=
    mem_linksWithout.mpr ⟨hstopped.removed_lt e (by simp [hremoved]),
      (List.nodup_cons.mp hnodup).1⟩
  have hbefore := hstopped.before_lt e before hremoved
  rw [length_componentsWithout hnet] at hbefore
  have henough := hstopped.targetReached_iff.mp rfl
  have hlength := hstopped.length_best hnet
  rw [hremoved] at hlength
  have hstep := componentCountWithout_cons hnet hleft
  obtain ⟨a, b, hab, hadj⟩ := exists_adj_of_mem_linksWithout hnet hleft
  refine ⟨hbefore, by omega, a, b, hab, ?_⟩
  exact (componentCountWithout_cons_eq_iff hnet hab hadj).mp (by omega)

theorem Division.Stopped.length_best_of_targetReached
    (hnet : SimpleEnds net.size net.ends)
    (hstopped : d.Stopped α net target limit .targetReached) :
    d.best.length = max (net.componentCountWithout []) target := by
  have henough := hstopped.targetReached_iff.mp rfl
  cases hremoved : d.removed with
  | nil =>
      have hlength := hstopped.length_best hnet
      rw [hremoved] at hlength
      omega
  | cons e before =>
      obtain ⟨hbefore, hexact, -⟩ := hstopped.last_removal hnet hremoved
      have hmono := componentCountWithout_nil_le net before
      omega

theorem Division.Stopped.limit_lt
    (hstopped : d.Stopped α net target limit .iterationCap) :
    d.removed.length = limit ∧ limit < net.linkCount := by
  obtain ⟨hlength, hleft⟩ := hstopped.of_iterationCap rfl
  have hsum := length_removed_add_length_linksWithout hstopped.removed_nodup
    hstopped.removed_lt
  have hpos := List.length_pos_iff.mpr hleft
  exact ⟨hlength, by omega⟩

end Faithful

/-- The communities that are reported are the components of the final graph, and
the target is hit exactly. -/
theorem detectCommunities_faithful
    (α : Type) [Score α] (s : Snapshot) (config : CommunityConfig) :
    ∃ p, detectCommunities α .live (Network.ofSnapshot s) config = .ok p ∧
      p.Faithful (Network.ofSnapshot s) config := by
  have hnet := simpleEnds_ofSnapshot s
  obtain ⟨d, reason, hrun, hstopped⟩ := Division.exists_run_eq α hnet
    (min (Network.ofSnapshot s).linkCount config.maxIterations)
    (Division.underway_start (Network.ofSnapshot s)
      (targetCommunities (Network.ofSnapshot s).size config))
  have hnodup : d.removed.reverse.Nodup :=
    List.nodup_reverse.mpr hstopped.removed_nodup
  have hlt : ∀ e ∈ d.removed.reverse, e < (Network.ofSnapshot s).linkCount :=
    fun e he =>
    hstopped.removed_lt e (List.mem_reverse.mp he)
  have hbest :
      (Network.ofSnapshot s).componentsWithout d.removed.reverse = d.best := by
    rw [hstopped.best_eq, componentsWithout_congr fun e => List.mem_reverse]
  refine ⟨_, by rw [detectCommunities, hrun]; rfl, ?_⟩
  refine
    { removed_nodup := hnodup
      target_eq := rfl
      removal := fun i e hget => exists_adj_of_removed hnet hnodup hlt hget
      communities_eq := ?_
      componentCount_eq := ?_
      componentCount_eq_card := ?_
      of_targetReached := ?_
      of_iterationCap := ?_ }
  · rw [hbest]
  · rw [hbest]
  · rw [hstopped.length_best hnet,
      componentCountWithout_congr fun e => List.mem_reverse]
  · rintro rfl
    refine ⟨hstopped.length_best_of_targetReached hnet,
      fun before e hremoved => ?_⟩
    have hreverse : d.removed = e :: before.reverse := by
      have := congrArg List.reverse hremoved
      simpa using this
    obtain ⟨-, -, a, b, hab, hbridge⟩ := hstopped.last_removal hnet hreverse
    rw [graphWithout_congr fun e => List.mem_reverse] at hbridge
    exact ⟨a, b, hab, hbridge⟩
  · rintro rfl
    obtain ⟨hlength, hlimit⟩ := hstopped.limit_lt
    have hfew : ¬ targetCommunities (Network.ofSnapshot s).size config ≤
        d.best.length := by
      rw [← hstopped.targetReached_iff]
      simp
    have hstart :
        (Division.start (Network.ofSnapshot s).linkCount).removed.length = 0 :=
      rfl
    refine ⟨Nat.lt_of_not_le hfew, ?_, by omega⟩
    rw [Partition.iterations, List.length_reverse]
    omega

end LinkAnalysis
