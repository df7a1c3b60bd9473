import LinkAnalysis.Proofs.Report.Communities
import LinkAnalysis.Proofs.Strict.Betweenness
import LinkAnalysis.Proofs.Strict.Components

/-!
# Strict division

Every removal builds the network of the remaining links anew, and looks up the
scores of these links and the keys of those that are tied.
-/

namespace LinkAnalysis

theorem detectCommunities_cancelled
    (α : Type) [Score α] (net : Network) (config : CommunityConfig) :
    detectCommunities α .cancelled net config = .error .cancelled := by
  rw [detectCommunities]
  cases min net.linkCount config.maxIterations with
  | zero => rfl
  | succ more => rfl

namespace Strict

def targetCommunities (n : Nat) (config : CommunityConfig) : Strict Nat := do
  require (max config.nodesPerCommunity 1 ≠ 0)
  return LinkAnalysis.targetCommunities n config

section Selection

variable {α : Type} [Score α]

def largestScore (scores : Array α) (remaining : List Nat) : Strict α :=
  remaining.foldlM (fun most e => do
    let score ← fetch scores e
    return Score.larger most score) Score.zero

def selectLink (net : Network) (remaining : List Nat) (scores : Array α) :
    Strict (Option Nat) := do
  let most ← largestScore scores remaining
  if Score.isFinite most && !decide (most ≤ Score.zero) then
    let tied ← remaining.filterM fun e => do
      let score ← fetch scores e
      return decide (most - tieWidth * Score.larger most Score.one ≤ score)
    let _ ← tied.mapM (fetch net.links)
    return tied.head?
  else return none

variable {net : Network} {remaining : List Nat} {scores : Array α}

theorem largestScore_eq (hremaining : ∀ e ∈ remaining, e < scores.size) :
    largestScore scores remaining =
      .ok (LinkAnalysis.largestScore scores remaining) := by
  have hstep : ∀ most : α, True → ∀ e ∈ remaining,
      (do
        let score ← fetch scores e
        return Score.larger most score) =
          .ok (Score.larger most (scores.getD e Score.zero)) ∧ True := by
    intro most _ e he
    rw [fetch_of_lt (hremaining e he) Score.zero]
    exact ⟨rfl, trivial⟩
  exact (foldlM_eq_ok hstep Score.zero trivial).1

theorem selectLink_eq
    (hscores : ∀ e ∈ remaining, e < scores.size)
    (hlinks : ∀ e ∈ remaining, e < net.links.size) :
    selectLink net remaining scores = .ok (selectLink? remaining scores) := by
  have htied : ∀ floor : α,
      (remaining.filterM fun e => do
        let score ← fetch scores e
        return decide (floor ≤ score)) =
      .ok (remaining.filter fun e =>
        decide (floor ≤ scores.getD e Score.zero)) := by
    intro floor
    apply filterM_eq_ok
    intro e he
    rw [fetch_of_lt (hscores e he) Score.zero]
    rfl
  have hkeys : ∀ floor : α,
      (remaining.filter fun e =>
        decide (floor ≤ scores.getD e Score.zero)).mapM (fetch net.links) =
      .ok ((remaining.filter fun e =>
        decide (floor ≤ scores.getD e Score.zero)).map fun e =>
          net.links.getD e ⟨0, 0, ""⟩) := by
    intro floor
    exact mapM_eq_ok fun e he =>
      fetch_of_lt (hlinks e (List.mem_of_mem_filter he)) _
  rw [selectLink, largestScore_eq hscores, ok_bind, selectLink?]
  by_cases hmost :
    (Score.isFinite (LinkAnalysis.largestScore scores remaining) &&
    !decide (LinkAnalysis.largestScore scores remaining ≤ Score.zero)) = true
  · simp only [if_pos hmost, htied, hkeys, ok_bind, List.head?_filter]
    rfl
  · simp only [if_neg hmost]
    rfl

end Selection

section Division

variable (α : Type) [Score α]

/-- Look at the components that the remaining links leave, and go on unless they
or the lack of links end the run. -/
def look (signal : Signal) (net : Network) (target : Nat) (d : Division)
    (goOn : Adjacency → Division → Strict (Division × StopReason)) :
    Strict (Division × StopReason) := do
  poll signal
  let adj ← ofEnds net.size net.ends d.remaining
  let groups ← components adj
  if target ≤ groups.length then
    return ({ d with best := groups }, .targetReached)
  else if d.remaining = [] then return (d.remember groups, .noStructure)
  else goOn adj (d.remember groups)

def runDivision (signal : Signal) (net : Network) (target : Nat) :
    Nat → Division → Strict (Division × StopReason)
  | 0, d => look signal net target d fun _ d => return (d, .iterationCap)
  | more + 1, d => look signal net target d fun adj d => do
    let scores : Betweenness α ← accumulate signal adj net.linkCount
    let selected ← selectLink net d.remaining scores.link
    match selected with
    | none => return (d, .noStructure)
    | some e => runDivision signal net target more (d.cut e)

def detectCommunities (signal : Signal) (net : Network)
    (config : CommunityConfig) : Strict Partition := do
  let target ← targetCommunities net.size config
  let budget := min net.linkCount config.maxIterations
  let (d, stopReason) ← runDivision α signal net target budget
      (Division.start net.linkCount)
  return {
    communities := reported config d.best
    stopReason := stopReason
    removed := d.removed.reverse
    componentCount := d.best.length
    target := target }

variable {net : Network} {target : Nat} {d : Division}

theorem look_live_eq
    (hnet : SimpleEnds net.size net.ends)
    (hunderway : d.Underway net target)
    (goOn : Adjacency → Division → Strict (Division × StopReason)) :
    look .live net target d goOn =
      if target ≤ (net.componentsWithout d.removed).length then
        .ok ({ d with best := net.componentsWithout d.removed }, .targetReached)
      else if net.linksWithout d.removed = [] then
        .ok (d.remember (net.componentsWithout d.removed), .noStructure)
      else
        goOn (net.adjacencyOf (net.linksWithout d.removed))
          (d.remember (net.componentsWithout d.removed)) := by
  have hrange := hnet.inRange (net.activeLinks_linksWithout d.removed)
  have hadjacency : ofEnds net.size net.ends (net.linksWithout d.removed) =
      .ok (net.adjacencyOf (net.linksWithout d.removed)) := ofEnds_eq hrange
  have hgroups : components (net.adjacencyOf (net.linksWithout d.removed)) =
      .ok (net.componentsWithout d.removed) := components_eq hrange.closed
  have hlive : poll .live = .ok () := rfl
  rw [look, hlive, ok_bind, hunderway.remaining_eq, hadjacency,
    ok_bind, hgroups]
  rfl

theorem runDivision_live_eq
    (hnet : SimpleEnds net.size net.ends)
    (hunderway : d.Underway net target)
    (budget : Nat) :
    runDivision α .live net target budget d =
      lift (Division.run α .live net target budget d) := by
  induction budget generalizing d with
  | zero =>
      rw [runDivision, look_live_eq hnet hunderway, hunderway.run_eq α]
      split_ifs <;> rfl
  | succ more ih =>
      have hbounded : (net.adjacencyOf (net.linksWithout d.removed)).Bounded
          net.linkCount := by
        have hends :=
          Adjacency.bounded_ofEnds hnet (net.activeLinks_linksWithout d.removed)
        rwa [net.size_ends] at hends
      have hlinks : ∀ e ∈ net.linksWithout d.removed, e < net.linkCount :=
        fun e he => (Network.mem_linksWithout.mp he).1
      have hscores := accumulate_eq (α := α) .live hbounded
      rw [runDivision, look_live_eq hnet hunderway, hunderway.run_eq α]
      by_cases henough : target ≤ (net.componentsWithout d.removed).length
      · rw [if_pos henough, if_pos henough]
        rfl
      · by_cases hempty : net.linksWithout d.removed = []
        · rw [if_neg henough, if_neg henough, if_pos hempty, if_pos hempty]
          rfl
        · rw [if_neg henough, if_neg henough, if_neg hempty, if_neg hempty]
          apply bind_eq_lift hscores.1
          intro scores hok
          have hselect :
              selectLink net (net.linksWithout d.removed) scores.link =
                .ok (selectLink? (net.linksWithout d.removed) scores.link) :=
            selectLink_eq (fun e he =>
              (hlinks e he).trans_eq (hscores.2 scores hok).2.symm) hlinks
          rw [Division.remember_remaining, hunderway.remaining_eq,
            hselect, ok_bind]
          cases hselected : selectLink? (net.linksWithout d.removed) scores.link
            with
          | none => rfl
          | some e =>
              have he : e ∈ d.remaining := by
                rw [hunderway.remaining_eq]
                exact mem_of_selectLink? hselected
              exact ih (hunderway.cut hnet (not_le.mp henough) he)

theorem detectCommunities_eq
    (hnet : SimpleEnds net.size net.ends)
    (signal : Signal) (config : CommunityConfig) :
    detectCommunities α signal net config =
      lift (LinkAnalysis.detectCommunities α signal net config) := by
  have hshare : max config.nodesPerCommunity 1 ≠ 0 := by omega
  have htarget : targetCommunities net.size config =
      .ok (LinkAnalysis.targetCommunities net.size config) := by
    rw [targetCommunities, require_of hshare]
    rfl
  rw [detectCommunities, htarget, ok_bind, LinkAnalysis.detectCommunities]
  cases signal with
  | cancelled =>
      cases min net.linkCount config.maxIterations with
      | zero => rfl
      | succ more => rfl
  | live =>
      exact bind_eq_lift (runDivision_live_eq α hnet
        (Division.underway_start net _) _) fun _ _ => rfl

/-- The removed links and the members of the communities are there to be looked
up. -/
theorem lt_of_detectCommunities
    {s : Snapshot} {signal : Signal} {config : CommunityConfig} {p : Partition}
    (hdetected : LinkAnalysis.detectCommunities α signal
        (Network.ofSnapshot s) config = .ok p) :
    (∀ e ∈ p.removed, e < (Network.ofSnapshot s).linkCount) ∧
      ∀ group ∈ p.communities, ∀ v ∈ group,
        v < (Network.ofSnapshot s).size := by
  cases signal with
  | cancelled =>
      rw [detectCommunities_cancelled] at hdetected
      exact nomatch hdetected
  | live =>
      rcases exists_detectCommunities_eq α s config
        with ⟨removed, reason, count, -, hlt, hdetect⟩
      have hp :=
        Except.ok.inj
          (hdetected.symm.trans (hdetect config.minSize config.maxCommunities))
      rw [hp]
      refine ⟨hlt, fun group hgroup v hv => ?_⟩
      exact lt_of_mem_flatten_reported (Network.simpleEnds_ofSnapshot s) removed
        config (List.mem_flatten.mpr ⟨group, hgroup, hv⟩)

end Division

end Strict

end LinkAnalysis
