import LinkAnalysis.Proofs.Community.Division

/-!
# The cuts of a network

Which link is cut next depends on the links that are left, and on nothing else:
a run reads its target and its budget only to decide whether to stop.  So all
runs on one network make the same cuts one after the other, and differ only in
how many of them they make.  A run stops at the first number of cuts that gives
it a reason to.
-/

namespace LinkAnalysis

open Network

namespace Network

section Cuts

variable (α : Type) [Score α] (net : Network)

/-- The link that is cut once these have been removed, if any is. -/
def nextCut? (removed : List Nat) : Option Nat :=
  match (accumulate .live (net.adjacencyOf (net.linksWithout removed))
    net.linkCount : Except Fault (Betweenness α)) with
  | .ok scores => selectLink? (net.linksWithout removed) scores.link
  | .error _ => none

/-- The first cuts, latest first: so many, or as many as there are. -/
def cuts : Nat → List Nat
  | 0 => []
  | k + 1 => (net.nextCut? α (cuts k)).toList ++ cuts k

/-- Why a run stops after so many cuts, if it does. -/
def haltReason? (target limit k : Nat) : Option StopReason :=
  if target ≤ (net.componentsWithout (net.cuts α k)).length then
    some .targetReached
  else if net.linksWithout (net.cuts α k) = [] then some .noStructure
  else if limit ≤ k then some .iterationCap
  else if net.nextCut? α (net.cuts α k) = none then some .noStructure
  else none

/-- So many cuts are the first that give a run a reason to stop. -/
structure HaltsAt (target limit k : Nat) (reason : StopReason) : Prop where
  reason_eq : net.haltReason? α target limit k = some reason
  goes_on : ∀ j < k, net.haltReason? α target limit j = none

/-- What is reported after so many cuts. -/
def partitionAfter (config : CommunityConfig) (k : Nat)
    (reason : StopReason) : Partition where
  communities := reported config (net.componentsWithout (net.cuts α k))
  stopReason := reason
  removed := (net.cuts α k).reverse
  componentCount := (net.componentsWithout (net.cuts α k)).length
  target := targetCommunities net.size config

end Cuts

variable {α : Type} [Score α] {net : Network}

theorem nextCut?_eq_some_iff {removed : List Nat} {e : Nat} :
    net.nextCut? α removed = some e ↔ ∃ scores : Betweenness α,
      accumulate .live (net.adjacencyOf (net.linksWithout removed))
          net.linkCount = .ok scores ∧
      selectLink? (net.linksWithout removed) scores.link = some e := by
  unfold nextCut?
  split
  case h_1 scores hscores => simp [hscores]
  case h_2 fault hfault => simp [hfault]

theorem mem_linksWithout_of_nextCut?
    {removed : List Nat} {e : Nat}
    (hcut : net.nextCut? α removed = some e) :
    e ∈ net.linksWithout removed := by
  obtain ⟨scores, -, hselect⟩ := nextCut?_eq_some_iff.mp hcut
  exact mem_of_selectLink? hselect

theorem nextCut?_congr
    {removed removed' : List Nat}
    (hsame : ∀ e, e ∈ removed ↔ e ∈ removed') :
    net.nextCut? α removed = net.nextCut? α removed' := by
  rw [nextCut?, linksWithout_congr hsame, nextCut?]

theorem cuts_succ_of_some
    {k e : Nat}
    (hcut : net.nextCut? α (net.cuts α k) = some e) :
    net.cuts α (k + 1) = e :: net.cuts α k := by
  rw [cuts, hcut, Option.toList_some, List.singleton_append]

theorem cuts_suffix_of_le {k k' : Nat} (hle : k ≤ k') :
    net.cuts α k <:+ net.cuts α k' := by
  induction k', hle using Nat.le_induction with
  | base => exact List.suffix_rfl
  | succ k' _ ih => exact ih.trans (List.suffix_append _ _)

theorem cuts_lt {k : Nat} : ∀ e ∈ net.cuts α k, e < net.linkCount := by
  induction k with
  | zero => simp [cuts]
  | succ k ih =>
      intro e he
      rcases List.mem_append.mp he with hnew | hold
      · exact (mem_linksWithout.mp
          (mem_linksWithout_of_nextCut? (Option.mem_toList.mp hnew))).1
      · exact ih e hold

theorem cuts_nodup (k : Nat) : (net.cuts α k).Nodup := by
  induction k with
  | zero => exact List.nodup_nil
  | succ k ih =>
      cases hnext : net.nextCut? α (net.cuts α k) with
      | none => rwa [cuts, hnext]
      | some e =>
          rw [cuts_succ_of_some hnext]
          exact List.nodup_cons.mpr
            ⟨(mem_linksWithout.mp (mem_linksWithout_of_nextCut? hnext)).2, ih⟩

theorem haltReason?_eq_none_iff {target limit k : Nat} :
    net.haltReason? α target limit k = none ↔
      (net.componentsWithout (net.cuts α k)).length < target ∧
        k < limit ∧
        ∃ e, net.nextCut? α (net.cuts α k) = some e := by
  unfold haltReason?
  split_ifs with henough hempty hlimit hnone
  · simp [henough]
  · refine iff_of_false (by simp) ?_
    rintro ⟨-, -, e, he⟩
    have := mem_linksWithout_of_nextCut? he
    simp [hempty] at this
  · simp [hlimit]
  · simp [hnone]
  · refine iff_of_true rfl ⟨Nat.lt_of_not_le henough,
      Nat.lt_of_not_le hlimit, ?_⟩
    exact Option.ne_none_iff_exists'.mp hnone

theorem haltReason?_eq_targetReached_iff {target limit k : Nat} :
    net.haltReason? α target limit k = some .targetReached ↔
      target ≤ (net.componentsWithout (net.cuts α k)).length := by
  unfold haltReason?
  split_ifs <;> simp_all

/-- A run that goes on also goes on with a larger target and a larger budget. -/
theorem haltReason?_eq_none_of_le
    {target target' limit limit' k : Nat}
    (htarget : target ≤ target')
    (hlimit : limit ≤ limit')
    (hhalt : net.haltReason? α target limit k = none) :
    net.haltReason? α target' limit' k = none := by
  rw [haltReason?_eq_none_iff] at hhalt ⊢
  exact ⟨hhalt.1.trans_le htarget, hhalt.2.1.trans_le hlimit, hhalt.2.2⟩

namespace HaltsAt

variable {target limit k : Nat} {reason : StopReason}

theorem exists_nextCut
    (hhalts : net.HaltsAt α target limit k reason)
    {j : Nat}
    (hj : j < k) :
    ∃ e, net.nextCut? α (net.cuts α j) = some e :=
  (haltReason?_eq_none_iff.mp (hhalts.goes_on j hj)).2.2

theorem le_limit (hhalts : net.HaltsAt α target limit k reason) :
    k ≤ limit := by
  cases k with
  | zero => exact Nat.zero_le limit
  | succ j =>
      exact (haltReason?_eq_none_iff.mp (hhalts.goes_on j
          (Nat.lt_succ_self j))).2.1

/-- A run with a larger target and a larger budget stops no earlier. -/
theorem le_of_le
    (hhalts : net.HaltsAt α target limit k reason)
    {target' limit' k' : Nat} {reason' : StopReason}
    (hhalts' : net.HaltsAt α target' limit' k' reason')
    (htarget : target ≤ target')
    (hlimit : limit ≤ limit') :
    k ≤ k' := by
  by_contra hlt
  have hnone := haltReason?_eq_none_of_le htarget hlimit
    (hhalts.goes_on k' (Nat.lt_of_not_le hlt))
  rw [hhalts'.reason_eq] at hnone
  exact Option.some_ne_none _ hnone

theorem unique
    (hhalts : net.HaltsAt α target limit k reason)
    {k' : Nat} {reason' : StopReason}
    (hhalts' : net.HaltsAt α target limit k' reason') :
    k = k' ∧ reason = reason' := by
  obtain rfl : k = k' :=
    le_antisymm (hhalts.le_of_le hhalts' le_rfl le_rfl)
      (hhalts'.le_of_le hhalts le_rfl le_rfl)
  exact ⟨rfl, Option.some.inj (hhalts.reason_eq.symm.trans hhalts'.reason_eq)⟩

theorem length_cuts
    (hhalts : net.HaltsAt α target limit k reason)
    {j : Nat}
    (hj : j ≤ k) :
    (net.cuts α j).length = j := by
  induction j with
  | zero => rfl
  | succ j ih =>
      obtain ⟨e, he⟩ := hhalts.exists_nextCut hj
      rw [cuts_succ_of_some he, List.length_cons, ih (Nat.le_of_succ_le hj)]

/-- The first removals of a run are the first cuts. -/
theorem take_reverse_cuts
    (hhalts : net.HaltsAt α target limit k reason)
    {j : Nat}
    (hj : j ≤ k) :
    (net.cuts α k).reverse.take j = (net.cuts α j).reverse := by
  obtain ⟨later, hlater⟩ : net.cuts α j <:+ net.cuts α k := cuts_suffix_of_le hj
  rw [← hlater, List.reverse_append,
    List.take_left' (by rw [List.length_reverse, hhalts.length_cuts hj])]

theorem getElem?_reverse_cuts
    (hhalts : net.HaltsAt α target limit k reason)
    {j e : Nat}
    (hget : (net.cuts α k).reverse[j]? = some e) :
    j < k ∧ net.nextCut? α (net.cuts α j) = some e := by
  have hj : j < k := by
    have hlt := (List.getElem?_eq_some_iff.mp hget).1
    rwa [List.length_reverse, hhalts.length_cuts le_rfl] at hlt
  obtain ⟨e', he'⟩ := hhalts.exists_nextCut hj
  have htake := hhalts.take_reverse_cuts (Nat.succ_le_of_lt hj)
  rw [cuts_succ_of_some he', List.take_add_one,
    hget, Option.toList_some, List.reverse_cons, hhalts.take_reverse_cuts hj.le,
    List.append_cancel_left_eq, List.singleton_inj] at htake
  exact ⟨hj, htake ▸ he'⟩

end HaltsAt

end Network

/-! ## Runs -/

namespace Division

variable {α : Type} [Score α] {net : Network} {target : Nat} {d : Division}

theorem Underway.remember_eq
    (hnet : SimpleEnds net.size net.ends)
    (hunderway : d.Underway net target) :
    d.remember (net.componentsWithout d.removed) =
      { d with best := net.componentsWithout d.removed } := by
  have hremaining := d.remember_remaining (net.componentsWithout d.removed)
  have hremoved := d.remember_removed (net.componentsWithout d.removed)
  have hbest := hunderway.best_remember hnet
  revert hremaining hremoved hbest
  cases d.remember (net.componentsWithout d.removed)
  rintro rfl rfl rfl
  rfl

theorem Underway.run_of_haltReason
    (hnet : SimpleEnds net.size net.ends)
    (hunderway : d.Underway net target)
    {k budget : Nat}
    (hremoved : d.removed = net.cuts α k)
    {reason : StopReason}
    (hreason : net.haltReason? α target (k + budget) k = some reason) :
    run α .live net target budget d =
      .ok ({ d with best := net.componentsWithout d.removed }, reason) := by
  have hscores := accumulate_live_eq (α := α)
    (net.adjacencyOf (net.linksWithout d.removed)) net.linkCount
  rw [hunderway.run_eq α, hunderway.remember_eq hnet]
  rw [haltReason?, ← hremoved] at hreason
  split_ifs at hreason ⊢ with henough hempty hlimit hnone
  · obtain rfl := Option.some.inj hreason
    rfl
  · obtain rfl := Option.some.inj hreason
    rfl
  · obtain rfl := Option.some.inj hreason
    obtain rfl : budget = 0 := by omega
    rfl
  · obtain rfl := Option.some.inj hreason
    obtain ⟨more, rfl⟩ : ∃ more, budget = more + 1 := ⟨budget - 1, by omega⟩
    simp only [nextCut?, hscores] at hnone
    simp only [hscores, bind, Except.bind, hnone]

theorem Underway.run_of_nextCut
    (hunderway : d.Underway net target)
    {more e : Nat}
    (hfew : (net.componentsWithout d.removed).length < target)
    (hnext : net.nextCut? α d.removed = some e) :
    run α .live net target (more + 1) d = run α .live net target more
      ((d.remember (net.componentsWithout d.removed)).cut e) := by
  obtain ⟨scores, hscores, hselect⟩ := nextCut?_eq_some_iff.mp hnext
  have hleft : net.linksWithout d.removed ≠ [] :=
    List.ne_nil_of_mem (mem_of_selectLink? hselect)
  rw [hunderway.run_eq α, if_neg (not_le.mpr hfew), if_neg hleft, hscores]
  simp only [bind, Except.bind, hselect]

/-- A run that has made so many cuts makes those that follow, up to the first
that give it a reason to stop. -/
theorem Underway.exists_run_eq_cuts
    (hnet : SimpleEnds net.size net.ends)
    (budget : Nat) {k : Nat}
    (hunderway : d.Underway net target)
    (hremoved : d.removed = net.cuts α k) :
    ∃ k' reason d',
      run α .live net target budget d = .ok (d', reason) ∧
      d'.removed = net.cuts α k' ∧
      d'.best = net.componentsWithout (net.cuts α k') ∧
      net.haltReason? α target (k + budget) k' = some reason ∧
      ∀ j, k ≤ j → j < k' → net.haltReason? α target (k + budget) j = none := by
  induction budget generalizing d k with
  | zero =>
      cases hreason : net.haltReason? α target (k + 0) k with
      | none =>
          exact absurd (haltReason?_eq_none_iff.mp hreason).2.1 (lt_irrefl k)
      | some reason =>
          exact ⟨k, reason, _, hunderway.run_of_haltReason hnet
            hremoved hreason, hremoved, by rw [← hremoved], hreason,
            fun j hj hj' => absurd hj' (not_lt.mpr hj)⟩
  | succ more ih =>
      cases hreason : net.haltReason? α target (k + (more + 1)) k with
      | some reason =>
          exact ⟨k, reason, _, hunderway.run_of_haltReason hnet
            hremoved hreason, hremoved, by rw [← hremoved], hreason,
            fun j hj hj' => absurd hj' (not_lt.mpr hj)⟩
      | none =>
          obtain ⟨hfew, -, e, hnext⟩ := haltReason?_eq_none_iff.mp hreason
          rw [← hremoved] at hfew hnext
          have he : e ∈ d.remaining := by
            rw [hunderway.remaining_eq]
            exact mem_linksWithout_of_nextCut? hnext
          have hcut :
              ((d.remember (net.componentsWithout d.removed)).cut e).removed =
                net.cuts α (k + 1) := by
            rw [cuts_succ_of_some (hremoved ▸ hnext), ← hremoved, Division.cut,
              remember_removed]
          obtain ⟨k', reason, d', hrun, hremoved', hbest, hhalt, hgoes⟩ :=
            ih (hunderway.cut hnet hfew he) hcut
          rw [Nat.add_right_comm] at hhalt hgoes
          refine ⟨k', reason, d', (hunderway.run_of_nextCut hfew hnext).trans
            hrun, hremoved', hbest, hhalt, fun j hj hj' => ?_⟩
          rcases hj.eq_or_lt with rfl | hj
          · exact hreason
          · exact hgoes j hj hj'

end Division

/-- Every run stops at the first number of cuts that gives it a reason to, and
reports what these have left. -/
theorem Network.exists_haltsAt
    (α : Type) [Score α] {net : Network}
    (hnet : SimpleEnds net.size net.ends)
    (config : CommunityConfig) :
    ∃ k reason,
      net.HaltsAt α (targetCommunities net.size config)
        (min net.linkCount config.maxIterations) k reason ∧
      detectCommunities α .live net config =
        .ok (net.partitionAfter α config k reason) := by
  obtain ⟨k, reason, d, hrun, hremoved, hbest, hhalt, hgoes⟩ :=
    (Division.underway_start net
      (targetCommunities net.size config)).exists_run_eq_cuts (α := α) hnet
      (min net.linkCount config.maxIterations) (k := 0) rfl
  rw [Nat.zero_add] at hhalt hgoes
  refine ⟨k, reason, ⟨hhalt, fun j hj => hgoes j (Nat.zero_le j) hj⟩, ?_⟩
  rw [detectCommunities, hrun, partitionAfter, ← hbest, ← hremoved]
  rfl

end LinkAnalysis
