import LinkAnalysis.Proofs.Route.Agreement
import LinkAnalysis.Proofs.Strict.Network

/-!
# Strict enumeration of routes

The enumeration looks up neighbours and sets marks for nodes of the present
route, and takes one turn after the other.  It gets stuck when its turns are
spent before it has come to an end.  A mark is one bit of a set: it can be set
within the bounds of the set only, but asked for everywhere.
-/

namespace LinkAnalysis

namespace Strict

def startSearch (n source : Nat) : Strict Search := do
  let onPath ← store (Array.replicate n false) source true
  return {
    frames := [⟨source, 0⟩]
    path := [source]
    onPath := onPath
    expansions := 0
    count := 0
    found := [] }

def retreat (s : Search) (node : Nat) : Strict Search := do
  let onPath ← store s.onPath node false
  return { s with
    frames := s.frames.tail
    path := s.path.tail
    onPath := onPath }

def advance (s : Search) (node : Nat) : Strict Search := do
  let onPath ← store s.onPath node true
  return { s with
    frames := ⟨node, 0⟩ :: s.frames
    path := node :: s.path
    onPath := onPath }

def enter (limits : PathConfig) (target next : Nat)
    (s : Search) : Strict Turn :=
  if s.onPath.getD next false then return .more s
  else if next = target then
    if s.count = limits.maxPaths then return .done s true
    else return .more (s.record target)
  else if s.path.length < limits.maxDepth then do
    let s ← advance s next
    return .more s
  else return .more s

def turn (signal : Signal) (adj : Adjacency) (limits : PathConfig)
    (target : Nat) (s : Search) : Strict Turn :=
  match s.frames with
  | [] => return .done s false
  | frame :: others => do
    let row ← neighbors adj frame.node
    match row[frame.cursor]? with
    | none =>
      let s ← retreat s frame.node
      return .more s
    | some (next, _) =>
      if limits.maxExpansions ≤ s.expansions then return .done s true
      else if (s.expansions + 1) % Search.pollInterval = 0 then
        poll signal
        enter limits target next (s.spend frame others)
      else enter limits target next (s.spend frame others)

def runSearch (signal : Signal) (adj : Adjacency) (limits : PathConfig)
    (target : Nat) : Nat → Search → Strict (Search × Bool)
  | 0, _ => .error .stuck
  | turns + 1, s => do
    match ← turn signal adj limits target s with
    | .done s truncated => return (s, truncated)
    | .more s => runSearch signal adj limits target turns s

def simplePaths (signal : Signal) (adj : Adjacency) (source target : Nat)
    (limits : PathConfig) : Strict Enumeration := do
  poll signal
  if source = target ∨ limits.maxDepth = 0 then return ⟨[], false, 0⟩
  else
    let s ← startSearch adj.size source
    let (s, truncated) ← runSearch signal adj limits target
        (Search.turnLimit limits) s
    return ⟨s.found.reverse.mergeSort shorterLe, truncated, s.expansions⟩

section Turns

variable {adj : Adjacency} {limits : PathConfig} {target : Nat} {s : Search}

theorem enter_eq {next : Nat} (hnext : next < s.onPath.size) :
    enter limits target next s = .ok (s.enter limits target next) := by
  rw [enter, Search.enter]
  by_cases hon : s.onPath.getD next false = true
  · rw [if_pos hon, if_pos hon]
    rfl
  · rw [if_neg hon, if_neg hon]
    by_cases htarget : next = target
    · rw [if_pos htarget, if_pos htarget]
      by_cases hcount : s.count = limits.maxPaths
      · rw [if_pos hcount, if_pos hcount]
        rfl
      · rw [if_neg hcount, if_neg hcount]
        rfl
    · rw [if_neg htarget, if_neg htarget]
      by_cases hdepth : s.path.length < limits.maxDepth
      · rw [if_pos hdepth, if_pos hdepth, advance, store_of_lt hnext]
        rfl
      · rw [if_neg hdepth, if_neg hdepth]
        rfl

theorem lt_of_mem_path
    (htracks : s.Tracks adj)
    {v : Nat}
    (hv : v ∈ s.path) :
    v < adj.size := by
  have hon := (htracks.onPath_iff v).mpr hv
  by_contra hge
  have hnone : s.onPath[v]? = none :=
    Array.getElem?_eq_none (by rw [htracks.size_onPath]; omega)
  rw [Array.getD_eq_getD_getElem?, hnone] at hon
  exact Bool.false_ne_true hon

theorem turn_eq
    (signal : Signal)
    (hclosed : adj.Closed)
    (htracks : s.Tracks adj) :
    turn signal adj limits target s =
      lift (s.turn signal adj limits target) := by
  rw [turn, Search.turn]
  cases hframes : s.frames with
  | nil => rfl
  | cons frame others =>
      have hmem : frame.node ∈ s.path := by
        rw [htracks.path_eq, hframes]
        exact List.mem_cons_self
      have hlt := lt_of_mem_path htracks hmem
      simp only [neighbors_of_lt hlt, ok_bind]
      cases hstep : (adj.neighbors frame.node)[frame.cursor]? with
      | none =>
          have hmark : frame.node < s.onPath.size := by
            rwa [htracks.size_onPath]
          simp only [retreat, store_of_lt hmark, ok_bind]
          rfl
      | some step =>
          have hnext : step.1 < (s.spend frame others).onPath.size := by
            have hsize : (s.spend frame others).onPath.size = adj.size :=
              htracks.size_onPath
            rw [hsize]
            exact hclosed frame.node step (Array.mem_of_getElem? hstep)
          simp only [enter_eq hnext]
          by_cases hbudget : limits.maxExpansions ≤ s.expansions
          · rw [if_pos hbudget, if_pos hbudget]
            rfl
          · have hexpansions :
                (s.spend frame others).expansions = s.expansions + 1 := rfl
            rw [if_neg hbudget, if_neg hbudget, hexpansions]
            by_cases hpoll : (s.expansions + 1) % Search.pollInterval = 0
            · rw [if_pos hpoll, if_pos hpoll]
              cases signal <;> rfl
            · rw [if_neg hpoll, if_neg hpoll]
              rfl

/-- The turns that are left do not run out. -/
theorem runSearch_live_eq
    (hclosed : adj.Closed)
    {turns : Nat}
    (htracks : s.Tracks adj)
    (hturns : s.turnsLeft limits ≤ turns) :
    runSearch .live adj limits target turns s =
      lift (s.run .live adj limits target turns) := by
  induction turns generalizing s with
  | zero => simp [Search.turnsLeft] at hturns
  | succ turns ih =>
      rcases Search.exists_turn_live adj limits target s with ⟨t, ht, hstep⟩
      rw [runSearch, turn_eq .live hclosed htracks, Search.run, ht]
      cases t with
      | more s' =>
          have hlt := hstep.turnsLeft_lt
          exact ih (htracks.next hclosed hstep) (by omega)
      | done s' truncated => rfl

end Turns

variable {adj : Adjacency} {source : Nat}

theorem simplePaths_eq
    (signal : Signal)
    (hclosed : adj.Closed)
    (hsource : source < adj.size)
    (target : Nat) (limits : PathConfig) :
    simplePaths signal adj source target limits =
      lift (LinkAnalysis.simplePaths signal adj source target limits) := by
  cases signal with
  | cancelled => rfl
  | live =>
      have hmark : source < (Array.replicate adj.size false).size := by
        rwa [Array.size_replicate]
      have hturns : (Search.start adj.size source).turnsLeft limits ≤
          Search.turnLimit limits := by
        simp [Search.turnsLeft, Search.turnLimit, Search.start]
      have hstart :
          startSearch adj.size source = .ok (Search.start adj.size source) := by
        rw [startSearch, store_of_lt hmark]
        rfl
      have hrun : runSearch .live adj limits target (Search.turnLimit limits)
            (Search.start adj.size source) =
          lift (Search.run .live adj limits target (Search.turnLimit limits)
            (Search.start adj.size source)) :=
        runSearch_live_eq hclosed (Search.Tracks.start hsource) hturns
      rw [simplePaths, LinkAnalysis.simplePaths]
      by_cases hnone : source = target ∨ limits.maxDepth = 0
      · rw [if_pos hnone, if_pos hnone]
        rfl
      · have hgo :
            (do
              let (s, truncated) ← runSearch .live adj limits target
                (Search.turnLimit limits) (Search.start adj.size source)
              return ⟨s.found.reverse.mergeSort shorterLe, truncated,
                s.expansions⟩ : Strict Enumeration) =
              lift (do
                let (s, truncated) ← Search.run .live adj limits target
                  (Search.turnLimit limits) (Search.start adj.size source)
                return ⟨s.found.reverse.mergeSort shorterLe, truncated,
                  s.expansions⟩) :=
          bind_eq_lift hrun fun _ _ => rfl
        rw [if_neg hnone, if_neg hnone, hstart]
        exact hgo

end Strict

/-! ## Nodes of routes -/

section Nodes

variable {adj : Adjacency} {source target : Nat}

theorem Adjacency.Route.lt_size
    (hclosed : adj.Closed)
    (hsource : source < adj.size)
    {route : List Nat}
    (hsimple : adj.Route source target route)
    {v : Nat}
    (hv : v ∈ route) :
    v < adj.size := by
  induction route generalizing source with
  | nil => exact absurd hv List.not_mem_nil
  | cons u rest ih =>
      rcases Adjacency.route_cons_iff.mp hsimple with ⟨rfl, hrest⟩
      rcases List.mem_cons.mp hv with rfl | hmem
      · exact hsource
      · rcases hrest with ⟨rfl, -⟩ | ⟨w, hw, hroute⟩
        · exact absurd hmem List.not_mem_nil
        · rcases Adjacency.mem_nextOf.mp hw with ⟨link, hlink⟩
          exact ih (hclosed _ _ hlink) hroute hmem

theorem lt_of_mem_simplePaths
    {signal : Signal} {limits : PathConfig} {e : Enumeration}
    (hclosed : adj.Closed)
    (hsource : source < adj.size)
    (he : simplePaths signal adj source target limits = .ok e)
    {route : List Nat}
    (hroute : route ∈ e.paths)
    {v : Nat}
    (hv : v ∈ route) :
    v < adj.size := by
  cases signal with
  | cancelled => exact nomatch he
  | live =>
      by_cases heq : source = target
      · have hnone :
            (.ok ⟨[], false, 0⟩ : Except Fault Enumeration) = .ok e := by
          rw [simplePaths, if_pos (Or.inl heq)] at he
          exact he
        rw [← Except.ok.inj hnone] at hroute
        exact absurd hroute List.not_mem_nil
      · rcases simplePaths_live hclosed hsource heq limits
          with ⟨e', found, he', hpaths, hfirst, -⟩
        have hsame : e = e' := Except.ok.inj (he.symm.trans he')
        rw [hsame, hpaths, List.mem_mergeSort] at hroute
        have hsimple := (Adjacency.mem_routesFrom.mp (hfirst.subset hroute)).1
        exact hsimple.toRoute.lt_size hclosed hsource hv

theorem Geodesics.lt_of_mem_routesTo
    {α : Type} [NatCast α] [Add α]
    (hclosed : adj.Closed)
    (hsource : source < adj.size)
    {limit : Nat} {route : List Nat}
    (hroute :
      route ∈ ((ofSource adj source : Geodesics α).routesTo target limit).1)
    {v : Nat}
    (hv : v ∈ route) :
    v < adj.size := by
  cases hdistance : (ofSource adj source : Geodesics α).distanceTo target with
  | none =>
      rw [routesTo, hdistance] at hroute
      exact absurd hroute List.not_mem_nil
  | some away =>
      by_cases hlimit : limit = 0
      · rw [routesTo, hdistance] at hroute
        simp [hlimit] at hroute
      · rw [routesTo_eq hdistance hlimit, List.mem_mergeSort] at hroute
        have hback := (mem_routesBack_ofSource hclosed hsource hdistance).mp
          (List.mem_of_mem_take hroute)
        exact hback.1.lt_size hclosed hsource hv

end Nodes

end LinkAnalysis
