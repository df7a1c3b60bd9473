import LinkAnalysis.Proofs.Route.Enumeration
import LinkAnalysis.Proofs.Strict.Routes
import Mathlib

/-!
# The loop of the search for routes

The frames, the path and the marks are three records of one route.  Whenever a
turn begins they agree, and the route is a path of the graph that the frames
have been led along by their cursors.  A turn goes back from a node, or makes
the first of the attempts that are left to the frames.  So the turns come to an
end by what is left of an exhaustive search, whatever the budgets are.
-/

namespace LinkAnalysis

namespace Search

/-- The searches at which a turn begins, after so many turns.  Every turn may
see another signal. -/
inductive AtHead (adj : Adjacency) (limits : PathConfig)
    (source target : Nat) : Nat → Search → Prop
  | start : AtHead adj limits source target 0 (Search.start adj.size source)
  | next {turns : Nat} {s s' : Search} (signal : Signal)
      (hhead : AtHead adj limits source target turns s)
      (hturn : s.turn signal adj limits target = .ok (.more s')) :
      AtHead adj limits source target (turns + 1) s'

/-- What a loop comes to whose last turn begins at this search. -/
inductive Ends (signal : Signal) (adj : Adjacency) (limits : PathConfig)
    (target : Nat) (s : Search) : Except Fault (Search × Bool) → Prop
  | done {last : Search} {truncated : Bool}
      (hturn : s.turn signal adj limits target = .ok (.done last truncated)) :
      Ends signal adj limits target s (.ok (last, truncated))
  | refused {fault : Fault}
      (hturn : s.turn signal adj limits target = .error fault) :
      Ends signal adj limits target s (.error fault)

variable {adj : Adjacency} {limits : PathConfig} {source target turns : Nat}
  {s s' : Search}

/-- A signal can stop a turn, and has no other influence on it. -/
theorem turn_live_eq
    {signal : Signal} {t : Turn}
    (hturn : s.turn signal adj limits target = .ok t) :
    s.turn .live adj limits target = .ok t := by
  cases signal with
  | live => exact hturn
  | cancelled =>
      rw [turn] at hturn ⊢
      cases hframes : s.frames with
      | nil => rwa [hframes] at hturn
      | cons frame others =>
          simp only [hframes] at hturn ⊢
          cases hstep : (adj.neighbors frame.node)[frame.cursor]? with
          | none => rwa [hstep] at hturn
          | some step =>
              simp only [hstep] at hturn ⊢
              by_cases hbudget : limits.maxExpansions ≤ s.expansions
              · rwa [if_pos hbudget] at hturn ⊢
              · rw [if_neg hbudget] at hturn ⊢
                by_cases hpoll : (s.spend frame others).expansions %
                  pollInterval = 0
                · rw [if_pos hpoll] at hturn
                  cases hturn
                · rwa [if_neg hpoll] at hturn ⊢

theorem steps_of_turn_eq
    {signal : Signal} {t : Turn}
    (hturn : s.turn signal adj limits target = .ok t) :
    Steps adj limits target s t := by
  obtain ⟨t', hlive, hsteps⟩ := exists_turn_live adj limits target s
  rwa [Except.ok.inj ((turn_live_eq hturn).symm.trans hlive)]

/-! ## The invariant -/

/-- The upper frame was opened by the step that the lower one took last. -/
def Opened (adj : Adjacency) (upper lower : Frame) : Prop :=
  ∃ tried, lower.cursor = tried + 1 ∧
    (adj.nextOf lower.node)[tried]? = some upper.node

/-- What a turn keeps: frames lead from the source on, not as far as the
target. -/
structure Leads (adj : Adjacency) (limits : PathConfig) (source target : Nat)
    (s : Search) : Prop extends Tracks adj s where
  opened : s.frames.IsChain (Opened adj)
  getLast_eq : ∀ v ∈ s.path.getLast?, v = source
  target_notMem : target ∉ s.path
  length_le : s.path.length ≤ limits.maxDepth

namespace Leads

theorem start
    (hsource : source < adj.size)
    (hne : source ≠ target)
    (hdepth : 1 ≤ limits.maxDepth) :
    Leads adj limits source target (Search.start adj.size source) where
  toTracks := Tracks.start hsource
  opened := List.isChain_singleton _
  getLast_eq := fun v hv => (Option.some.inj hv).symm
  target_notMem := by simpa [Search.start] using hne.symm
  length_le := hdepth

/-- What a frame was opened by does not depend on its own cursor. -/
theorem opened_spend
    (hleads : Leads adj limits source target s)
    {frame : Frame} {others : List Frame}
    (hframes : s.frames = frame :: others) :
    (s.spend frame others).frames.IsChain (Opened adj) := by
  have hopened := hleads.opened
  rw [hframes, List.isChain_cons] at hopened
  exact List.isChain_cons.mpr hopened

theorem next
    (hleads : Leads adj limits source target s)
    (hclosed : adj.Closed)
    (hstep : Steps adj limits target s (.more s')) :
    Leads adj limits source target s' := by
  have htracks := hleads.toTracks.next hclosed hstep
  cases hstep with
  | @retreat frame others hframes hnone =>
      have htail : (s.retreat frame.node).path <:+ s.path :=
        List.tail_suffix s.path
      refine ⟨htracks, hleads.opened.tail,
        fun v hv => ?_, fun hmem => hleads.target_notMem (htail.mem hmem),
        htail.length_le.trans hleads.length_le⟩
      obtain ⟨front, hfront⟩ := htail
      exact hleads.getLast_eq v
        (hfront ▸ List.mem_getLast?_append_of_mem_getLast? hv)
  | @enter frame others next _ hframes hnext _ henters =>
      have hopened := hleads.opened_spend hframes
      cases henters with
      | skip _ =>
          exact ⟨htracks, hopened, hleads.getLast_eq, hleads.target_notMem,
            hleads.length_le⟩
      | record _ _ _ =>
          exact ⟨htracks, hopened, hleads.getLast_eq, hleads.target_notMem,
            hleads.length_le⟩
      | bound _ _ _ =>
          exact ⟨htracks, hopened, hleads.getLast_eq, hleads.target_notMem,
            hleads.length_le⟩
      | advance _ hne hdepth =>
          have hlast : (next :: s.path).getLast? = s.path.getLast? := by
            rw [hleads.path_eq, hframes]
            exact List.getLast?_cons_of_ne_nil (List.cons_ne_nil _ _)
          refine ⟨htracks, ?_, fun v hv => ?_, ?_, hdepth⟩
          · exact List.isChain_cons_cons.mpr ⟨⟨frame.cursor, rfl, hnext⟩,
              hopened⟩
          · exact hleads.getLast_eq v (hlast ▸ hv)
          · exact fun hmem => (List.mem_cons.mp hmem).elim
              (fun heq => hne heq.symm) hleads.target_notMem

theorem atHead
    (hclosed : adj.Closed)
    (hsource : source < adj.size)
    (hne : source ≠ target)
    (hdepth : 1 ≤ limits.maxDepth)
    (hhead : AtHead adj limits source target turns s) :
    Leads adj limits source target s := by
  induction hhead with
  | start => exact start hsource hne hdepth
  | next signal _ hturn ih => exact ih.next hclosed (steps_of_turn_eq hturn)

theorem isChain_path (hleads : Leads adj limits source target s) :
    s.path.IsChain fun w v => w ∈ adj.nextOf v := by
  rw [hleads.path_eq, List.isChain_map]
  exact hleads.opened.imp fun upper lower ⟨_, _, hstep⟩ =>
    List.mem_of_getElem? hstep

/-- The path, turned around, leads from the source to the node of the last
frame. -/
theorem simpleRoute
    (hleads : Leads adj limits source target s)
    {v : Nat} {others : List Nat}
    (hpath : s.path = v :: others) :
    adj.SimpleRoute source v s.path.reverse := by
  refine ⟨⟨?_, ?_, List.isChain_reverse.mpr hleads.isChain_path⟩,
    List.nodup_reverse.mpr hleads.path_nodup⟩
  · have hne : s.path ≠ [] := hpath ▸ List.cons_ne_nil _ _
    rw [List.head?_reverse, List.getLast?_eq_some_getLast hne,
      hleads.getLast_eq _ (List.getLast?_eq_some_getLast hne)]
  · rw [List.getLast?_reverse, hpath]
    rfl

end Leads

/-! ## Coming to an end -/

/-- A bound for the turns to come that knows of no budgets: each of them makes
an attempt that is left or goes back from a frame. -/
def turnsAhead (adj : Adjacency) (target depth : Nat) (s : Search) : Nat :=
  2 * (attemptsLeft adj target depth s.frames).length + s.frames.length

theorem Steps.length_frames (hstep : Steps adj limits target s (.more s')) :
    s'.expansions = s.expansions ∧ s'.frames.length + 1 = s.frames.length ∨
      s'.expansions = s.expansions + 1 ∧
        s'.frames.length ≤ s.frames.length + 1 := by
  cases hstep with
  | retreat hframes _ =>
      refine Or.inl ⟨rfl, ?_⟩
      rw [Search.retreat, hframes]
      rfl
  | enter hframes _ _ henters =>
      refine Or.inr ?_
      cases henters <;>
        simp [Search.spend, Search.record, Search.advance, hframes]

theorem Steps.turnsAhead_lt
    (htracks : Tracks adj s)
    (hstep : Steps adj limits target s (.more s')) :
    s'.turnsAhead adj target limits.maxDepth <
      s.turnsAhead adj target limits.maxDepth := by
  have hframes := hstep.length_frames
  unfold turnsAhead
  cases hstep.progress htracks with
  | back hleft _ hspent =>
      rw [hleft]
      omega
  | miss hleft _ hspent _ =>
      rw [hleft, List.length_cons]
      omega
  | complete hleft _ hspent _ _ =>
      rw [hleft, List.length_cons]
      omega

/-- The turns taken and those ahead are never more than those of an exhaustive
search. -/
theorem AtHead.add_turnsAhead_le
    (hclosed : adj.Closed)
    (hsource : source < adj.size)
    (hhead : AtHead adj limits source target turns s) :
    turns + s.turnsAhead adj target limits.maxDepth ≤
        (Search.start adj.size source).turnsAhead adj target limits.maxDepth ∧
      Tracks adj s := by
  induction hhead with
  | start => exact ⟨(Nat.zero_add _).le, Tracks.start hsource⟩
  | next signal _ hturn ih =>
      obtain ⟨hle, htracks⟩ := ih
      have hstep := steps_of_turn_eq hturn
      have hless := hstep.turnsAhead_lt htracks
      exact ⟨by omega, htracks.next hclosed hstep⟩

theorem turnsAhead_start {n depth : Nat} (hdepth : 1 ≤ depth) :
    (Search.start n source).turnsAhead adj target depth =
      2 * (adj.attemptsFrom target source depth).length + 1 := by
  cases depth with
  | zero => exact absurd hdepth (by decide)
  | succ depth =>
      simp [turnsAhead, attemptsLeft, Search.start, Adjacency.attemptsFrom]

/-- The turns that a run is allowed suffice for its last turn. -/
theorem AtHead.exists_ends
    (signal : Signal)
    (hhead : AtHead adj limits source target turns s)
    {allowed : Nat}
    (hallowed : s.turnsLeft limits ≤ allowed) :
    ∃ turns last,
      AtHead adj limits source target turns last ∧
      Ends signal adj limits target last
        (s.run signal adj limits target allowed) := by
  induction allowed generalizing turns s with
  | zero => simp [turnsLeft] at hallowed
  | succ allowed ih =>
      rw [run]
      cases hturn : s.turn signal adj limits target with
      | error fault => exact ⟨turns, s, hhead, .refused hturn⟩
      | ok t =>
          cases t with
          | done last truncated => exact ⟨turns, s, hhead, .done hturn⟩
          | more s' =>
              have hless := (steps_of_turn_eq hturn).turnsLeft_lt
              exact ih (.next signal hhead hturn) (by omega)

end Search

/-! ## The search in a network -/

/-- What holds when a turn begins in the search for routes from a node of a
network. -/
structure Search.HeadInvariant (s : Snapshot) (limits : PathConfig)
    (u : Fin (Network.ofSnapshot s).size) (target : Nat)
    (head : Search) : Prop where
  path_eq : head.path = head.frames.map Frame.node
  /-- There is a mark for every node, and just those on the path are set. -/
  size_onPath : head.onPath.size = (Network.ofSnapshot s).size
  onPath_iff : ∀ v, head.onPath.getD v false = true ↔ v ∈ head.path
  /-- Unless the search has gone back from its start, the path is one of the
  graph. -/
  exists_isPath : head.frames ≠ [] → ∃ (v : Fin (Network.ofSnapshot s).size)
      (p : (Network.ofSnapshot s).wholeGraph.Walk u v),
    p.IsPath ∧ p.support.map Fin.val = head.path.reverse
  target_notMem : target ∉ head.path
  length_le : head.path.length ≤ limits.maxDepth
  opened : head.frames.IsChain (Search.Opened (Network.ofSnapshot s).adjacency)
  /-- A turn that must not look beyond the end of an array comes to the same. -/
  turn_eq : ∀ signal,
    Strict.turn signal (Network.ofSnapshot s).adjacency limits target head =
      Strict.lift
        (head.turn signal (Network.ofSnapshot s).adjacency limits target)

theorem Search.Leads.headInvariant
    {s : Snapshot} {limits : PathConfig} {u : Fin (Network.ofSnapshot s).size}
    {target : Nat} {head : Search}
    (hleads : head.Leads (Network.ofSnapshot s).adjacency limits u target) :
    head.HeadInvariant s limits u target where
  path_eq := hleads.path_eq
  size_onPath := hleads.size_onPath.trans (Network.size_adjacency_ofSnapshot s)
  onPath_iff := hleads.onPath_iff
  exists_isPath hne := by
    obtain ⟨frame, others, hframes⟩ := List.exists_cons_of_ne_nil hne
    have hpath : head.path = frame.node :: others.map Frame.node := by
      rw [hleads.path_eq, hframes, List.map_cons]
    have hlt : frame.node < (Network.ofSnapshot s).adjacency.size :=
      Strict.lt_of_mem_path hleads.toTracks (hpath ▸ List.mem_cons_self)
    rw [Network.size_adjacency_ofSnapshot] at hlt
    exact ⟨⟨frame.node, hlt⟩,
      Network.simpleRoute_ofSnapshot_iff.mp (hleads.simpleRoute hpath)⟩
  target_notMem := hleads.target_notMem
  length_le := hleads.length_le
  opened := hleads.opened
  turn_eq signal := Strict.turn_eq signal
    (Network.closed_adjacency_ofSnapshot s) hleads.toTracks

/-- Whenever a turn begins the invariant holds, and there are not more turns
than an exhaustive search takes, whatever the budgets are.  A run ends with a
turn that ends the search. -/
theorem search_invariant_and_ends
    (s : Snapshot) {u : Fin (Network.ofSnapshot s).size} {target : Nat}
    (hne : u.val ≠ target)
    {limits : PathConfig}
    (hdepth : 1 ≤ limits.maxDepth) :
    (∀ turns head,
        Search.AtHead (Network.ofSnapshot s).adjacency limits u target turns
          head →
        head.HeadInvariant s limits u target ∧
        turns ≤
          2 * ((Network.ofSnapshot s).adjacency.attemptsFrom target u
            limits.maxDepth).length + 1) ∧
      ∀ signal, ∃ turns last,
        Search.AtHead (Network.ofSnapshot s).adjacency limits u target
          turns last ∧
        last.Ends signal (Network.ofSnapshot s).adjacency limits target
          (Search.run signal (Network.ofSnapshot s).adjacency limits target
            (Search.turnLimit limits)
            (Search.start (Network.ofSnapshot s).adjacency.size u)) := by
  have hclosed := Network.closed_adjacency_ofSnapshot s
  have hu := Network.lt_size_adjacency_ofSnapshot s u
  refine ⟨fun turns head hhead => ⟨?_, ?_⟩, fun signal => ?_⟩
  · exact (Search.Leads.atHead hclosed hu hne hdepth hhead).headInvariant
  · rw [← Search.turnsAhead_start hdepth]
    exact le_self_add.trans (hhead.add_turnsAhead_le hclosed hu).1
  · refine Search.AtHead.exists_ends signal .start ?_
    simp [Search.turnsLeft, Search.turnLimit, Search.start]

/-- In a ring of three nodes no search for routes between two of them takes more
than nine turns. -/
theorem search_invariant_and_ends_ringSnapshot :
    ∃ u : Fin (Network.ofSnapshot ringSnapshot).size,
      u.val ≠ 2 ∧
      1 ≤ PathConfig.default.maxDepth ∧
      ∀ turns head, Search.AtHead (Network.ofSnapshot ringSnapshot).adjacency
          PathConfig.default u 2 turns head →
        head.HeadInvariant ringSnapshot PathConfig.default u 2 ∧ turns ≤ 9 := by
  have hsize : (Network.ofSnapshot ringSnapshot).size = 3 := by cbv
  have hdepth : 1 ≤ PathConfig.default.maxDepth := by decide
  have heffort : ((Network.ofSnapshot ringSnapshot).adjacency.attemptsFrom 2 0
          PathConfig.default.maxDepth).length = 4 := by cbv
  have hne :
      (⟨0, by omega⟩ : Fin (Network.ofSnapshot ringSnapshot).size).val ≠ 2 :=
    (by decide : 0 ≠ 2)
  obtain ⟨hheads, -⟩ := search_invariant_and_ends ringSnapshot hne hdepth
  rw [heffort] at hheads
  exact ⟨_, hne, hdepth, hheads⟩

end LinkAnalysis
