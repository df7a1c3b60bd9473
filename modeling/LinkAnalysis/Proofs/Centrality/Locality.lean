import LinkAnalysis.Proofs.Centrality.Accumulation
import LinkAnalysis.Proofs.Network.Enlargement

/-!
# Betweenness is local

The tally is shared by all sources, and the dependencies of nodes that a source
does not reach are left as they were.  Still the scores of a set of nodes that
no link leaves, and of the links between them, do not depend on anything else: a
source outside has no business with them, and the sources inside come in their
old order and do what they would do if there were no others.

No law of arithmetic is used, so this holds of machine numbers as they are
computed.
-/

namespace LinkAnalysis

open Adjacency

variable {α : Type} [Score α] {small large : Adjacency} {place move : Nat → Nat}

namespace Tally

/-! ## One tally inside another -/

/-- What the second tally holds at the places is what the first one holds. -/
structure Mirrors (small : Adjacency) (place move : Nat → Nat)
    (t t' : Tally α) : Prop where
  node : Copies (· < small.size) place t.node t'.node
  link : Copies small.HasLink move t.link t'.link
  dependency : Copies (· < small.size) place t.dependency t'.dependency

namespace Mirrors

variable {t t' : Tally α} {g g' : Geodesics α} {w : Nat}

theorem dependencyOf_eq
    (hmirrors : Mirrors small place move t t')
    (hw : w < small.size) :
    t'.dependencyOf (place w) = t.dependencyOf w :=
  hmirrors.dependency.getD hw _

/-! ## Sources inside -/

theorem handOn
    (hmirrors : Mirrors small place move t t')
    (hemb : small.Embeds large place move)
    (hg : Geodesics.Mirrors small place move g g')
    (hw : w < small.size)
    {step : Nat × Nat}
    (hstep : step.1 < small.size)
    (hlink : small.HasLink step.2) :
    Mirrors small place move (Tally.handOn g w t step)
      (Tally.handOn g' (place w) t' (Prod.map place move step)) := by
  simp only [Tally.handOn, hg.countOf_eq hw, Prod.map_fst, Prod.map_snd,
    hg.countOf_eq hstep, hmirrors.dependencyOf_eq hw]
  split
  · exact
      { node := hmirrors.node
        link := hmirrors.link.modify (fun f hf =>
          hemb.move_injective step.2 f hlink hf) _
        dependency :=
          hmirrors.dependency.modify (hemb.place_injective hstep) _ }
  · exact hmirrors

theorem foldl_handOn
    (hmirrors : Mirrors small place move t t')
    (hemb : small.Embeds large place move)
    (hg : Geodesics.Mirrors small place move g g')
    (hw : w < small.size)
    {steps : List (Nat × Nat)}
    (hsteps : ∀ step ∈ steps, step.1 < small.size ∧ small.HasLink step.2) :
    Mirrors small place move (steps.foldl (Tally.handOn g w) t)
      ((steps.map (Prod.map place move)).foldl (Tally.handOn g' (place w))
        t') := by
  rw [List.foldl_map]
  refine List.foldl_rel hmirrors fun step hstep t t' hstill => ?_
  rcases hsteps step hstep with ⟨hnode, hlink⟩
  exact hstill.handOn hemb hg hw hnode hlink

theorem settle
    (hmirrors : Mirrors small place move t t')
    (hemb : small.Embeds large place move)
    (hg : Geodesics.Mirrors small place move g g')
    (hsource : g.source < small.size)
    (hw : w < small.size)
    (hsteps : ∀ step ∈ g.predecessorsOf w,
      step.1 < small.size ∧ small.HasLink step.2) :
    Mirrors small place move (t.settle g w) (t'.settle g' (place w)) := by
  have hhanded := hmirrors.foldl_handOn hemb hg hw hsteps
  have hself : place w = g'.source ↔ w = g.source := by
    rw [hg.source_eq]
    exact ⟨hemb.place_injective hw g.source hsource, congrArg place⟩
  simp only [Tally.settle, hg.predecessorsOf_eq hw, hself,
    hhanded.dependencyOf_eq hw]
  split
  · exact hhanded
  · exact
      { node := hhanded.node.modify (hemb.place_injective hw) _
        link := hhanded.link
        dependency := hhanded.dependency }

theorem reset
    (hmirrors : Mirrors small place move t t')
    (hemb : small.Embeds large place move)
    (hg : Geodesics.Mirrors small place move g g') :
    Mirrors small place move (t.reset g) (t'.reset g') := by
  refine ⟨hmirrors.node, hmirrors.link, ?_⟩
  rw [Tally.reset, Tally.reset, ← Array.foldl_toList, ← Array.foldl_toList,
    hg.order_eq, List.foldl_map]
  refine List.foldl_rel hmirrors.dependency fun v hv d d' hd => ?_
  exact hd.setIfInBounds
    (hemb.place_injective (hg.lt_of_mem_order v (Array.mem_toList_iff.mp hv))) _

/-- A source inside does with the larger tally what it does with the smaller
one. -/
theorem addSource
    (hmirrors : Mirrors small place move t t')
    (hemb : small.Embeds large place move)
    {s : Nat}
    (hs : s < small.size) :
    Mirrors small place move (t.addSource small s)
      (t'.addSource large (place s)) := by
  have hg := Geodesics.Mirrors.ofSource (α := α) hemb hs
  have hsource :
      (Geodesics.ofSource small s : Geodesics α).source < small.size := by
    rwa [Geodesics.source_ofSource hemb.closed hs]
  have hsteps :
      ∀ w, ∀ step ∈ (Geodesics.ofSource small s : Geodesics α).predecessorsOf w,
        step.1 < small.size ∧ small.HasLink step.2 := by
    intro w step hstep
    rcases (Geodesics.mem_predecessorsOf_ofSource hemb.closed hs).mp hstep with
      ⟨hneighbor, k, hdistance, -⟩
    exact ⟨Geodesics.lt_of_distanceTo_ofSource hemb.closed hs hdistance,
      step.1, (w, step.2), hneighbor, rfl⟩
  rw [Tally.addSource, Tally.addSource, ← Array.foldr_toList,
    ← Array.foldr_toList, hg.order_eq, List.foldr_map]
  refine List.foldr_rel (hmirrors.reset hemb hg) fun w hw t t' hstill => ?_
  have hlt : w < small.size := hg.lt_of_mem_order w (Array.mem_toList_iff.mp hw)
  exact hstill.settle hemb hg hsource hlt (hsteps w)

/-! ## Sources outside -/

theorem handOn_of_avoids
    (hmirrors : Mirrors small place move t t')
    {step : Nat × Nat}
    (hstep : Misses (· < small.size) place step.1)
    (hlink : Misses small.HasLink move step.2) :
    Mirrors small place move t (Tally.handOn g w t' step) := by
  simp only [Tally.handOn]
  split
  · exact
      { node := hmirrors.node
        link := hmirrors.link.modify_of_misses hlink _
        dependency := hmirrors.dependency.modify_of_misses hstep _ }
  · exact hmirrors

theorem settle_of_avoids
    (hmirrors : Mirrors small place move t t')
    (hg : Geodesics.Avoids small place move g)
    (hw : Misses (· < small.size) place w) :
    Mirrors small place move t (t'.settle g w) := by
  have hhanded : Mirrors small place move t
      ((g.predecessorsOf w).foldl (Tally.handOn g w) t') := by
    refine List.foldlRecOn _ _ hmirrors fun t' hstill step hstep => ?_
    rcases hg.predecessors w step hstep with ⟨hnode, hlink⟩
    exact hstill.handOn_of_avoids hnode hlink
  simp only [Tally.settle]
  split
  · exact hhanded
  · exact
      { node := hhanded.node.modify_of_misses hw _
        link := hhanded.link
        dependency := hhanded.dependency }

theorem reset_of_avoids
    (hmirrors : Mirrors small place move t t')
    (hg : Geodesics.Avoids small place move g) :
    Mirrors small place move t (t'.reset g) := by
  refine ⟨hmirrors.node, hmirrors.link, ?_⟩
  rw [Tally.reset, ← Array.foldl_toList]
  refine List.foldlRecOn _ _ hmirrors.dependency fun d hd v hv => ?_
  exact hd.setIfInBounds_of_misses (hg.order v (Array.mem_toList_iff.mp hv)) _

/-- A source outside changes nothing inside. -/
theorem addSource_of_misses
    (hmirrors : Mirrors small place move t t')
    (hemb : small.Embeds large place move)
    {s : Nat}
    (hs : Misses (· < small.size) place s) :
    Mirrors small place move t (t'.addSource large s) := by
  have hg := Geodesics.Avoids.ofSource (α := α) hemb hs
  rw [Tally.addSource, ← Array.foldr_toList]
  refine List.foldrRecOn _ _ (hmirrors.reset_of_avoids hg)
    fun t' hstill w hw => ?_
  exact hstill.settle_of_avoids hg (hg.order w (Array.mem_toList_iff.mp hw))

/-! ## All sources -/

/-- The sources inside come in their old order, with sources from outside in
between. -/
theorem foldl_addSource
    (hmirrors : Mirrors small place move t t')
    (hemb : small.Embeds large place move)
    {sources sources' : List Nat}
    (hsources : ∀ s ∈ sources, s < small.size)
    (hfilter : sources'.filter (fun s => ∃ v < small.size, place v = s) =
      sources.map place) :
    Mirrors small place move (sources.foldl (Tally.addSource small) t)
      (sources'.foldl (Tally.addSource large) t') := by
  induction sources' generalizing sources t t' with
  | nil =>
      rw [List.filter_nil, eq_comm, List.map_eq_nil_iff] at hfilter
      rw [hfilter]
      exact hmirrors
  | cons s' more ih =>
      by_cases hinside : ∃ v < small.size, place v = s'
      · rw [List.filter_cons_of_pos (by simpa using hinside)] at hfilter
        cases sources with
        | nil => exact absurd hfilter (List.cons_ne_nil _ _)
        | cons s sources =>
            rcases List.cons.inj hfilter with ⟨rfl, hmore⟩
            exact ih (hmirrors.addSource hemb (hsources s List.mem_cons_self))
              (fun v hv => hsources v (List.mem_cons_of_mem _ hv)) hmore
      · rw [List.filter_cons_of_neg (by simpa using hinside)] at hfilter
        have hmiss : Misses (· < small.size) place s' :=
          fun v hv heq => hinside ⟨v, hv, heq⟩
        exact ih (hmirrors.addSource_of_misses hemb hmiss) hsources hfilter

end Mirrors

end Tally

/-- The places of the nodes in ascending order are those of all new nodes that
are places. -/
theorem Adjacency.Embeds.filter_range (hemb : small.Embeds large place move) :
    (List.range large.size).filter (fun s => ∃ v < small.size, place v = s) =
      (List.range small.size).map place := by
  have hplaces : ((List.range small.size).map place).Pairwise (· < ·) := by
    rw [List.pairwise_map]
    apply List.pairwise_lt_range.imp_of_mem
    intro v w _ hw hlt
    exact hemb.place_lt_place v w hlt (List.mem_range.mp hw)
  refine (List.pairwise_lt_range.filter _).eq_of_mem_iff hplaces fun s => ?_
  rw [List.mem_filter, List.mem_range, List.mem_map, decide_eq_true_iff]
  constructor
  · intro hboth
    rcases hboth with ⟨-, v, hv, rfl⟩
    exact ⟨v, List.mem_range.mpr hv, rfl⟩
  · intro hexists
    rcases hexists with ⟨v, hv, rfl⟩
    rw [List.mem_range] at hv
    exact ⟨hemb.place_lt v hv, v, hv, rfl⟩

/-- The scores of nodes and links inside are those that they have on their
own. -/
theorem accumulate_embeds
    (hemb : small.Embeds large place move)
    {m m' : Nat}
    (hlink : ∀ e, small.HasLink e → e < m ∧ move e < m') :
    ∃ b b' : Betweenness α,
      accumulate .live small m = .ok b ∧
      accumulate .live large m' = .ok b' ∧
      (∀ v < small.size, ∃ score, b.node[v]? = some score ∧
        b'.node[place v]? = some score) ∧
      ∀ e, small.HasLink e →
        ∃ score, b.link[e]? = some score ∧ b'.link[move e]? = some score := by
  have hblank : Tally.Mirrors small place move
      (Tally.blank small.size m : Tally α) (Tally.blank large.size m') :=
    { node := Copies.replicate (fun _ hv => hv) hemb.place_lt _
      link := Copies.replicate (fun e he => (hlink e he).1)
        (fun e he => (hlink e he).2) _
      dependency := Copies.replicate (fun _ hv => hv) hemb.place_lt _ }
  have hmirrors := hblank.foldl_addSource hemb
    (fun s hs => List.mem_range.mp hs) hemb.filter_range
  have hsize := Tally.sameSize_foldl_addSource small small.nodes
    (Tally.blank small.size m : Tally α)
  refine ⟨_, _, accumulate_live_eq small m, accumulate_live_eq large m',
    fun v hv => ?_, fun e he => ?_⟩
  · have hlt : v < ((small.nodes.foldl (Tally.addSource small)
          (Tally.blank small.size m : Tally α)).node).size := by
      rwa [hsize.node, Tally.blank, Array.size_replicate]
    exact ⟨_, Array.getElem?_eq_getElem hlt,
      (hmirrors.node v hv).trans (Array.getElem?_eq_getElem hlt)⟩
  · have hlt : e < ((small.nodes.foldl (Tally.addSource small)
          (Tally.blank small.size m : Tally α)).link).size := by
      rw [hsize.link, Tally.blank, Array.size_replicate]
      exact (hlink e he).1
    exact ⟨_, Array.getElem?_eq_getElem hlt,
      (hmirrors.link e he).trans (Array.getElem?_eq_getElem hlt)⟩

/-- A set of nodes that no link leaves has the scores that it has as a network
of its own, and no scores change when isolated nodes or other components are
added or removed. -/
theorem accumulate_local
    (α : Type) [Score α] {n m : Nat} {ends : Array (Nat × Nat)}
    {active : List Nat}
    (hrange : InRange n ends active)
    (hm : ∀ e ∈ active, e < m) :
    (∀ (inside : Nat → Prop) [DecidablePred inside],
        (ofEnds n ends active).ClosedUnder inside → ∃ b b' : Betweenness α,
          accumulate .live (ofEnds n ends active) m = .ok b ∧
          accumulate .live (part n ends active inside) m = .ok b' ∧
          (∀ v < n, inside v → ∃ score, b.node[v]? = some score ∧
            b'.node[Nat.count inside v]? = some score) ∧
          ∀ e ∈ linksInside ends active inside, ∃ score,
            b.link[e]? = some score ∧ b'.link[e]? = some score) ∧
      ∀ (n' m' : Nat) (ends' : Array (Nat × Nat)) (active' others : List Nat)
          (place move : Nat → Nat),
        Enlarges n ends active n' ends' active' place move others →
          (∀ e ∈ active, move e < m') → ∃ b b' : Betweenness α,
            accumulate .live (ofEnds n ends active) m = .ok b ∧
            accumulate .live (ofEnds n' ends' active') m' = .ok b' ∧
            (∀ v < n, ∃ score, b.node[v]? = some score ∧
              b'.node[place v]? = some score) ∧
            ∀ e ∈ active, ∃ score, b.link[e]? = some score ∧
              b'.link[move e]? = some score := by
  constructor
  · intro inside _ hclosed
    have hinside : ∀ e ∈ linksInside ends active inside, e < m :=
      fun e he => hm e (mem_linksInside.mp he).1
    rcases accumulate_embeds (α := α)
        ((enlarges_part hrange hclosed).embeds (inRange_part hrange))
        (fun e he => ⟨hinside e he.mem_active, hinside e he.mem_active⟩)
      with ⟨b', b, hb', hb, hnode, hlink⟩
    refine ⟨b, b', hb, hb', fun v hv hvin => ?_, fun e he => ?_⟩
    · have hlt : Nat.count inside v < Nat.count inside n :=
        Nat.count_strict_mono hvin hv
      rcases hnode (Nat.count inside v) (by rwa [size_ofEnds])
        with ⟨score, hscore', hscore⟩
      rw [Nat.nth_count hvin] at hscore
      exact ⟨score, hscore, hscore'⟩
    · rcases hlink e ((inRange_part hrange).hasLink he)
        with ⟨score, hscore', hscore⟩
      exact ⟨score, hscore, hscore'⟩
  · intro n' m' ends' active' others place move henlarges hm'
    rcases accumulate_embeds (α := α) (henlarges.embeds hrange)
      (fun e he => ⟨hm e he.mem_active, hm' e he.mem_active⟩)
      with ⟨b, b', hb, hb', hnode, hlink⟩
    rw [size_ofEnds] at hnode
    exact ⟨b, b', hb, hb', hnode, fun e he => hlink e (hrange.hasLink he)⟩

/-- Two rows that do not touch: the even nodes and the odd ones. -/
def rowsEnds : Array (Nat × Nat) := #[(0, 2), (1, 3), (2, 4)]

/-- The rows, one number higher, behind an isolated node, and a third row. -/
def moreRowsEnds : Array (Nat × Nat) := #[(6, 7), (1, 3), (2, 4), (3, 5)]

theorem enlarges_rowsEnds :
    Enlarges 5 rowsEnds [0, 1, 2] 8 moreRowsEnds
      [0, 1, 2, 3] (· + 1) (· + 1) [0] where
  place_lt := by omega
  place_lt_place := by omega
  move_lt_move := by omega
  ends_move := by decide
  active_perm := by decide
  misses := by
    intro e he a b hget
    rcases List.mem_singleton.mp he with rfl
    rcases Prod.mk.inj (Option.some.inj hget) with ⟨rfl, rfl⟩
    have hlt : ∀ {v : Nat}, v < 5 → v + 1 < 6 := by omega
    exact ⟨fun v hv => (hlt hv).ne,
      fun v hv => ((hlt hv).trans (Nat.lt_succ_self 6)).ne⟩

theorem accumulate_local_rowsEnds :
    InRange 5 rowsEnds [0, 1, 2] ∧
      (∀ e ∈ [0, 1, 2], e < 3) ∧
      (∃ b b' : Betweenness ℚ,
        accumulate .live (ofEnds 5 rowsEnds [0, 1, 2]) 3 = .ok b ∧
        accumulate .live (part 5 rowsEnds [0, 1, 2] (· % 2 = 0)) 3 = .ok b' ∧
        ∃ score, b.node[2]? = some score ∧ b'.node[1]? = some score) ∧
      ∃ b b' : Betweenness ℚ,
        accumulate .live (ofEnds 5 rowsEnds [0, 1, 2]) 3 = .ok b ∧
        accumulate .live (ofEnds 8 moreRowsEnds [0, 1, 2, 3]) 4 = .ok b' ∧
        ∃ score, b.link[2]? = some score ∧ b'.link[3]? = some score := by
  have hrange : InRange 5 rowsEnds [0, 1, 2] := inRange_iff.mp (by decide)
  have hm : ∀ e ∈ [0, 1, 2], e < 3 := by decide
  have hclosed : (ofEnds 5 rowsEnds [0, 1, 2]).ClosedUnder (· % 2 = 0) := by
    rw [closedUnder_iff hrange]
    intro e he a b hget
    fin_cases he
    all_goals
      rcases Prod.mk.inj (Option.some.inj hget) with ⟨rfl, rfl⟩
      decide
  rcases accumulate_local ℚ hrange hm with ⟨hpart, henlarged⟩
  refine ⟨hrange, hm, ?_, ?_⟩
  · rcases hpart (· % 2 = 0) hclosed with ⟨b, b', hb, hb', hnode, -⟩
    exact ⟨b, b', hb, hb', hnode 2 (by decide) (by decide)⟩
  · rcases henlarged 8 4 moreRowsEnds [0, 1, 2, 3] [0] (· + 1) (· + 1)
      enlarges_rowsEnds (by decide) with ⟨b, b', hb, hb', -, hlink⟩
    exact ⟨b, b', hb, hb', hlink 2 (by decide)⟩

end LinkAnalysis
