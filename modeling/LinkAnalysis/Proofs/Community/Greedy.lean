import LinkAnalysis.Proofs.Community.Cuts
import LinkAnalysis.Proofs.Community.Selection

/-!
# Greedy cuts

In exact arithmetic every cut removes a link whose betweenness, in the graph
that is left, is the largest one up to the width of a tie, and of these the
first in the order of links.  Since links stand in this order, and what is left
of them keeps it, that is the tied link with the smallest position.
-/

namespace SimpleGraph

variable {V : Type*} [Fintype V]

/-- An edge whose betweenness is at most a billionth below the largest one,
relative to it or to one. -/
def IsTied (G : SimpleGraph V) (edge : Sym2 V) : Prop :=
  edge ∈ G.edgeSet ∧ ∃ most, IsGreatest (G.edgeBetweenness '' G.edgeSet) most ∧
    most - 1 / 10 ^ 9 * max most 1 ≤ G.edgeBetweenness edge

end SimpleGraph

namespace LinkAnalysis

open Network

/-! ## Selected links -/

theorem tieWidth_rat : (tieWidth : ℚ) = 1 / 10 ^ 9 := by
  rw [tieWidth, Score.count_rat, Score.count_rat]
  norm_num [tenTo]

/-- The selected link is the first that is tied with the largest score. -/
theorem selectLink?_eq_some
    {scores : Array ℚ} {remaining : List Nat} {e : Nat}
    (hselect : selectLink? remaining scores = some e) :
    0 < largestScore scores remaining ∧
      remaining.find? (fun e =>
        decide (largestScore scores remaining -
            1 / 10 ^ 9 * max (largestScore scores remaining) 1 ≤
          scores.getD e 0)) =
        some e := by
  simp only [selectLink?, tieWidth_rat, Score.isFinite_rat, Score.zero_rat,
    Score.one_rat, Score.larger_rat, Bool.true_and] at hselect
  split at hselect
  case isTrue hpos => exact ⟨by simpa using hpos, hselect⟩
  case isFalse => simp at hselect

theorem le_of_find?_eq_some
    {p : Nat → Bool} {l : List Nat} {x y : Nat}
    (hascending : l.Pairwise (· < ·))
    (hfind : l.find? p = some x)
    (hy : y ∈ l)
    (hp : p y = true) :
    x ≤ y := by
  obtain ⟨-, before, after, rfl, hbefore⟩ :=
    List.find?_eq_some_iff_append.mp hfind
  rcases List.mem_append.mp hy with hy | hy
  · have := hbefore y hy
    simp [hp] at this
  · rcases List.mem_cons.mp hy with rfl | hy
    · exact le_rfl
    · exact ((List.pairwise_cons.mp (List.pairwise_append.mp hascending).2.1).1
        y hy).le

namespace Network

/-- The link is an edge of what is left, and its betweenness is tied with the
largest one. -/
def IsTiedLink (net : Network) (removed : List Nat) (l : Link) : Prop :=
  ∃ a b : Fin net.size,
    l.ends = (a.val, b.val) ∧ (net.graphWithout removed).IsTied s(a, b)

/-- The position is that of the first tied link. -/
def IsFirstTied (net : Network) (removed : List Nat) (e : Nat) : Prop :=
  ∃ l,
    net.links[e]? = some l ∧
    net.IsTiedLink removed l ∧
    ∀ l' ∈ net.links, net.IsTiedLink removed l' → l' ≠ l → l.Precedes l'

section Simple

variable {net : Network} {removed : List Nat}

theorem linksWithout_ascending (net : Network) (removed : List Nat) :
    (net.linksWithout removed).Pairwise (· < ·) :=
  List.pairwise_lt_range.filter _

theorem mem_edgeSet_graphWithout
    (hnet : SimpleEnds net.size net.ends)
    {edge : Sym2 (Fin net.size)} :
    edge ∈ (net.graphWithout removed).edgeSet ↔
      ∃ e ∈ net.linksWithout removed, ∃ a b : Fin net.size,
        net.ends[e]? = some (a.val, b.val) ∧ edge = s(a, b) := by
  constructor
  · induction edge using Sym2.ind with
    | _ u v =>
      intro hadj
      rw [SimpleGraph.mem_edgeSet, graphWithout, graphOf, linkGraph,
        SimpleGraph.fromRel_adj] at hadj
      obtain ⟨-, ⟨e, he, hget⟩ | ⟨e, he, hget⟩⟩ := hadj
      · exact ⟨e, he, u, v, hget, rfl⟩
      · exact ⟨e, he, v, u, hget, Sym2.eq_swap⟩
  · rintro ⟨e, he, a, b, hget, rfl⟩
    exact linkGraph_adj_of_mem he hget (hnet.low_lt_high hget).ne a.isLt b.isLt

variable {b : Betweenness ℚ}

theorem getD_link_eq
    (hexact : b.IsExact net.size net.ends (net.linksWithout removed))
    {e : Nat}
    (he : e ∈ net.linksWithout removed)
    {u v : Fin net.size}
    (hget : net.ends[e]? = some (u.val, v.val)) :
    b.link.getD e 0 = (net.graphWithout removed).edgeBetweenness s(u, v) := by
  rw [Array.getD_eq_getD_getElem?, hexact.link_eq e u v he hget,
    Option.getD_some]
  rfl

theorem isGreatest_largestScore
    (hnet : SimpleEnds net.size net.ends)
    (hexact : b.IsExact net.size net.ends (net.linksWithout removed))
    (hpos : 0 < largestScore b.link (net.linksWithout removed)) :
    IsGreatest ((net.graphWithout removed).edgeBetweenness ''
      (net.graphWithout removed).edgeSet)
      (largestScore b.link (net.linksWithout removed)) := by
  constructor
  · obtain ⟨e, he, hscore⟩ := exists_getD_eq_largestScore hpos
    obtain ⟨u, v, hget, hadj⟩ := exists_adj_of_mem_linksWithout hnet he
    exact ⟨s(u, v), hadj, (getD_link_eq hexact he hget).symm.trans hscore⟩
  · rintro _ ⟨edge, hedge, rfl⟩
    obtain ⟨e, he, u, v, hget, rfl⟩ := (mem_edgeSet_graphWithout hnet).mp hedge
    rw [← getD_link_eq hexact he hget]
    exact getD_le_largestScore he

/-- A link that is left is tied exactly if its score is one of those that are
looked for. -/
theorem isTiedLink_iff
    (hnet : SimpleEnds net.size net.ends)
    (hexact : b.IsExact net.size net.ends (net.linksWithout removed))
    (hpos : 0 < largestScore b.link (net.linksWithout removed))
    {e : Nat} {l : Link}
    (hlink : net.links[e]? = some l) :
    net.IsTiedLink removed l ↔ e ∈ net.linksWithout removed ∧
      largestScore b.link (net.linksWithout removed) - 1 / 10 ^ 9 * max
          (largestScore b.link (net.linksWithout removed)) 1 ≤
        b.link.getD e 0 := by
  have hgreatest := isGreatest_largestScore hnet hexact hpos
  have hends : net.ends[e]? = some l.ends :=
    getElem?_ends.mpr ⟨l, hlink, rfl, rfl⟩
  constructor
  · rintro ⟨u, v, hpair, hedge, most, hmost, htied⟩
    obtain rfl := hmost.unique hgreatest
    rw [hpair] at hends
    obtain ⟨e', he', u', v', hget, heq⟩ :=
      (mem_edgeSet_graphWithout hnet).mp hedge
    obtain rfl : e = e' := by
      rcases Sym2.eq_iff.mp heq with ⟨rfl, rfl⟩ | ⟨rfl, rfl⟩
      · exact hnet.position_unique hends hget
      · exact absurd (hnet.low_lt_high hends) (hnet.low_lt_high hget).asymm
    exact ⟨he', by rwa [getD_link_eq hexact he' hends]⟩
  · rintro ⟨he, htied⟩
    obtain ⟨u, v, hget, hadj⟩ := exists_adj_of_mem_linksWithout hnet he
    rw [getD_link_eq hexact he hget] at htied
    exact ⟨u, v, Option.some.inj (hends.symm.trans hget), hadj, _,
      hgreatest, htied⟩

end Simple

/-- In exact arithmetic the next cut is the first of the tied links. -/
theorem isFirstTied_of_nextCut?
    (s : Snapshot) {removed : List Nat} {e : Nat}
    (hcut : (ofSnapshot s).nextCut? ℚ removed = some e) :
    (ofSnapshot s).IsFirstTied removed e := by
  have hnet := simpleEnds_ofSnapshot s
  obtain ⟨scores, hscores, hselect⟩ := nextCut?_eq_some_iff.mp hcut
  obtain ⟨b, hb, hexact⟩ :=
    accumulate_isExact hnet (activeLinks_linksWithout (ofSnapshot s) removed)
  rw [size_ends] at hb
  obtain rfl := Except.ok.inj (hb.symm.trans hscores)
  obtain ⟨hpos, hfind⟩ := selectLink?_eq_some hselect
  have he := mem_of_selectLink? hselect
  have hlt := (mem_linksWithout.mp he).1
  have hlink : (ofSnapshot s).links[e]? = some (ofSnapshot s).links[e] :=
    Array.getElem?_eq_getElem hlt
  refine ⟨_, hlink, (isTiedLink_iff hnet hexact hpos hlink).mpr ⟨he, ?_⟩,
    fun l' hl' htied hne => ?_⟩
  · simpa using List.find?_some hfind
  · obtain ⟨e', hlt', rfl⟩ := Array.mem_iff_getElem.mp hl'
    obtain ⟨he', hfloor⟩ :=
      (isTiedLink_iff hnet hexact hpos (Array.getElem?_eq_getElem hlt')).mp
        htied
    have hle : e ≤ e' :=
      le_of_find?_eq_some (linksWithout_ascending _ removed) hfind he'
        (decide_eq_true hfloor)
    have hlt'' : e < e' := lt_of_le_of_ne hle fun heq => hne (by subst heq; rfl)
    exact List.pairwise_iff_getElem.mp (links_ascending_ofSnapshot s) e e'
      (by simpa [linkCount] using hlt) (by simpa using hlt') hlt''

end Network

/-! ## Greedy runs -/

/-- A partition whose removals are greedy, different from one another, and no
more than allowed. -/
structure Partition.Greedy (net : Network) (config : CommunityConfig)
    (p : Partition) : Prop where
  iterations_le : p.iterations ≤ min net.linkCount config.maxIterations
  removed_nodup : p.removed.Nodup
  removed_lt : ∀ e ∈ p.removed, e < net.linkCount
  /-- Nothing is removed once there are as many components as are aimed at. -/
  count_lt : ∀ i < p.iterations, net.componentCountWithout (p.removed.take i) <
    targetCommunities net.size config
  isFirstTied :
    ∀ i e, p.removed[i]? = some e → net.IsFirstTied (p.removed.take i) e

/-- Every run comes to an end, and all its removals are greedy. -/
theorem detectCommunities_greedy (s : Snapshot) (config : CommunityConfig) :
    ∃ p, detectCommunities ℚ .live (Network.ofSnapshot s) config = .ok p ∧
      p.Greedy (Network.ofSnapshot s) config := by
  have hnet := simpleEnds_ofSnapshot s
  obtain ⟨k, reason, hhalt, hrun⟩ := Network.exists_haltsAt ℚ hnet config
  have hiterations : (cuts ℚ (Network.ofSnapshot s) k).reverse.length = k := by
    rw [List.length_reverse, hhalt.length_cuts le_rfl]
  refine ⟨_, hrun, ?_⟩
  refine
    { iterations_le := ?_
      removed_nodup := List.nodup_reverse.mpr (cuts_nodup k)
      removed_lt := fun e he => cuts_lt e (List.mem_reverse.mp he)
      count_lt := fun i hi => ?_
      isFirstTied := fun i e hget => ?_ }
  · rw [Partition.iterations, partitionAfter, hiterations]
    exact hhalt.le_limit
  · rw [Partition.iterations, partitionAfter, hiterations] at hi
    have hfew := (haltReason?_eq_none_iff.mp (hhalt.goes_on i hi)).1
    rw [length_componentsWithout hnet] at hfew
    rw [partitionAfter, hhalt.take_reverse_cuts hi.le,
      componentCountWithout_congr fun e => List.mem_reverse]
    exact hfew
  · obtain ⟨hi, hnext⟩ := hhalt.getElem?_reverse_cuts hget
    rw [partitionAfter, hhalt.take_reverse_cuts hi.le]
    rw [← nextCut?_congr fun e => List.mem_reverse] at hnext
    exact isFirstTied_of_nextCut? s hnext

end LinkAnalysis
