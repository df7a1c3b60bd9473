import LinkAnalysis.Proofs.Centrality.Betweenness
import LinkAnalysis.Proofs.Report.Statistics
import LinkAnalysis.Proofs.Strict.Words

/-!
# Reports in words

A network has no more links than pairs of nodes, a group without repetitions no
more members than there are nodes, and a node no more neighbours than there are
other nodes.  So where nodes are numbered in 32 bits, whatever the metrics count
fits a word, and their wordwise programs come to their results.
-/

namespace LinkAnalysis

/-- The metrics of a network compute with words, and divide by positive scores
only. -/
structure Network.FitsWords (α : Type) [Score α] (net : Network) : Prop where
  statistics_eq : (Wordwise.statistics net : Strict (Statistics α)) =
    .ok net.statistics
  summary_eq :
    ∀ members : List Nat, members.Nodup → (∀ v ∈ members, v < net.size) →
      (Wordwise.summary net members : Strict (GroupSummary α)) =
        .ok (net.summary members)
  betweenness_eq : ∀ signal, (Wordwise.betweenness signal net.adjacency
        net.linkCount : Strict (Betweenness α)) =
    Strict.lift (betweenness signal net.adjacency net.linkCount)
  centrality_eq : ∀ signal (scores : Array α) (w : Weights α),
    Wordwise.centrality signal net.adjacency scores w =
      Strict.lift (centrality signal net.adjacency scores w)

namespace Network

section Bounds

variable (s : Snapshot) (hindex : (ofSnapshot s).size < 2 ^ 32)

include hindex

theorem two_mul_linkCount_lt : 2 * (ofSnapshot s).linkCount < wordSize := by
  have hpairs : (ofSnapshot s).size * ((ofSnapshot s).size - 1) < wordSize :=
    mul_lt_wordSize hindex (by omega)
  have hle := linkCount_le_choose s
  rw [Nat.choose_two_right] at hle
  omega

theorem linksWithin_lt (members : List Nat) :
    ((ofSnapshot s).linksWithin members).length < wordSize := by
  have hle :
      ((ofSnapshot s).linksWithin members).length ≤ (ofSnapshot s).linkCount :=
    List.length_filter_le _ _
  have hlt := two_mul_linkCount_lt s hindex
  omega

theorem degree_lt {v : Nat} (hv : v < (ofSnapshot s).size) :
    (ofSnapshot s).adjacency.degree v < wordSize :=
  (degree_lt_size s ⟨v, hv⟩).trans (hindex.trans (by decide))

/-- In any arithmetic in which positive counts are positive, the metrics compute
with words. -/
theorem fitsWords_of_countsPositive
    (α : Type) [Score α] [Score.CountsPositive α] :
    (ofSnapshot s).FitsWords α := by
  have hlinks := two_mul_linkCount_lt s hindex
  have hrange :=
    (simpleEnds_ofSnapshot s).inRange (activeLinks_range (ofSnapshot s))
  refine
    { statistics_eq := ?_
      summary_eq := ?_
      betweenness_eq := ?_
      centrality_eq := ?_ }
  · rw [Wordwise.statistics, Wordwise.density_eq hindex (by omega),
      Strict.ok_bind,
      Wordwise.averageDegree_eq (hindex.trans (by decide)) hlinks]
    rfl
  · intro members hnodup hmembers
    have hsubset : members ⊆ List.range (ofSnapshot s).size :=
      fun v hv => List.mem_range.mpr (hmembers v hv)
    have hlength := (hnodup.subperm hsubset).length_le
    rw [List.length_range] at hlength
    rw [Wordwise.summary,
      Wordwise.density_eq (hlength.trans_lt hindex) (linksWithin_lt s hindex _)]
    rfl
  · intro signal
    apply Wordwise.betweenness_eq signal (bounded_ofSnapshot s)
    rwa [size_adjacency_ofSnapshot]
  · intro signal scores w
    have hdegree : ∀ v < (ofSnapshot s).size,
        (ofSnapshot s).adjacency.degree v < wordSize :=
      fun v hv => degree_lt s hindex hv
    rw [adjacency_ofSnapshot] at hdegree ⊢
    exact Wordwise.centrality_eq signal hrange hindex hdegree scores w

end Bounds

/-- No count of the metrics outgrows a word, no difference of counts is negative
and no score is divided by zero, with exact scores as with machine numbers,
where nodes are numbered in 32 bits. -/
theorem fitsWords_ofSnapshot
    (s : Snapshot)
    (hindex : (ofSnapshot s).size < 2 ^ 32) :
    (ofSnapshot s).FitsWords ℚ ∧ (ofSnapshot s).FitsWords Float :=
  ⟨fitsWords_of_countsPositive s hindex ℚ,
    fitsWords_of_countsPositive s hindex Float⟩

/-- In a row of three nodes two of three pairs are joined, and the middle node
is between the others. -/
theorem fitsWords_rowSnapshot :
    (ofSnapshot rowSnapshot).size < 2 ^ 32 ∧
      (Wordwise.statistics (ofSnapshot rowSnapshot) : Strict (Statistics ℚ)) =
        .ok ⟨3, 2, 2 / 3, 4 / 3, 1, 0, 2⟩ ∧
      (Wordwise.betweenness .live (ofSnapshot rowSnapshot).adjacency
            (ofSnapshot rowSnapshot).linkCount : Strict (Betweenness ℚ)) =
        .ok ⟨#[0, 1, 0], #[4, 4]⟩ := by
  have hsize : (ofSnapshot rowSnapshot).size = 3 := by cbv
  have hcount : (ofSnapshot rowSnapshot).linkCount = 2 := by cbv
  have hadjacency : (ofSnapshot rowSnapshot).adjacency =
      ⟨#[#[(1, 0)], #[(0, 0), (2, 1)], #[(1, 1)]]⟩ := by cbv
  have hcomponents : (ofSnapshot rowSnapshot).graph.componentCount = 1 := by cbv
  have hindex : (ofSnapshot rowSnapshot).size < 2 ^ 32 := hsize ▸ by decide
  have hfits := (fitsWords_ofSnapshot rowSnapshot hindex).1
  refine ⟨hindex, ?_, ?_⟩
  · rw [hfits.statistics_eq, statistics, hsize, hcount, hadjacency, hcomponents]
    decide +kernel
  · rw [hfits.betweenness_eq, hadjacency, hcount]
    decide +kernel

end Network

end LinkAnalysis
