import LinkAnalysis.Network.Statistics
import LinkAnalysis.Proofs.Community.Greedy
import LinkAnalysis.Proofs.Graph.Density
import LinkAnalysis.Proofs.Rational
import Mathlib

/-!
# What a summary says of a group

A summary is computed from the links with both ends in the group.  These are the
edges of the graph within the group, no edge twice, so their number is that of
the edges and the links at a member are as many as its neighbours in the group.
-/

namespace LinkAnalysis

/-! ## The member with most links -/

section MostCentral

variable {degree : Nat → Nat} {members : List Nat}

/-- A node with more links stands before others, and one with as many before
greater ones. -/
def Outranks (degree : Nat → Nat) (v w : Nat) : Prop :=
  degree w < degree v ∨ degree w = degree v ∧ v ≤ w

theorem Outranks.trans
    {u v w : Nat}
    (huv : Outranks degree u v)
    (hvw : Outranks degree v w) :
    Outranks degree u w := by
  unfold Outranks at *
  omega

theorem Outranks.antisymm
    {v w : Nat}
    (hvw : Outranks degree v w)
    (hwv : Outranks degree w v) :
    v = w := by
  unfold Outranks at *
  omega

theorem moreCentral_eq_or (a b : Nat) :
    moreCentral degree a b = a ∨ moreCentral degree a b = b := by
  unfold moreCentral
  split
  · exact Or.inr rfl
  · split
    · exact Or.inl rfl
    · exact min_choice a b

theorem outranks_moreCentral (a b : Nat) :
    Outranks degree (moreCentral degree a b) a ∧
      Outranks degree (moreCentral degree a b) b := by
  unfold moreCentral Outranks
  split
  · omega
  · split
    · omega
    · rcases Nat.le_total a b with hle | hle
      · rw [min_eq_left hle]
        omega
      · rw [min_eq_right hle]
        omega

/-- The member of a list that stands before all others. -/
def IsMostCentral (degree : Nat → Nat) (members : List Nat) (v : Nat) : Prop :=
  v ∈ members ∧ ∀ w ∈ members, Outranks degree v w

theorem IsMostCentral.unique
    {v w : Nat}
    (hv : IsMostCentral degree members v)
    (hw : IsMostCentral degree members w) :
    v = w :=
  (hv.2 w hw.1).antisymm (hw.2 v hv.1)

theorem isMostCentral_foldl (a : Nat) (more : List Nat) :
    IsMostCentral degree (a :: more) (more.foldl (moreCentral degree) a) :=
  foldl_preferred (R := Outranks degree) (fun _ => Or.inr ⟨rfl, le_rfl⟩)
    (fun _ _ _ => Outranks.trans) moreCentral_eq_or outranks_moreCentral a more

theorem mostCentral_eq_some_iff {v : Nat} :
    mostCentral degree members = some v ↔ IsMostCentral degree members v := by
  cases members with
  | nil => simp [mostCentral, IsMostCentral]
  | cons a more =>
      rw [mostCentral, Option.some_inj]
      constructor
      · rintro rfl
        exact isMostCentral_foldl a more
      · exact (isMostCentral_foldl a more).unique

theorem mostCentral_eq_none_iff :
    mostCentral degree members = none ↔ members = [] := by
  cases members <;> simp [mostCentral]

end MostCentral

/-! ## Links and edges -/

namespace Network

section Edges

variable (s : Snapshot)

theorem mem_edgeSet_wholeGraph {edge : Sym2 (Fin (ofSnapshot s).size)} :
    edge ∈ (ofSnapshot s).wholeGraph.edgeSet ↔
      ∃ l ∈ (ofSnapshot s).links.toList,
        edge.map Fin.val = s(l.low, l.high) := by
  rw [wholeGraph_eq, mem_edgeSet_graphWithout (simpleEnds_ofSnapshot s)]
  constructor
  · rintro ⟨e, -, a, b, hget, rfl⟩
    obtain ⟨l, hl, hlow, hhigh⟩ := getElem?_ends.mp hget
    refine ⟨l, Array.mem_toList_iff.mpr (Array.mem_of_getElem? hl), ?_⟩
    rw [Sym2.map_mk, hlow, hhigh]
  · rintro ⟨l, hl, hedge⟩
    obtain ⟨hlow, hhigh, -⟩ := link_ofSnapshot s (Array.mem_toList_iff.mp hl)
    obtain ⟨e, hget⟩ := List.mem_iff_getElem?.mp hl
    rw [Array.getElem?_toList] at hget
    refine ⟨e, mem_linksWithout.mpr ⟨(Array.getElem?_eq_some_iff.mp hget).1,
        List.not_mem_nil⟩, ⟨l.low, hlow.trans hhigh⟩, ⟨l.high, hhigh⟩,
      getElem?_ends.mpr ⟨l, hget, rfl, rfl⟩, ?_⟩
    exact Sym2.map.injective Fin.val_injective hedge

theorem map_edge_links_nodup :
    ((ofSnapshot s).links.toList.map fun l => s(l.low, l.high)).Nodup := by
  rw [List.nodup_iff_pairwise_ne, List.pairwise_map]
  apply (List.pairwise_map.mp (ends_nodup_ofSnapshot s)).imp_of_mem
  intro l k hl hk hne heq
  obtain ⟨hlow, -⟩ := link_ofSnapshot s (Array.mem_toList_iff.mp hl)
  obtain ⟨hlow', -⟩ := link_ofSnapshot s (Array.mem_toList_iff.mp hk)
  rcases Sym2.eq_iff.mp heq with ⟨hlo, hhi⟩ | ⟨hlo, hhi⟩
  · exact hne (Prod.ext hlo hhi)
  · omega

/-- Counting links is counting edges. -/
theorem countP_links
    {p : Link → Bool} {P : Sym2 (Fin (ofSnapshot s).size) → Prop}
    (hselects : ∀ l ∈ (ofSnapshot s).links.toList,
      ∀ edge, edge.map Fin.val = s(l.low, l.high) → (p l = true ↔ P edge)) :
    (ofSnapshot s).links.toList.countP p =
      {edge ∈ (ofSnapshot s).wholeGraph.edgeSet | P edge}.ncard := by
  have himage :
      Sym2.map Fin.val '' {edge ∈ (ofSnapshot s).wholeGraph.edgeSet | P edge} =
        {pair | pair ∈ ((ofSnapshot s).links.toList.filter p).map fun l =>
          s(l.low, l.high)} := by
    ext pair
    rw [Set.mem_image, Set.mem_ofPred_eq, List.mem_map]
    constructor
    · rintro ⟨edge, ⟨hedge, hP⟩, rfl⟩
      obtain ⟨l, hl, heq⟩ := (mem_edgeSet_wholeGraph s).mp hedge
      exact ⟨l, List.mem_filter.mpr ⟨hl, (hselects l hl edge heq).mpr hP⟩,
        heq.symm⟩
    · rintro ⟨l, hl, rfl⟩
      obtain ⟨hl, hp⟩ := List.mem_filter.mp hl
      obtain ⟨hlow, hhigh, -⟩ := link_ofSnapshot s (Array.mem_toList_iff.mp hl)
      have heq :
          Sym2.map Fin.val s((⟨l.low, hlow.trans hhigh⟩ :
              Fin (ofSnapshot s).size), ⟨l.high, hhigh⟩) =
            s(l.low, l.high) := rfl
      exact ⟨_, ⟨(mem_edgeSet_wholeGraph s).mpr ⟨l, hl, heq⟩,
          (hselects l hl _ heq).mp hp⟩, heq⟩
  have hnodup :=
    (map_edge_links_nodup s).sublist (List.filter_sublist.map _ : List.Sublist
      (((ofSnapshot s).links.toList.filter p).map fun l => s(l.low, l.high)) _)
  rw [← Set.ncard_image_of_injective _ (Sym2.map.injective Fin.val_injective),
    himage, ncard_mem_eq_length hnodup, List.length_map,
    List.countP_eq_length_filter]

end Edges

end Network

/-! ## Densities -/

section Density

variable {n m : Nat}

theorem density_rat
    (hn : 2 ≤ n)
    (hsmall : n < 2 ^ 32) :
    (density n m : ℚ) = m / n.choose 2 := by
  have hpairs := mul_lt_wordSize hsmall ((Nat.sub_le n 1).trans_lt hsmall)
  rw [density, if_neg hn.not_gt, Score.halfProduct_rat hpairs,
    Nat.cast_choose_two, Nat.cast_mul, Nat.cast_pred (by omega)]
  rfl

theorem density_of_lt_two (hn : n < 2) : (density n m : ℚ) = 0 := by
  rw [density, if_pos hn, Score.zero_rat]

theorem density_mem_Icc
    (hsmall : n < 2 ^ 32)
    (hm : m ≤ n.choose 2) :
    (density n m : ℚ) ∈ Set.Icc 0 1 := by
  rcases Nat.lt_or_ge n 2 with hn | hn
  · rw [density_of_lt_two hn]
    exact ⟨le_rfl, zero_le_one⟩
  · rw [density_rat hn hsmall]
    exact ⟨by
      positivity, div_le_one_of_le₀ (by exact_mod_cast hm) (Nat.cast_nonneg _)⟩

/-- As many links as a tree has are this dense. -/
theorem two_div_le_density
    (hn : 2 ≤ n)
    (hsmall : n < 2 ^ 32)
    (hm : n ≤ m + 1) :
    2 / (n : ℚ) ≤ density n m := by
  have hpos : 0 < (n : ℚ) := by exact_mod_cast (by omega : 0 < n)
  have hpred : 0 < (n : ℚ) - 1 := sub_pos.mpr (by exact_mod_cast hn)
  have htree : (n : ℚ) - 1 ≤ m := sub_le_iff_le_add.mpr (by exact_mod_cast hm)
  rw [density_rat hn hsmall, Nat.cast_choose_two]
  calc 2 / (n : ℚ) = (n - 1) / (n * (n - 1) / 2) := by field_simp
    _ ≤ m / (n * (n - 1) / 2) := by gcongr

end Density

/-! ## Summaries -/

/-- A summary is right about a group of distinct nodes of a graph. -/
structure GroupSummary.Describes {n : Nat} (G : SimpleGraph (Fin n))
    (members : List (Fin n)) (g : GroupSummary ℚ) : Prop where
  internalLinks_eq : g.internalLinks = (G.edgesWithin {v | v ∈ members}).ncard
  central_eq_none_iff : g.central = none ↔ members = []
  /-- The central member has most neighbours in the group, and is the first one
  that has so many. -/
  central_eq_some_iff : ∀ x, g.central = some x ↔ ∃ v ∈ members,
    v.val = x ∧ ∀ w ∈ members,
      (G.neighborsWithin {u | u ∈ members} w).ncard <
        (G.neighborsWithin {u | u ∈ members} v).ncard ∨
      (G.neighborsWithin {u | u ∈ members} w).ncard =
          (G.neighborsWithin {u | u ∈ members} v).ncard ∧
        v ≤ w
  density_eq : 2 ≤ members.length →
    g.density = g.internalLinks / (members.length * (members.length - 1) / 2)
  density_eq_zero : members.length < 2 → g.density = 0
  density_mem_Icc : g.density ∈ Set.Icc 0 1

namespace Network

section Summary

variable (s : Snapshot) (members : List (Fin (ofSnapshot s).size))

theorem contains_ends_iff
    {n low high : Nat} {members : List (Fin n)} {edge : Sym2 (Fin n)}
    (hedge : edge.map Fin.val = s(low, high)) :
    ((members.map Fin.val).contains low &&
            (members.map Fin.val).contains high) = true ↔
      ∀ v ∈ edge, v ∈ members := by
  have hmem : ∀ x, x ∈ s(low, high) ↔ ∃ v ∈ edge, v.val = x :=
    fun x => by rw [← hedge, Sym2.mem_map]
  rw [Bool.and_eq_true, List.contains_iff_mem, List.contains_iff_mem,
    ← Sym2.ball]
  constructor
  · intro hall v hv
    exact (List.mem_map_of_injective Fin.val_injective).mp
      (hall v.val ((hmem _).mpr ⟨v, hv, rfl⟩))
  · intro hall x hx
    obtain ⟨v, hv, rfl⟩ := (hmem x).mp hx
    exact List.mem_map_of_mem (hall v hv)

theorem length_linksWithin_eq_ncard :
    ((ofSnapshot s).linksWithin (members.map Fin.val)).length =
      ((ofSnapshot s).wholeGraph.edgesWithin {v | v ∈ members}).ncard := by
  rw [linksWithin, ← List.countP_eq_length_filter]
  exact countP_links s fun l _ edge hedge => contains_ends_iff hedge

theorem degreeIn_linksWithin {v : Fin (ofSnapshot s).size} (hv : v ∈ members) :
    degreeIn ((ofSnapshot s).linksWithin (members.map Fin.val)) v.val =
      ((ofSnapshot s).wholeGraph.neighborsWithin
          {u | u ∈ members} v).ncard := by
  have hset :
      {edge ∈ (ofSnapshot s).wholeGraph.edgesWithin {u | u ∈ members} |
        v ∈ edge} =
      {edge ∈ (ofSnapshot s).wholeGraph.edgeSet |
        v ∈ edge ∧ ∀ u ∈ edge, u ∈ members} := by
    ext edge
    exact and_assoc.trans (and_congr_right fun _ => and_comm)
  have hends : ∀ l ∈ (ofSnapshot s).links.toList,
      ∀ edge : Sym2 (Fin (ofSnapshot s).size),
        edge.map Fin.val = s(l.low, l.high) →
          ((l.low == v.val || l.high == v.val) = true ↔ v ∈ edge) := by
    intro l _ edge hedge
    have hmem : v.val ∈ s(l.low, l.high) ↔ v ∈ edge := by
      rw [← hedge, Sym2.mem_map]
      simp [Fin.val_inj]
    rw [← hmem, Sym2.mem_iff, Bool.or_eq_true, beq_iff_eq, beq_iff_eq,
      eq_comm (a := v.val), eq_comm (a := v.val)]
  have hcount : {edge ∈ (ofSnapshot s).wholeGraph.edgesWithin {u | u ∈ members}
      | v ∈ edge}.ncard =
      ((ofSnapshot s).wholeGraph.neighborsWithin {u | u ∈ members} v).ncard :=
    SimpleGraph.ncard_edgesWithin_mem hv
  rw [← hcount, hset, degreeIn, linksWithin, List.countP_filter]
  apply countP_links s
  intro l hl edge hedge
  rw [Bool.and_eq_true, hends l hl edge hedge, contains_ends_iff hedge]

theorem isMostCentral_map_val_iff
    {degree : Nat → Nat} {n : Nat} {members : List (Fin n)} {x : Nat} :
    IsMostCentral degree (members.map Fin.val) x ↔
      ∃ v ∈ members, v.val = x ∧ ∀ w ∈ members, Outranks degree v w := by
  rw [IsMostCentral, List.mem_map]
  simp only [List.forall_mem_map]
  constructor
  · rintro ⟨⟨v, hv, rfl⟩, hall⟩
    exact ⟨v, hv, rfl, hall⟩
  · rintro ⟨v, hv, rfl, hall⟩
    exact ⟨⟨v, hv, rfl⟩, hall⟩

theorem density_summary {α : Type} [Score α] :
    ((ofSnapshot s).summary (members.map Fin.val) : GroupSummary α).density =
      density members.length
        ((ofSnapshot s).linksWithin (members.map Fin.val)).length := by
  rw [summary, List.length_map]

theorem length_le_of_nodup
    {n : Nat} {members : List (Fin n)}
    (hnodup : members.Nodup) :
    members.length ≤ n := by
  have hle := hnodup.length_le_card
  rwa [Fintype.card_fin] at hle

theorem describes_summary
    (hindex : (ofSnapshot s).size < 2 ^ 32)
    (hnodup : members.Nodup) :
    ((ofSnapshot s).summary (members.map Fin.val) : GroupSummary ℚ).Describes
      (ofSnapshot s).wholeGraph members := by
  have hsmall := (length_le_of_nodup hnodup).trans_lt hindex
  have hlinks := length_linksWithin_eq_ncard s members
  have hdensity := density_summary (α := ℚ) s members
  refine
    { internalLinks_eq := hlinks
      central_eq_none_iff := mostCentral_eq_none_iff.trans List.map_eq_nil_iff
      central_eq_some_iff := fun x => ?_
      density_eq := fun hlarge => ?_
      density_eq_zero := fun hfew => hdensity.trans (density_of_lt_two hfew)
      density_mem_Icc := ?_ }
  · refine (mostCentral_eq_some_iff.trans isMostCentral_map_val_iff).trans ?_
    apply exists_congr
    intro v
    apply and_congr_right
    intro hv
    apply and_congr_right
    intro _
    apply forall₂_congr
    intro w hw
    rw [Outranks, degreeIn_linksWithin s members hv,
      degreeIn_linksWithin s members hw, Fin.val_fin_le]
  · rw [hdensity, density_rat hlarge hsmall, Nat.cast_choose_two]
    rfl
  · rw [hdensity, hlinks]
    apply density_mem_Icc hsmall
    rw [← ncard_mem_eq_length hnodup]
    exact SimpleGraph.ncard_edgesWithin_le

end Summary

end Network

end LinkAnalysis
