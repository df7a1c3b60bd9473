import LinkAnalysis.Proofs.Community.Division
import LinkAnalysis.Proofs.Network.GroupOrder
import LinkAnalysis.Proofs.Network.Partition
import Mathlib

/-!
# The components that are reported

Of the components that are large enough the first ones are reported: larger
components stand first, and of equally large ones that with the smaller first
node.  Since all components larger than one that is large enough are large
enough as well, a component is reported exactly if few enough components stand
before it.
-/

namespace SimpleGraph.ConnectedComponent

variable {n : Nat} {G : SimpleGraph (Fin n)} {c d : G.ConnectedComponent}

/-- A component stands before another one that is smaller, or as large with a
greater first node. -/
def Precedes (c d : G.ConnectedComponent) : Prop :=
  d.supp.ncard < c.supp.ncard ∨
    c.supp.ncard = d.supp.ncard ∧ ∃ v ∈ c.supp, ∀ w ∈ d.supp, v < w

theorem Precedes.not_precedes (hprecedes : c.Precedes d) : ¬ d.Precedes c := by
  intro hback
  rcases hprecedes with hlt | ⟨heq, v, hv, hmin⟩
  · rcases hback with hlt' | ⟨heq, -⟩
    · exact hlt.asymm hlt'
    · exact hlt.ne heq
  · rcases hback with hlt | ⟨-, w, hw, hmin'⟩
    · exact hlt.ne heq
    · exact (hmin w hw).asymm (hmin' v hv)

theorem Precedes.ncard_le (hprecedes : c.Precedes d) :
    d.supp.ncard ≤ c.supp.ncard := by
  rcases hprecedes with hlt | ⟨heq, -⟩
  · exact hlt.le
  · exact heq.ge

/-- The first node of a component is its smallest one. -/
theorem head_le_of_mem_members
    {v w : Nat}
    (hv : c.members.head? = some v)
    (hw : w ∈ c.members) :
    v ≤ w :=
  LinkAnalysis.head_le_of_ascending c.members_ascending hv hw

theorem exists_head_members (c : G.ConnectedComponent) :
    ∃ v : Fin n, c.members.head? = some v.val ∧ v ∈ c.supp := by
  obtain ⟨w, hw⟩ := c.exists_mem_members
  cases hmembers : c.members with
  | nil => simp [hmembers] at hw
  | cons u more =>
      have hu : u ∈ c.members := by simp [hmembers]
      obtain ⟨hlt, hmk⟩ := mem_members.mp hu
      exact ⟨⟨u, hlt⟩, rfl, hmk⟩

theorem precedes_of_groupLe
    (hle : LinkAnalysis.groupLe c.members d.members = true)
    (hne : c ≠ d) :
    c.Precedes d := by
  obtain ⟨v, hv, hvc⟩ := c.exists_head_members
  obtain ⟨w, hw, hwd⟩ := d.exists_head_members
  simp only [LinkAnalysis.groupLe, hv, hw, Bool.or_eq_true, Bool.and_eq_true,
    decide_eq_true_eq, beq_iff_eq, length_members] at hle
  rcases hle with hlt | ⟨heq, hhead⟩
  · exact Or.inl hlt
  · have hfirst : v < w := by
      apply lt_of_le_of_ne hhead
      intro hval
      obtain rfl : v = w := Fin.ext hval
      exact hne (hvc.symm.trans hwd)
    refine Or.inr ⟨heq, v, hvc, fun u hu => lt_of_lt_of_le hfirst ?_⟩
    exact head_le_of_mem_members hw (val_mem_members.mpr hu)

end SimpleGraph.ConnectedComponent

namespace LinkAnalysis

open SimpleGraph.ConnectedComponent (members Precedes length_members
  members_injective)

/-! ## The first elements of a list in order -/

open scoped Classical in
/-- In a list in strict order the first ones are those with few elements before
them. -/
theorem mem_take_iff_countP_lt
    {β : Type} {R : β → β → Prop}
    (hasymm : ∀ x y, R x y → ¬ R y x)
    {l : List β}
    (hsorted : l.Pairwise R)
    {x : β} {k : Nat} :
    x ∈ l.take k ↔ x ∈ l ∧ l.countP (fun y => decide (R y x)) < k := by
  induction l generalizing k with
  | nil => simp
  | cons y l ih =>
      rcases List.pairwise_cons.mp hsorted with ⟨hfirst, hrest⟩
      cases k with
      | zero => simp
      | succ k =>
          rw [List.take_succ_cons, List.mem_cons, List.mem_cons, ih hrest,
            List.countP_cons]
          by_cases hx : x = y
          · subst y
            have hnone : l.countP (fun z => decide (R z x)) = 0 := by
              rw [List.countP_eq_zero]
              intro z hz
              simpa using hasymm x z (hfirst z hz)
            have hself : ¬ R x x := fun hrel => hasymm x x hrel hrel
            simp [hnone, hself]
          · by_cases hmem : x ∈ l
            · simp [hx, hmem, hfirst x hmem]
            · simp [hx, hmem]

/-! ## Reported components -/

section Reported

variable {net : Network} (hnet : SimpleEnds net.size net.ends)
  (removed : List Nat)

include hnet

/-- The reported groups are the first of the components that are large
enough. -/
theorem exists_order_reported (config : CommunityConfig) :
    ∃ order : List (net.graphWithout removed).ConnectedComponent,
      order.Pairwise Precedes ∧
      (∀ c, c ∈ order ↔ config.minSize ≤ c.supp.ncard) ∧
      reported config (net.componentsWithout removed) =
        (order.take config.maxCommunities).map members := by
  have hmem : ∀ group, group ∈
        sortGroups ((net.componentsWithout removed).filter fun g =>
          decide (config.minSize ≤ g.length)) ↔
      (∃ c : (net.graphWithout removed).ConnectedComponent, c.members = group) ∧
        config.minSize ≤ group.length := by
    intro group
    rw [sortGroups, List.mem_mergeSort, List.mem_filter, decide_eq_true_iff,
      Network.mem_componentsWithout hnet]
  obtain ⟨order, horder⟩ : sortGroups ((net.componentsWithout removed).filter
      fun g => decide (config.minSize ≤ g.length)) ∈
        Set.range (List.map (members (G := net.graphWithout removed))) := by
    rw [Set.range_list_map]
    intro group hgroup
    exact ((hmem group).mp hgroup).1
  have hnodup : (order.map members).Nodup := by
    rw [horder, sortGroups, (List.mergeSort_perm _ _).nodup_iff]
    rw [Network.componentsWithout_eq_classes hnet]
    exact (classes_joinedIn_nodup _).filter _
  have hsorted := sortGroups_pairwise ((net.componentsWithout removed).filter
    fun g => decide (config.minSize ≤ g.length))
  rw [← horder] at hmem hsorted
  refine ⟨order, ?_, fun c => ?_, ?_⟩
  · have hne : order.Pairwise fun c d => c ≠ d := List.Nodup.of_map _ hnodup
    exact ((List.pairwise_map.mp hsorted).and hne).imp fun hboth =>
      SimpleGraph.ConnectedComponent.precedes_of_groupLe hboth.1 hboth.2
  · rw [← List.mem_map_of_injective members_injective, hmem, length_members]
    exact and_iff_right ⟨c, rfl⟩
  · rw [reported, ← horder, List.map_take]

/-- A component is reported exactly if it is large enough and few enough
components precede it. -/
theorem members_mem_reported_iff
    (config : CommunityConfig)
    (c : (net.graphWithout removed).ConnectedComponent) :
    c.members ∈ reported config (net.componentsWithout removed) ↔
      config.minSize ≤ c.supp.ncard ∧
        {d : (net.graphWithout removed).ConnectedComponent |
              d.Precedes c}.ncard < config.maxCommunities := by
  classical
  obtain ⟨order, hsorted, hmem, heq⟩ :=
    exists_order_reported hnet removed config
  have hnodup : order.Nodup := hsorted.imp fun hprecedes heq => by
    subst heq
    exact hprecedes.not_precedes hprecedes
  rw [heq, List.mem_map_of_injective members_injective, mem_take_iff_countP_lt
    (fun _ _ hprecedes => hprecedes.not_precedes) hsorted, hmem]
  apply and_congr_right
  intro hsize
  have hset :
      {d : (net.graphWithout removed).ConnectedComponent | d.Precedes c} =
        ((order.filter fun d => decide (d.Precedes c)).toFinset : Set _) := by
    ext d
    simp only [Set.mem_ofPred_eq, List.coe_toFinset, List.mem_filter, hmem,
      decide_eq_true_eq]
    exact (and_iff_right_of_imp fun hprecedes =>
      hsize.trans hprecedes.ncard_le).symm
  rw [hset, Set.ncard_coe_finset, List.toFinset_card_of_nodup (hnodup.filter _),
    ← List.countP_eq_length_filter]

theorem reported_subset (config : CommunityConfig) :
    reported config (net.componentsWithout removed) ⊆
      net.componentsWithout removed := by
  rcases exists_order_reported hnet removed config with ⟨order, -, -, heq⟩
  rw [heq]
  intro group hgroup
  rcases List.mem_map.mp hgroup with ⟨c, -, hc⟩
  exact (Network.mem_componentsWithout hnet removed).mpr ⟨c, hc⟩

/-- All components are reported where no component is too small and none is one
too many. -/
theorem mem_reported_of_size_le
    (config : CommunityConfig)
    (hmin : config.minSize ≤ 1)
    (hmax : net.size ≤ config.maxCommunities)
    {group : List Nat} :
    group ∈ reported config (net.componentsWithout removed) ↔
      group ∈ net.componentsWithout removed := by
  have hall : ((net.componentsWithout removed).filter fun g =>
      decide (config.minSize ≤ g.length)) = net.componentsWithout removed := by
    rw [List.filter_eq_self]
    intro g hg
    rcases (Network.mem_componentsWithout hnet removed).mp hg with ⟨c, rfl⟩
    rcases c.exists_mem_members with ⟨v, hv⟩
    exact decide_eq_true (hmin.trans (List.length_pos_of_mem hv))
  have hcount := net.componentCountWithout_le_size removed
  rw [← Network.length_componentsWithout hnet] at hcount
  unfold reported
  rw [hall, List.take_of_length_le, sortGroups, List.mem_mergeSort]
  rw [sortGroups, List.length_mergeSort]
  exact hcount.trans hmax

/-- No node stands in two reported components, or twice in one of them. -/
theorem flatten_reported_nodup (config : CommunityConfig) :
    (reported config (net.componentsWithout removed)).flatten.Nodup := by
  rcases exists_order_reported hnet removed config with ⟨order, hsorted, -, heq⟩
  rw [heq, List.nodup_flatten]
  constructor
  · intro group hgroup
    rcases List.mem_map.mp hgroup with ⟨c, -, rfl⟩
    exact c.members_nodup
  · rw [List.pairwise_map]
    apply (hsorted.sublist (List.take_sublist _ _)).imp
    intro c d hprecedes v hc hd
    have heq := SimpleGraph.ConnectedComponent.eq_of_mem_members hc hd
    subst heq
    exact hprecedes.not_precedes hprecedes

theorem mem_flatten_reported_iff (config : CommunityConfig) {v : Fin net.size} :
    v.val ∈ (reported config (net.componentsWithout removed)).flatten ↔
      ((net.graphWithout removed).connectedComponentMk v).members ∈
        reported config (net.componentsWithout removed) := by
  rw [List.mem_flatten]
  constructor
  · intro hexists
    rcases hexists with ⟨group, hgroup, hv⟩
    rcases (Network.mem_componentsWithout hnet removed).mp
      (reported_subset hnet removed config hgroup) with ⟨c, rfl⟩
    rwa [SimpleGraph.ConnectedComponent.val_mem_members.mp hv]
  · intro hgroup
    exact ⟨_, hgroup, SimpleGraph.ConnectedComponent.val_mem_members.mpr rfl⟩

theorem lt_of_mem_flatten_reported
    (config : CommunityConfig) {v : Nat}
    (hv : v ∈ (reported config (net.componentsWithout removed)).flatten) :
    v < net.size := by
  rcases List.mem_flatten.mp hv with ⟨group, hgroup, hmem⟩
  exact Network.lt_of_mem_componentsWithout hnet removed
    (reported_subset hnet removed config hgroup) hmem

/-- The nodes of the reported components and all others are all nodes. -/
theorem flatten_reported_append_perm (config : CommunityConfig) :
    ((reported config (net.componentsWithout removed)).flatten ++
        (List.range net.size).filter fun v =>
        !(reported config (net.componentsWithout removed)).flatten.contains
        v).Perm (List.range net.size) := by
  set grouped :=
    (reported config (net.componentsWithout removed)).flatten with hgrouped
  have hnodup : grouped.Nodup := flatten_reported_nodup hnet removed config
  apply (List.perm_ext_iff_of_nodup ?_ List.nodup_range).mpr
  · intro v
    rw [List.mem_append, List.mem_filter, List.mem_range]
    by_cases hv : v ∈ grouped
    · simp [hv, lt_of_mem_flatten_reported hnet removed config hv]
    · simp [hv]
  · rw [List.nodup_append]
    refine ⟨hnodup, List.nodup_range.filter _, fun v hv w hw heq => ?_⟩
    subst heq
    simp [hv] at hw

end Reported

end LinkAnalysis
