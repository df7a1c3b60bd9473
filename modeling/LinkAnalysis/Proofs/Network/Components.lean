import LinkAnalysis.Network.Components
import LinkAnalysis.Proofs.Network.DisjointSets
import LinkAnalysis.Proofs.Network.LinkGraph
import Mathlib.Combinatorics.SimpleGraph.Connectivity.Finite

/-!
# Connected components

Components are gathered from the representatives of a partition in one pass over
the nodes.  After the first `k` nodes the groups are the classes of these nodes,
by smallest member.  Since the partition joins the ends of all links, its
classes are the connected components of the graph of the links, whatever
partition is used; in particular they depend only on which nodes are joined.
-/

namespace LinkAnalysis

open scoped Classical

/-! ## Classes -/

/-- The numbers below `n` that are the smallest of their class. -/
noncomputable def firsts (same : Nat → Nat → Prop) (n : Nat) : List Nat :=
  (List.range n).filter fun v => ∀ w < v, ¬ same w v

/-- The classes of the numbers below `n`, by smallest member. -/
noncomputable def classes (same : Nat → Nat → Prop)
    (n : Nat) : List (List Nat) :=
  (firsts same n).map fun v => (List.range n).filter fun w => same v w

section Classes

variable {same : Nat → Nat → Prop} {k v : Nat}

theorem mem_firsts : v ∈ firsts same k ↔ v < k ∧ ∀ w < v, ¬ same w v := by
  simp [firsts]

theorem firsts_succ :
    firsts same (k + 1) =
      firsts same k ++ if ∀ w < k, ¬ same w k then [k] else [] := by
  rw [firsts, List.range_succ, List.filter_append, ← firsts,
    List.filter_singleton]
  simp

theorem exists_first
    (hsame : Equivalence same)
    (hv : v < k) :
    ∃ w ∈ firsts same k, same w v := by
  have hex : ∃ w, same w v := ⟨v, hsame.refl v⟩
  have hmin := Nat.find_spec hex
  refine ⟨Nat.find hex, mem_firsts.mpr ⟨?_, fun w hw hlower => ?_⟩, hmin⟩
  · exact (Nat.find_min' hex (hsame.refl v)).trans_lt hv
  · exact Nat.find_min hex hw (hsame.trans hlower hmin)

theorem filter_range_succ (same : Nat → Nat → Prop) (k v : Nat) :
    ((List.range (k + 1)).filter fun w => same v w) =
      ((List.range k).filter fun w => same v w) ++
        if same v k then [k] else [] := by
  rw [List.range_succ, List.filter_append, List.filter_singleton]
  simp

theorem classes_succ_of_known (hknown : ∃ w < k, same w k) :
    classes same (k + 1) = (firsts same k).map fun v =>
      ((List.range k).filter fun w => same v w) ++
        if same v k then [k] else [] := by
  obtain ⟨w, hw, hwk⟩ := hknown
  have hold : ¬ ∀ w < k, ¬ same w k := fun hnew => hnew w hw hwk
  rw [classes, firsts_succ, if_neg hold, List.append_nil]
  simp only [filter_range_succ]

theorem classes_succ_of_new
    (hsame : Equivalence same)
    (hnew : ∀ w < k, ¬ same w k) :
    classes same (k + 1) = classes same k ++ [[k]] := by
  rw [classes, firsts_succ, if_pos hnew, List.map_append, classes]
  refine congrArg₂ (· ++ ·) (List.map_congr_left fun v hv => ?_) ?_
  · rw [filter_range_succ, if_neg (hnew v (mem_firsts.mp hv).1),
      List.append_nil]
  · have hnone : ((List.range k).filter fun w => same k w) = [] := by
      rw [List.filter_eq_nil_iff]
      intro w hw
      simpa using fun hold => hnew w (List.mem_range.mp hw) (hsame.symm hold)
    rw [List.map_singleton, filter_range_succ, hnone, if_pos (hsame.refl k),
      List.nil_append]

theorem getElem?_classes (slot : Nat) :
    (classes same k)[slot]? = ((firsts same k)[slot]?).map fun v =>
      (List.range k).filter fun w => same v w := by
  rw [classes, List.getElem?_map]

end Classes

/-! ## Gathering -/

section Gathering

variable {σ : Type} {uf : UnionFind σ}
  {fits : Nat → σ → Prop} {rep : σ → Nat → Nat}
variable {n k : Nat} {root : Nat → Nat}

/-- The first `k` of `n` nodes, which have these representatives, have been
gathered. -/
structure Gathering.Gathered (fits : Nat → σ → Prop) (rep : σ → Nat → Nat)
    (n : Nat) (root : Nat → Nat) (k : Nat) (c : Gathering σ) : Prop where
  fits : fits n c.sets
  rep_eq : ∀ v < n, rep c.sets v = root v
  size_slots : c.slots.size = n
  slot_iff : ∀ r < n, ∀ slot, c.slots.getD r none = some slot ↔
    ((firsts (fun v w => root v = root w) k)[slot]?).map root = some r
  groups_eq : c.groups.toList.map Array.toList =
    classes (fun v w => root v = root w) k

theorem Gathering.gathered_start
    {sets : σ}
    (hfits : fits n sets)
    (hrep : ∀ v < n, rep sets v = root v) :
    Gathered fits rep n root 0 (start sets n) := by
  refine ⟨hfits, hrep, by simp [start], fun r hr slot => ?_, ?_⟩
  · simp [start, firsts, hr]
  · simp [start, classes, firsts]

theorem Gathering.Gathered.size_groups
    {c : Gathering σ}
    (hgathered : Gathered fits rep n root k c) :
    c.groups.size = (firsts (fun v w => root v = root w) k).length := by
  simpa [classes] using congrArg List.length hgathered.groups_eq

theorem Gathering.Gathered.join
    {c : Gathering σ}
    (hgathered : Gathered fits rep n root k c)
    {sets : σ}
    (hfits : fits n sets)
    (hrep : ∀ v < n, rep sets v = root v)
    (hroot : root k < n)
    {slot : Nat}
    (hslot : c.slots.getD (root k) none = some slot) :
    Gathered fits rep n root (k + 1)
      { c with sets := sets, groups := c.groups.modify slot (·.push k) } := by
  obtain ⟨f, hf, hfk⟩ :=
    Option.map_eq_some_iff.mp ((hgathered.slot_iff _ hroot slot).mp hslot)
  have hmem := mem_firsts.mp (List.mem_of_getElem? hf)
  have hfirsts : firsts (fun v w => root v = root w) (k + 1) =
      firsts (fun v w => root v = root w) k := by
    rw [firsts_succ, if_neg fun hnew => hnew f hmem.1 hfk, List.append_nil]
  refine ⟨hfits, hrep, hgathered.size_slots, fun r hr slot' => ?_, ?_⟩
  · rw [hfirsts]
    exact hgathered.slot_iff r hr slot'
  · rw [classes_succ_of_known ⟨f, hmem.1, hfk⟩]
    apply List.ext_getElem?
    intro i
    have hget := congrArg (·[i]?) hgathered.groups_eq
    simp only [getElem?_classes, List.getElem?_map] at hget
    rw [List.getElem?_map, List.getElem?_map, Array.toList_modify,
      List.getElem?_modify]
    cases hi : (firsts (fun v w => root v = root w) k)[i]? with
    | none =>
        rw [hi, Option.map_none, Option.map_eq_none_iff] at hget
        simp [hget]
    | some v =>
        rw [hi, Option.map_some, Option.map_eq_some_iff] at hget
        obtain ⟨group, hgroup, hlist⟩ := hget
        by_cases hik : slot = i
        · subst slot
          obtain rfl := Option.some.inj (hi.symm.trans hf)
          simp [hgroup, hlist, hfk]
        · have hne : root v ≠ root k := by
            intro heq
            have hslot' := (hgathered.slot_iff _ hroot i).mpr
              (by rw [hi, Option.map_some, heq])
            exact hik (Option.some.inj (hslot.symm.trans hslot'))
          simp [hgroup, hlist, hik, hne]

theorem Gathering.Gathered.open
    {c : Gathering σ}
    (hgathered : Gathered fits rep n root k c)
    {sets : σ}
    (hfits : fits n sets)
    (hrep : ∀ v < n, rep sets v = root v)
    (hroot : root k < n)
    (hslot : c.slots.getD (root k) none = none) :
    Gathered fits rep n root (k + 1)
      { sets := sets
        slots := c.slots.setIfInBounds (root k) (some c.groups.size)
        groups := c.groups.push #[k] } := by
  have hequivalence : Equivalence fun v w => root v = root w :=
    (Setoid.ker root).iseqv
  have hunmet :
      ∀ slot f : Nat, (firsts (fun v w => root v = root w) k)[slot]? = some f →
        root f ≠ root k := by
    intro slot f hf hfk
    have hmet :=
      (hgathered.slot_iff _ hroot slot).mpr (by rw [hf, Option.map_some, hfk])
    simp [hslot] at hmet
  have hnew : ∀ w < k, root w ≠ root k := by
    intro w hw heq
    obtain ⟨f, hf, hfw⟩ := exists_first hequivalence hw
    obtain ⟨slot, hget⟩ := List.mem_iff_getElem?.mp hf
    exact hunmet slot f hget (hfw.trans heq)
  have hfirsts : firsts (fun v w => root v = root w) (k + 1) =
      firsts (fun v w => root v = root w) k ++ [k] := by
    rw [firsts_succ, if_pos hnew]
  refine ⟨hfits, hrep,
    by simpa using hgathered.size_slots, fun r hr slot => ?_, ?_⟩
  · have hold := hgathered.slot_iff r hr slot
    simp only [getD_setIfInBounds, hgathered.size_slots, hroot, and_true,
      hfirsts, hgathered.size_groups]
    rcases Nat.lt_trichotomy slot (firsts (fun v w => root v = root w) k).length
      with hlt | rfl | hgt
    · rw [List.getElem?_append_left hlt]
      by_cases hr' : r = root k
      · subst r
        rw [← hold, hslot, if_pos rfl]
        simp [hlt.ne']
      · rw [if_neg hr', hold]
    · rw [List.getElem?_concat_length]
      rw [List.getElem?_eq_none le_rfl] at hold
      by_cases hr' : r = root k
      · simp [hr']
      · simp only [if_neg hr', hold]
        simp [Ne.symm hr']
    · rw [List.getElem?_eq_none (by simpa using hgt)]
      rw [List.getElem?_eq_none hgt.le] at hold
      by_cases hr' : r = root k
      · simp [hr', hgt.ne]
      · rw [if_neg hr', hold]
  · rw [classes_succ_of_new hequivalence hnew, ← hgathered.groups_eq]
    simp

theorem Gathering.Gathered.add
    (huf : uf.Lawful fits rep)
    {c : Gathering σ}
    (hgathered : Gathered fits rep n root k c)
    (hk : k < n) :
    Gathered fits rep n root (k + 1) (c.add uf k) := by
  have hfind := huf.find_eq hgathered.fits hk
  rw [hgathered.rep_eq k hk] at hfind
  have hroot : root k < n := by
    rw [← hgathered.rep_eq k hk]
    exact huf.rep_lt hgathered.fits hk
  have hfits := huf.fits_find hgathered.fits hk
  have hrep : ∀ v < n, rep (uf.find c.sets k).2 v = root v := fun v hv =>
    (huf.rep_find hgathered.fits hk hv).trans (hgathered.rep_eq v hv)
  unfold Gathering.add
  simp only [hfind]
  split
  case h_1 slot hslot => exact hgathered.join hfits hrep hroot hslot
  case h_2 hslot => exact hgathered.open hfits hrep hroot hslot

/-- After all nodes the groups are the classes of nodes with one
representative. -/
theorem gathered_range
    (huf : uf.Lawful fits rep)
    {sets : σ}
    (hfits : fits n sets)
    (hk : k ≤ n) :
    Gathering.Gathered fits rep n (rep sets) k
      ((List.range k).foldl (Gathering.add uf) (Gathering.start sets n)) := by
  induction k with
  | zero => exact Gathering.gathered_start hfits fun _ _ => rfl
  | succ k ih =>
      rw [List.range_succ, List.foldl_concat]
      exact (ih (by omega)).add huf hk

end Gathering

/-! ## Components of a graph -/

def JoinedIn {n : Nat} (G : SimpleGraph (Fin n)) (v w : Nat) : Prop :=
  ∃ (hv : v < n) (hw : w < n), G.Reachable ⟨v, hv⟩ ⟨w, hw⟩

theorem joinedIn_val
    {n : Nat} {G : SimpleGraph (Fin n)} {v w : Fin n} :
    JoinedIn G v.val w.val ↔ G.Reachable v w :=
  ⟨fun ⟨_, _, hreachable⟩ => hreachable,
    fun hreachable => ⟨v.isLt, w.isLt, hreachable⟩⟩

theorem classes_congr
    {same same' : Nat → Nat → Prop} {n : Nat}
    (hsame : ∀ v < n, ∀ w < n, same v w ↔ same' v w) :
    classes same n = classes same' n := by
  have hfirsts : firsts same n = firsts same' n := by
    refine List.filter_congr fun v hv => decide_eq_decide.mpr ?_
    have hv := List.mem_range.mp hv
    exact forall_congr' fun w => imp_congr_right fun hw =>
      not_congr (hsame w (hw.trans hv) v hv)
  rw [classes, hfirsts, classes]
  refine List.map_congr_left fun v hv => List.filter_congr fun w hw =>
    decide_eq_decide.mpr ?_
  exact hsame v (mem_firsts.mp hv).1 w (List.mem_range.mp hw)

section Count

variable {n : Nat} (G : SimpleGraph (Fin n))

theorem connectedComponentMk_bijective :
    Function.Bijective fun v : {v : Fin n // ∀ w < v, ¬ G.Reachable w v} =>
      G.connectedComponentMk v.val := by
  constructor
  · rintro ⟨v, hv⟩ ⟨w, hw⟩ heq
    have hreach : G.Reachable v w := SimpleGraph.ConnectedComponent.eq.mp heq
    rcases lt_trichotomy v w with hlt | rfl | hlt
    · exact absurd hreach (hw v hlt)
    · rfl
    · exact absurd hreach.symm (hv w hlt)
  · intro c
    induction c using SimpleGraph.ConnectedComponent.ind with
    | _ v =>
    obtain ⟨w, hreach, hmin⟩ :=
      (Set.toFinite {w | G.Reachable w v}).exists_minimal ⟨v, .refl v⟩
    refine ⟨⟨w, fun u hu hreach' => ?_⟩,
      SimpleGraph.ConnectedComponent.eq.mpr hreach⟩
    exact absurd (hmin (hreach'.trans hreach) hu.le) (not_le.mpr hu)

/-- There are as many classes as connected components. -/
theorem length_classes_joinedIn :
    (classes (JoinedIn G) n).length = Nat.card G.ConnectedComponent := by
  have hfirsts : firsts (JoinedIn G) n = ((List.finRange n).filter fun v =>
      ∀ w < v, ¬ G.Reachable w v).map Fin.val := by
    rw [firsts, ← List.map_coe_finRange_eq_range, List.filter_map]
    refine congrArg (List.map Fin.val) (List.filter_congr fun v _ =>
      decide_eq_decide.mpr ?_)
    constructor
    · exact fun hfirst w hw hreach => hfirst w.val hw (joinedIn_val.mpr hreach)
    · rintro hfirst w hw ⟨hlt, _, hreach⟩
      exact hfirst ⟨w, hlt⟩ hw hreach
  have hnodup :
      ((List.finRange n).filter fun v => ∀ w < v, ¬ G.Reachable w v).Nodup :=
    (List.nodup_finRange n).filter _
  rw [← Nat.card_eq_of_bijective _ (connectedComponentMk_bijective G),
    Nat.card_eq_fintype_card, Fintype.card_subtype, classes, List.length_map,
    hfirsts, List.length_map, ← List.toFinset_card_of_nodup hnodup]
  apply congrArg Finset.card
  ext v
  simp

end Count

/-! ## Components of links -/

section Links

variable {σ : Type} {uf : UnionFind σ}
  {fits : Nat → σ → Prop} {rep : σ → Nat → Nat}
variable {n : Nat} {ends : Array (Nat × Nat)} {active : List Nat}

def Adjacency.ascending (adj : Adjacency) : List (Nat × Nat) :=
  adj.nodes.flatMap fun v => (adj.neighbors v).toList.filterMap fun step =>
    if v < step.1 then some (v, step.1) else none

theorem Adjacency.mem_ascending {adj : Adjacency} {v w : Nat} :
    (v, w) ∈ adj.ascending ↔
      v < adj.size ∧ v < w ∧ ∃ position, (w, position) ∈ adj.neighbors v := by
  simp only [ascending, nodes, List.mem_flatMap, List.mem_range,
    List.mem_filterMap, Option.ite_none_right_eq_some, Option.some.injEq,
    Prod.mk.injEq, Prod.exists, Array.mem_toList_iff]
  constructor
  · rintro ⟨v, hv, w, position, hmem, hlt, rfl, rfl⟩
    exact ⟨hv, hlt, position, hmem⟩
  · rintro ⟨hv, hlt, position, hmem⟩
    exact ⟨v, hv, w, position, hmem, hlt, rfl, rfl⟩

theorem joinAll_eq (uf : UnionFind σ) (adj : Adjacency) :
    joinAll uf adj = uf.joinPairs adj.size adj.ascending := by
  rw [joinAll, UnionFind.joinPairs, Adjacency.ascending, List.foldl_flatMap]
  apply List.foldl_ext
  intro sets v _
  rw [joinNeighbors, ← Array.foldl_toList, List.foldl_filterMap]
  apply List.foldl_ext
  intro sets step _
  split <;> simp_all

theorem lt_of_mem_ascending
    (hrange : Adjacency.InRange n ends active)
    {pair : Nat × Nat}
    (hpair : pair ∈ (Adjacency.ofEnds n ends active).ascending) :
    pair.1 < n ∧ pair.2 < n := by
  obtain ⟨hv, -, position, hmem⟩ := Adjacency.mem_ascending.mp hpair
  rw [Adjacency.size_ofEnds] at hv
  exact ⟨hv, Adjacency.lt_of_mem_neighbors_ofEnds hrange hmem⟩

theorem eqvGen_of_adj
    (hrange : Adjacency.InRange n ends active)
    {v w : Fin n}
    (hadj : (linkGraph n ends active).Adj v w) :
    Relation.EqvGen (fun v w =>
      (v, w) ∈ (Adjacency.ofEnds n ends active).ascending) v.val w.val := by
  obtain ⟨hne, position, hmem⟩ := linkGraph_adj_iff_exists.mp hadj
  rcases Nat.lt_or_gt_of_ne (fun heq => hne (Fin.ext heq)) with hlt | hlt
  · exact .rel _ _ (Adjacency.mem_ascending.mpr ⟨by simp, hlt, position, hmem⟩)
  · have hback := Adjacency.mem_neighbors_ofEnds_comm hrange hmem
    exact .symm _ _
      (.rel _ _ (Adjacency.mem_ascending.mpr ⟨by simp, hlt, position, hback⟩))

theorem eqvGen_ascending_iff
    (hrange : Adjacency.InRange n ends active)
    {x y : Nat}
    (hx : x < n) :
    Relation.EqvGen
        (fun v w => (v, w) ∈ (Adjacency.ofEnds n ends active).ascending) x y ↔
      JoinedIn (linkGraph n ends active) x y := by
  constructor
  · intro hgen
    have hjoined : x = y ∨ JoinedIn (linkGraph n ends active) x y := by
      clear hx
      induction hgen with
      | rel a b hab =>
          obtain ⟨-, hlt, position, hmem⟩ := Adjacency.mem_ascending.mp hab
          obtain ⟨ha, hb⟩ := lt_of_mem_ascending hrange hab
          have hadj : (linkGraph n ends active).Adj ⟨a, ha⟩ ⟨b, hb⟩ :=
            linkGraph_adj_iff_exists.mpr ⟨fun heq => hlt.ne (Fin.mk.inj heq),
              position, hmem⟩
          exact Or.inr ⟨ha, hb, hadj.reachable⟩
      | refl a => exact Or.inl rfl
      | symm a b _ ih =>
          rcases ih with rfl | ⟨ha, hb, hreach⟩
          · exact Or.inl rfl
          · exact Or.inr ⟨hb, ha, hreach.symm⟩
      | trans a b c _ _ ih ih' =>
          rcases ih with rfl | ⟨ha, hb, hreach⟩
          · exact ih'
          · rcases ih' with rfl | ⟨_, hc, hreach'⟩
            · exact Or.inr ⟨ha, hb, hreach⟩
            · exact Or.inr ⟨ha, hc, hreach.trans hreach'⟩
    rcases hjoined with rfl | hjoined
    · exact ⟨hx, hx, .refl _⟩
    · exact hjoined
  · rintro ⟨hx, hy, ⟨p⟩⟩
    have hwalk : ∀ {v w : Fin n}, (linkGraph n ends active).Walk v w →
        Relation.EqvGen (fun v w =>
        (v, w) ∈ (Adjacency.ofEnds n ends active).ascending) v.val w.val := by
      intro v w p
      induction p with
      | nil => exact .refl _
      | cons hadj p ih => exact .trans _ _ _ (eqvGen_of_adj hrange hadj) ih
    exact hwalk p

/-- The components found are the classes of nodes that the links join, whatever
partition is used. -/
theorem componentsBy_ofEnds
    (huf : uf.Lawful fits rep)
    (hrange : Adjacency.InRange n ends active) :
    componentsBy uf (Adjacency.ofEnds n ends active) =
      classes (JoinedIn (linkGraph n ends active)) n := by
  have hpairs :=
    fun pair (hpair : pair ∈ (Adjacency.ofEnds n ends active).ascending) =>
    lt_of_mem_ascending hrange hpair
  have hgathered := gathered_range huf (huf.fits_joinPairs hpairs) (le_refl n)
  rw [componentsBy, joinAll_eq, Adjacency.nodes, Adjacency.size_ofEnds,
    hgathered.groups_eq]
  apply classes_congr
  intro v hv w hw
  rw [huf.rep_joinPairs hpairs hv hw, eqvGen_ascending_iff hrange hv]

theorem components_ofEnds (hrange : Adjacency.InRange n ends active) :
    components (Adjacency.ofEnds n ends active) =
      classes (JoinedIn (linkGraph n ends active)) n :=
  componentsBy_ofEnds Labels.lawful hrange

/-- The number of components found is the number of connected components. -/
theorem length_components_ofEnds (hrange : Adjacency.InRange n ends active) :
    (components (Adjacency.ofEnds n ends active)).length =
      Nat.card (linkGraph n ends active).ConnectedComponent := by
  rw [components_ofEnds hrange, length_classes_joinedIn]

/-- Components depend only on which nodes are joined. -/
theorem components_ofEnds_congr
    {active' : List Nat}
    (hrange : Adjacency.InRange n ends active)
    (hrange' : Adjacency.InRange n ends active')
    (hreach : ∀ v w, (linkGraph n ends active).Reachable v w ↔
      (linkGraph n ends active').Reachable v w) :
    components (Adjacency.ofEnds n ends active) =
      components (Adjacency.ofEnds n ends active') := by
  rw [components_ofEnds hrange, components_ofEnds hrange']
  exact classes_congr fun v hv w hw =>
    exists_congr fun hv => exists_congr fun hw => hreach ⟨v, hv⟩ ⟨w, hw⟩

end Links

end LinkAnalysis
