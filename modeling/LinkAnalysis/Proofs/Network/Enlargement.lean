import LinkAnalysis.Proofs.Network.Embedding
import LinkAnalysis.Proofs.Network.LinkGraph
import Mathlib.Data.Nat.Nth

/-!
# Enlarged networks and parts of networks

More nodes and links may join a network without touching what is there: the old
nodes and links keep their order, and no new link leads to an old node.  The
adjacency of the old links stands inside that of all links then, since every
list of neighbours is in order before and after.

A set of nodes that no link leaves is what such a network was before the others
joined.  Its nodes are numbered by how many of the set are smaller, and its
links keep their positions.
-/

namespace LinkAnalysis

namespace Adjacency

/-! ## Enlarged networks -/

/-- The old nodes and links have these places and positions among the new ones,
in the same order.  The links that have joined them, `others`, do not lead to
old nodes. -/
structure Enlarges (n : Nat) (ends : Array (Nat × Nat)) (active : List Nat)
    (n' : Nat) (ends' : Array (Nat × Nat)) (active' : List Nat)
    (place move : Nat → Nat) (others : List Nat) : Prop where
  place_lt : ∀ v < n, place v < n'
  place_lt_place : ∀ v w, v < w → w < n → place v < place w
  move_lt_move : ∀ e ∈ active, ∀ f ∈ active, e < f → move e < move f
  ends_move : ∀ e ∈ active, ends'[move e]? = ends[e]?.map (Prod.map place place)
  active_perm : active'.Perm (active.map move ++ others)
  misses : ∀ e ∈ others, ∀ a b, ends'[e]? = some (a, b) →
    Misses (· < n) place a ∧ Misses (· < n) place b

theorem HasLink.mem_active
    {n e : Nat} {ends : Array (Nat × Nat)} {active : List Nat}
    (hlink : (ofEnds n ends active).HasLink e) :
    e ∈ active := by
  rcases hlink with ⟨v, step, hstep, rfl⟩
  exact (mem_neighbors_ofEnds.mp hstep).2.1

theorem InRange.hasLink
    {n e : Nat} {ends : Array (Nat × Nat)} {active : List Nat}
    (hrange : InRange n ends active)
    (he : e ∈ active) :
    (ofEnds n ends active).HasLink e := by
  rcases hrange e he with ⟨a, b, hget, ha, -⟩
  exact ⟨a, (b, e), mem_neighbors_ofEnds.mpr ⟨ha, he, Or.inl hget⟩, rfl⟩

namespace Enlarges

variable {n n' : Nat} {ends ends' : Array (Nat × Nat)} {active active' others :
  List Nat} {place move : Nat → Nat}

theorem place_injective
    (henlarges : Enlarges n ends active n' ends' active' place move others)
    {v w : Nat}
    (hv : v < n)
    (hw : w < n)
    (heq : place v = place w) :
    v = w := by
  have hmono : StrictMonoOn place {u | u < n} :=
    fun u _ u' hu' hlt => henlarges.place_lt_place u u' hlt hu'
  exact hmono.injOn hv hw heq

theorem move_injective
    (henlarges : Enlarges n ends active n' ends' active' place move others)
    {e f : Nat}
    (he : e ∈ active)
    (hf : f ∈ active)
    (heq : move e = move f) :
    e = f := by
  have hmono : StrictMonoOn move {e | e ∈ active} :=
    fun e he f hf hlt => henlarges.move_lt_move e he f hf hlt
  exact hmono.injOn he hf heq

/-- An old link contributes to the neighbours of a node what it contributed
before. -/
theorem endsAt_move
    (henlarges : Enlarges n ends active n' ends' active' place move others)
    (hrange : InRange n ends active)
    {v e : Nat}
    (hv : v < n)
    (he : e ∈ active) :
    endsAt ends' (place v) (move e) =
      (endsAt ends v e).map (Prod.map place move) := by
  rcases hrange e he with ⟨a, b, hget, ha, hb⟩
  have hplace : ∀ {u : Nat}, u < n → (place u = place v ↔ u = v) :=
    fun hu => ⟨henlarges.place_injective hu hv, congrArg place⟩
  unfold endsAt
  rw [henlarges.ends_move e he, hget]
  simp only [Option.map_some, Prod.map_apply, hplace ha, hplace hb,
    List.map_append]
  by_cases hav : a = v <;> by_cases hbv : b = v <;> simp [hav, hbv]

/-- A new link contributes nothing to the neighbours of an old node. -/
theorem endsAt_others
    (henlarges : Enlarges n ends active n' ends' active' place move others)
    {v e : Nat}
    (hv : v < n)
    (he : e ∈ others) :
    endsAt ends' (place v) e = [] := by
  unfold endsAt
  cases hget : ends'[e]? with
  | none => rfl
  | some pair =>
      rcases henlarges.misses e he pair.1 pair.2 hget with ⟨ha, hb⟩
      simp [(ha v hv).symm, (hb v hv).symm]

theorem neighbors_perm
    (henlarges : Enlarges n ends active n' ends' active' place move others)
    (hrange : InRange n ends active)
    {v : Nat}
    (hv : v < n) :
    ((ofEnds n' ends' active').neighbors (place v)).toList.Perm
      (((ofEnds n ends active).neighbors v).toList.map
        (Prod.map place move)) := by
  have hold : (active.map move).flatMap (endsAt ends' (place v)) =
      (active.flatMap (endsAt ends v)).map (Prod.map place move) := by
    rw [List.flatMap_map, List.map_flatMap]
    exact List.flatMap_congr fun e he => henlarges.endsAt_move hrange hv he
  have hnew : others.flatMap (endsAt ends' (place v)) = [] :=
    List.flatMap_eq_nil_iff.mpr fun e he => henlarges.endsAt_others hv he
  refine (neighbors_ofEnds_perm ends' active' (henlarges.place_lt v hv)).trans
    ?_
  refine (henlarges.active_perm.flatMap_right _).trans ?_
  rw [List.flatMap_append, hold, hnew, List.append_nil]
  exact (neighbors_ofEnds_perm ends active hv).symm.map _

/-- The lists of neighbours are in order, so the same neighbours stand in the
same order. -/
theorem neighbors_place
    (henlarges : Enlarges n ends active n' ends' active' place move others)
    (hrange : InRange n ends active)
    {v : Nat}
    (hv : v < n) :
    ((ofEnds n' ends' active').neighbors (place v)).toList =
      ((ofEnds n ends active).neighbors v).toList.map
        (Prod.map place move) := by
  have hsorted : (((ofEnds n ends active).neighbors v).toList.map
        (Prod.map place move)).Pairwise fun x y => neighborLe x y = true := by
    rw [List.pairwise_map]
    apply (neighbors_ofEnds_pairwise n ends active v).imp_of_mem
    intro x y hx hy hle
    rw [Array.mem_toList_iff] at hx hy
    have hlt : y.1 < n := lt_of_mem_neighbors_ofEnds hrange hy
    have hxmem : x.2 ∈ active := (mem_neighbors_ofEnds.mp hx).2.1
    have hymem : y.2 ∈ active := (mem_neighbors_ofEnds.mp hy).2.1
    rw [neighborLe_iff] at hle ⊢
    rcases hle with hnode | ⟨hnode, hposition⟩
    · exact Or.inl (henlarges.place_lt_place x.1 y.1 hnode hlt)
    · refine Or.inr ⟨congrArg place hnode, ?_⟩
      rcases hposition.eq_or_lt with heq | hposition
      · exact (congrArg move heq).le
      · exact (henlarges.move_lt_move x.2 hxmem y.2 hymem hposition).le
  refine (henlarges.neighbors_perm hrange hv).eq_of_pairwise (fun x y _ _ hxy
    hyx => ?_) (neighbors_ofEnds_pairwise n' ends' active' (place v)) hsorted
  rw [neighborLe_iff] at hxy hyx
  exact Prod.ext (by omega) (by omega)

theorem misses_of_mem_neighbors
    (henlarges : Enlarges n ends active n' ends' active' place move others)
    (hrange : InRange n ends active)
    {v : Nat}
    (hv : Misses (· < n) place v)
    {step : Nat × Nat}
    (hstep : step ∈ (ofEnds n' ends' active').neighbors v) :
    Misses (· < n) place step.1 ∧ Misses (· ∈ active) move step.2 := by
  rcases mem_neighbors_ofEnds.mp hstep with ⟨-, hactive, hends⟩
  have hposition : Misses (· ∈ active) move step.2 := by
    intro e he heq
    rcases hrange e he with ⟨a, b, hget, ha, hb⟩
    have hget' := henlarges.ends_move e he
    rw [heq, hget] at hget'
    rcases hends with hends | hends
    · exact hv a ha (Prod.mk.inj (Option.some.inj (hget'.symm.trans hends))).1
    · exact hv b hb (Prod.mk.inj (Option.some.inj (hget'.symm.trans hends))).2
  refine ⟨?_, hposition⟩
  rcases List.mem_append.mp (henlarges.active_perm.mem_iff.mp hactive)
    with hold | hnew
  · rcases List.mem_map.mp hold with ⟨e, he, heq⟩
    exact absurd heq (hposition e he)
  · rcases hends with hends | hends
    · exact (henlarges.misses step.2 hnew _ _ hends).2
    · exact (henlarges.misses step.2 hnew _ _ hends).1

theorem embeds
    (henlarges : Enlarges n ends active n' ends' active' place move others)
    (hrange : InRange n ends active) :
    (ofEnds n ends active).Embeds (ofEnds n' ends' active') place move := by
  refine
    { closed := hrange.closed
      place_lt := ?_
      place_lt_place := ?_
      move_injective :=
        fun e f he hf => henlarges.move_injective he.mem_active hf.mem_active
      neighbors_place := ?_
      misses := ?_ }
  · rw [size_ofEnds, size_ofEnds]
    exact henlarges.place_lt
  · rw [size_ofEnds]
    exact henlarges.place_lt_place
  · rw [size_ofEnds]
    exact fun v hv => henlarges.neighbors_place hrange hv
  · rw [size_ofEnds]
    intro v hv step hstep
    rcases henlarges.misses_of_mem_neighbors hrange hv hstep
      with ⟨hnode, hposition⟩
    exact ⟨hnode, fun e he => hposition e he.mem_active⟩

end Enlarges

/-! ## Parts of networks -/

/-- No link leads from a node inside to one that is not. -/
def ClosedUnder (adj : Adjacency) (inside : Nat → Prop) : Prop :=
  ∀ v, inside v → ∀ step ∈ adj.neighbors v, inside step.1

theorem closedUnder_iff
    {n : Nat} {ends : Array (Nat × Nat)} {active : List Nat}
    {inside : Nat → Prop}
    (hrange : InRange n ends active) :
    (ofEnds n ends active).ClosedUnder inside ↔
      ∀ e ∈ active, ∀ a b, ends[e]? = some (a, b) → (inside a ↔ inside b) := by
  constructor
  · intro hclosed e he a b hget
    rcases hrange e he with ⟨a', b', hget', ha, hb⟩
    rcases Prod.mk.inj (Option.some.inj (hget.symm.trans hget')) with ⟨rfl, rfl⟩
    exact ⟨fun hinside => hclosed a hinside
      (b, e) (mem_neighbors_ofEnds.mpr ⟨ha, he, Or.inl hget⟩), fun hinside =>
      hclosed b hinside (a, e) (mem_neighbors_ofEnds.mpr ⟨hb, he, Or.inr hget⟩)⟩
  · intro hclosed v hv step hstep
    rcases mem_neighbors_ofEnds.mp hstep with ⟨-, he, hget | hget⟩
    · exact (hclosed step.2 he _ _ hget).mp hv
    · exact (hclosed step.2 he _ _ hget).mpr hv

section Part

variable (n : Nat) (ends : Array (Nat × Nat)) (active : List Nat)
  (inside : Nat → Prop) [DecidablePred inside]

def linksInside : List Nat :=
  active.filter fun e => (ends[e]?).any fun pair =>
    decide (inside pair.1 ∧ inside pair.2)

/-- The links between nodes inside, with these nodes numbered anew in ascending
order.  Links keep their positions. -/
def part : Adjacency :=
  ofEnds (Nat.count inside n) (ends.map (Prod.map (Nat.count inside)
      (Nat.count inside))) (linksInside ends active inside)

variable {n ends active inside}

theorem mem_linksInside {e : Nat} :
    e ∈ linksInside ends active inside ↔
      e ∈ active ∧ ∃ a b, ends[e]? = some (a, b) ∧ inside a ∧ inside b := by
  unfold linksInside
  rw [List.mem_filter]
  apply and_congr_right
  intro _
  cases hget : ends[e]? with
  | none => simp
  | some pair => simp [Prod.ext_iff]

theorem exists_count_eq {i : Nat} (hi : i < Nat.count inside n) :
    ∃ v < n, inside v ∧ Nat.count inside v = i := by
  induction n with
  | zero => simp at hi
  | succ n ih =>
      by_cases hlt : i < Nat.count inside n
      · rcases ih hlt with ⟨v, hv, hinside, hcount⟩
        exact ⟨v, hv.trans (Nat.lt_succ_self n), hinside, hcount⟩
      · by_cases hn : inside n
        · rw [Nat.count_succ, if_pos hn] at hi
          exact ⟨n, Nat.lt_succ_self n, hn, by omega⟩
        · rw [Nat.count_succ, if_neg hn] at hi
          exact absurd hi hlt

theorem nth_inside {i : Nat} (hi : i < Nat.count inside n) :
    inside (Nat.nth inside i) := by
  rcases exists_count_eq hi with ⟨v, -, hv, rfl⟩
  rwa [Nat.nth_count hv]

theorem inRange_part (hrange : InRange n ends active) :
    InRange (Nat.count inside n)
      (ends.map (Prod.map (Nat.count inside) (Nat.count inside)))
      (linksInside ends active inside) := by
  intro e he
  rcases mem_linksInside.mp he with ⟨hactive, a, b, hget, ha, hb⟩
  rcases hrange e hactive with ⟨a', b', hget', ha', hb'⟩
  rcases Prod.mk.inj (Option.some.inj (hget.symm.trans hget')) with ⟨rfl, rfl⟩
  refine ⟨_, _, by rw [Array.getElem?_map, hget]; rfl,
    Nat.count_strict_mono ha ha', Nat.count_strict_mono hb hb'⟩

/-- A set of nodes that no link leaves was enlarged by all other nodes and
links. -/
theorem enlarges_part
    (hrange : InRange n ends active)
    (hclosed : (ofEnds n ends active).ClosedUnder inside) :
    Enlarges (Nat.count inside n)
      (ends.map (Prod.map (Nat.count inside) (Nat.count inside)))
      (linksInside ends active inside) n ends active (Nat.nth inside) id
      (active.filter fun e =>
        !(ends[e]?).any fun pair =>
          decide (inside pair.1 ∧ inside pair.2)) := by
  refine
    { place_lt := fun i hi => Nat.nth_lt_of_lt_count hi
      place_lt_place := fun i j hij hj => ?_
      move_lt_move := fun _ _ _ _ hlt => hlt
      ends_move := fun e he => ?_
      active_perm := ?_
      misses := fun e he a b hget => ?_ }
  · rcases exists_count_eq (hij.trans hj) with ⟨v, -, hv, rfl⟩
    rcases exists_count_eq hj with ⟨w, -, hw, rfl⟩
    rw [Nat.nth_count hv, Nat.nth_count hw]
    exact Nat.lt_of_count_lt_count hij
  · rcases mem_linksInside.mp he with ⟨-, u, v, hget, hu, hv⟩
    simp only [id, Array.getElem?_map, hget, Option.map_some, Prod.map_apply,
      Nat.nth_count hu, Nat.nth_count hv]
  · rw [List.map_id]
    exact (List.filter_append_perm _ active).symm
  · rcases List.mem_filter.mp he with ⟨hactive, hnot⟩
    have hneither : ¬ (inside a ∧ inside b) := by
      intro hboth
      simp [hget, hboth] at hnot
    have hsame := (closedUnder_iff hrange).mp hclosed e hactive a b hget
    refine ⟨fun i hi heq => ?_, fun i hi heq => ?_⟩
    · have hinside : inside a := heq ▸ nth_inside hi
      exact hneither ⟨hinside, hsame.mp hinside⟩
    · have hinside : inside b := heq ▸ nth_inside hi
      exact hneither ⟨hsame.mpr hinside, hinside⟩

end Part

end Adjacency

end LinkAnalysis
