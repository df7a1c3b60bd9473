import LinkAnalysis.Network.Adjacency
import Mathlib.Data.List.Nodup
import Mathlib.Tactic

/-!
# The neighbours of a node

An adjacency is built by listing every active link at both its ends and sorting
each list.  The list of a node therefore holds what the active links contribute
to it, one by one, in ascending order; in which order the links were taken makes
no difference.  Membership, symmetry and freedom from repetitions follow from
this description.
-/

namespace LinkAnalysis

theorem neighborLe_iff {x y : Nat × Nat} :
    neighborLe x y = true ↔ x.1 < y.1 ∨ x.1 = y.1 ∧ x.2 ≤ y.2 := by
  simp [neighborLe]

theorem neighborLe_trans
    {x y z : Nat × Nat}
    (hxy : neighborLe x y = true)
    (hyz : neighborLe y z = true) :
    neighborLe x z = true := by
  rw [neighborLe_iff] at *
  omega

theorem neighborLe_total (x y : Nat × Nat) :
    (neighborLe x y || neighborLe y x) = true := by
  rw [Bool.or_eq_true, neighborLe_iff, neighborLe_iff]
  omega

/-- What the link at a position contributes to the neighbours of a node. -/
def endsAt (ends : Array (Nat × Nat)) (v position : Nat) : List (Nat × Nat) :=
  match ends[position]? with
  | some (a, b) =>
      (if b = v then [(a, position)] else []) ++
        if a = v then [(b, position)] else []
  | none => []

theorem mem_endsAt
    {ends : Array (Nat × Nat)} {v position : Nat} {step : Nat × Nat} :
    step ∈ endsAt ends v position ↔ step.2 = position ∧
      (ends[position]? = some (v, step.1) ∨
        ends[position]? = some (step.1, v)) := by
  obtain ⟨w, p⟩ := step
  unfold endsAt
  cases hends : ends[position]? with
  | none => simp
  | some pair =>
      obtain ⟨a, b⟩ := pair
      simp only [Option.some.injEq, Prod.mk.injEq]
      by_cases ha : a = v <;> by_cases hb : b = v <;> simp [ha, hb] <;> grind

/-- The two ends of a link list it equally often: once, or twice if they are one
node. -/
theorem count_endsAt_comm (ends : Array (Nat × Nat)) (v w e : Nat) :
    (endsAt ends v e).count (w, e) = (endsAt ends w e).count (v, e) := by
  unfold endsAt
  cases hends : ends[e]? with
  | none => rfl
  | some pair =>
      obtain ⟨a, b⟩ := pair
      by_cases ha : a = v <;> by_cases hb : b = v <;> by_cases ha' : a = w <;>
        by_cases hb' : b = w <;> simp_all

namespace Adjacency

/-- Every active link joins two of the `n` nodes. -/
def InRange (n : Nat) (ends : Array (Nat × Nat)) (active : List Nat) : Prop :=
  ∀ position ∈ active, ∃ a b, ends[position]? = some (a, b) ∧ a < n ∧ b < n

theorem inRange_iff
    {n : Nat} {ends : Array (Nat × Nat)} {active : List Nat} :
    inRange n ends active = true ↔ InRange n ends active := by
  simp only [inRange, List.all_eq_true, InRange]
  refine forall_congr' fun position => forall_congr' fun _ => ?_
  cases ends[position]? with
  | none => simp
  | some pair =>
      obtain ⟨a, b⟩ := pair
      simp

theorem size_addEnds
    (ends : Array (Nat × Nat)) (rows : Array (List (Nat × Nat)))
    (position : Nat) :
    (addEnds ends rows position).size = rows.size := by
  unfold addEnds
  split <;> simp

theorem getElem?_addEnds
    (ends : Array (Nat × Nat)) {rows : Array (List (Nat × Nat))}
    (position : Nat) {v : Nat}
    (hv : v < rows.size) :
    (addEnds ends rows position)[v]? =
      some (endsAt ends v position ++ rows[v]) := by
  unfold addEnds endsAt
  cases ends[position]? with
  | none => simp [hv]
  | some pair =>
      obtain ⟨a, b⟩ := pair
      simp only [Array.getElem?_modify, Array.getElem?_eq_getElem hv]
      by_cases ha : a = v <;> by_cases hb : b = v <;> simp [ha, hb]

theorem foldl_addEnds_perm
    (ends : Array (Nat × Nat)) (active : List Nat)
    (rows : Array (List (Nat × Nat))) {v : Nat}
    (hv : v < rows.size) :
    ∃ row, (active.foldl (addEnds ends) rows)[v]? = some row ∧
      row.Perm (rows[v] ++ active.flatMap (endsAt ends v)) := by
  induction active generalizing rows with
  | nil => exact ⟨rows[v], by simp [hv], by simp⟩
  | cons position more ih =>
      have hv' : v < (addEnds ends rows position).size := by
        rwa [size_addEnds]
      have hrow : (addEnds ends rows position)[v] =
          endsAt ends v position ++ rows[v] := by
        have hget := getElem?_addEnds ends position hv
        rw [Array.getElem?_eq_getElem hv'] at hget
        exact Option.some.inj hget
      obtain ⟨row, hget, hperm⟩ := ih (addEnds ends rows position) hv'
      refine ⟨row, hget, hperm.trans ?_⟩
      rw [hrow, List.flatMap_cons, ← List.append_assoc]
      exact List.perm_append_comm.append_right _

@[simp] theorem size_ofEnds
    (n : Nat) (ends : Array (Nat × Nat)) (active : List Nat) :
    (ofEnds n ends active).size = n := by
  have hsize : ∀ rows : Array (List (Nat × Nat)),
      (active.foldl (addEnds ends) rows).size = rows.size := by
    induction active with
    | nil => intro rows; rfl
    | cons position more ih =>
        intro rows
        rw [List.foldl_cons, ih, size_addEnds]
  simp [ofEnds, size, hsize]

/-- The neighbours of a node are the contributions of the active links, in some
order. -/
theorem neighbors_ofEnds_perm
    {n : Nat} (ends : Array (Nat × Nat)) (active : List Nat) {v : Nat}
    (hv : v < n) :
    ((ofEnds n ends active).neighbors v).toList.Perm
      (active.flatMap (endsAt ends v)) := by
  have hv' : v < (Array.replicate n ([] : List (Nat × Nat))).size := by
    simpa using hv
  obtain ⟨row, hget, hperm⟩ := foldl_addEnds_perm ends active _ hv'
  have hneighbors : ((ofEnds n ends active).neighbors v).toList =
      row.mergeSort neighborLe := by
    simp [ofEnds, neighbors, hget]
  rw [hneighbors]
  apply (List.mergeSort_perm row neighborLe).trans
  simpa using hperm

/-- A link is listed as often as it is active, and a link from a node to itself
twice as often. -/
theorem count_neighbors_ofEnds
    {n : Nat} (ends : Array (Nat × Nat)) (active : List Nat) {v : Nat}
    (hv : v < n)
    (w e : Nat) :
    ((ofEnds n ends active).neighbors v).toList.count (w, e) =
      active.count e * (endsAt ends v e).count (w, e) := by
  rw [(neighbors_ofEnds_perm ends active hv).count_eq, List.count_flatMap,
    List.sum_map_eq_nsmul_single e, smul_eq_mul]
  · rfl
  · intro position hne _
    rw [Function.comp_apply, List.count_eq_zero]
    exact fun hmem => hne (mem_endsAt.mp hmem).1.symm

theorem neighbors_ofEnds_eq_empty
    {n : Nat} (ends : Array (Nat × Nat)) (active : List Nat) {v : Nat}
    (hv : n ≤ v) :
    (ofEnds n ends active).neighbors v = #[] := by
  have hsize : (ofEnds n ends active).rows.size ≤ v := by
    have := size_ofEnds n ends active
    unfold size at this
    omega
  simp [neighbors, Array.getElem?_eq_none hsize]

theorem neighbors_ofEnds_pairwise
    (n : Nat) (ends : Array (Nat × Nat)) (active : List Nat) (v : Nat) :
    ((ofEnds n ends active).neighbors v).toList.Pairwise fun x y =>
      neighborLe x y = true := by
  unfold ofEnds neighbors
  rw [Array.getD_eq_getD_getElem?, Array.getElem?_map]
  cases (active.foldl (addEnds ends) (Array.replicate n []))[v]? with
  | none => simp
  | some row =>
      simpa using @List.pairwise_mergeSort _ neighborLe
        (fun _ _ _ => neighborLe_trans) neighborLe_total row

theorem mem_neighbors_ofEnds
    {n : Nat} {ends : Array (Nat × Nat)} {active : List Nat} {v : Nat}
    {step : Nat × Nat} :
    step ∈ (ofEnds n ends active).neighbors v ↔
      v < n ∧
        step.2 ∈ active ∧
        (ends[step.2]? = some (v, step.1) ∨
          ends[step.2]? = some (step.1, v)) := by
  by_cases hv : v < n
  · rw [← Array.mem_toList_iff, (neighbors_ofEnds_perm ends active hv).mem_iff]
    simp only [List.mem_flatMap, mem_endsAt, hv, true_and]
    constructor
    · rintro ⟨position, hactive, rfl, hends⟩
      exact ⟨hactive, hends⟩
    · rintro ⟨hactive, hends⟩
      exact ⟨step.2, hactive, rfl, hends⟩
  · rw [neighbors_ofEnds_eq_empty ends active (by omega)]
    simp [hv]

theorem mem_neighbors_ofEnds_comm
    {n : Nat} {ends : Array (Nat × Nat)} {active : List Nat}
    (hrange : InRange n ends active)
    {v w position : Nat}
    (hmem : (w, position) ∈ (ofEnds n ends active).neighbors v) :
    (v, position) ∈ (ofEnds n ends active).neighbors w := by
  rw [mem_neighbors_ofEnds] at hmem ⊢
  obtain ⟨_, hactive, hends⟩ := hmem
  obtain ⟨a, b, hab, ha, hb⟩ := hrange position hactive
  refine ⟨?_, hactive, hends.symm⟩
  rcases hends with hvw | hwv
  · have hpair := Option.some.inj (hab.symm.trans hvw)
    simp only [Prod.mk.injEq] at hpair
    omega
  · have hpair := Option.some.inj (hab.symm.trans hwv)
    simp only [Prod.mk.injEq] at hpair
    omega

theorem lt_of_mem_neighbors_ofEnds
    {n : Nat} {ends : Array (Nat × Nat)} {active : List Nat}
    (hrange : InRange n ends active)
    {v : Nat} {step : Nat × Nat}
    (hmem : step ∈ (ofEnds n ends active).neighbors v) :
    step.1 < n := by
  have hback : (v, step.2) ∈ (ofEnds n ends active).neighbors step.1 :=
    mem_neighbors_ofEnds_comm hrange hmem
  exact (mem_neighbors_ofEnds.mp hback).1

end Adjacency

end LinkAnalysis
