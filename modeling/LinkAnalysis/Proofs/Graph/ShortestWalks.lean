import Mathlib.Algebra.BigOperators.Field
import Mathlib.Combinatorics.SimpleGraph.AdjMatrix
import Mathlib.Combinatorics.SimpleGraph.Connectivity.Finite
import Mathlib.Combinatorics.SimpleGraph.Metric
import Mathlib.Combinatorics.SimpleGraph.Walk.Counting
import Mathlib.Data.Set.Card
import Mathlib.Tactic

/-!
# Shortest walks

How many shortest walks join two nodes of a finite graph, and how many of them
pass through a node or use an edge.  A shortest walk through a node is made of
two shortest walks, so the numbers multiply; one that uses an edge climbs it,
seen from its start.  Both facts together say that what passes through a node
leaves it along the edges that climb, each taking the share of the walks that
use it.
-/

namespace SimpleGraph

variable {V : Type*} (G : SimpleGraph V)

def shortestWalks (s t : V) : Set (G.Walk s t) := {p | p.length = G.dist s t}

def shortestWalksThrough (v s t : V) : Set (G.Walk s t) :=
  {p | p ∈ G.shortestWalks s t ∧ v ∈ p.support}

def shortestWalksUsing (e : Sym2 V) (s t : V) : Set (G.Walk s t) :=
  {p | p ∈ G.shortestWalks s t ∧ e ∈ p.edges}

noncomputable def shortestWalkCount (s t : V) : ℕ := (G.shortestWalks s t).ncard

/-- The share of the shortest walks from `s` to `t` that pass through `v`. -/
noncomputable def passShare (v s t : V) : ℚ :=
  (G.shortestWalksThrough v s t).ncard / G.shortestWalkCount s t

/-- The share of the shortest walks from `s` to `t` that use the edge `e`. -/
noncomputable def useShare (e : Sym2 V) (s t : V) : ℚ :=
  (G.shortestWalksUsing e s t).ncard / G.shortestWalkCount s t

/-- Seen from `s`, an edge leads from `v` one step farther, to `w`. -/
structure Climbs (s v w : V) : Prop where
  adj : G.Adj v w
  dist_eq : G.dist s w = G.dist s v + 1

variable {G}

theorem mem_shortestWalks {s t : V} {p : G.Walk s t} :
    p ∈ G.shortestWalks s t ↔ p.length = G.dist s t :=
  Iff.rfl

/-! ## Taking shortest walks apart -/

theorem append_mem_shortestWalks_iff
    {s v t : V} {p : G.Walk s v} {q : G.Walk v t} :
    p.append q ∈ G.shortestWalks s t ↔ p ∈ G.shortestWalks s v ∧
      q ∈ G.shortestWalks v t ∧
      G.dist s v + G.dist v t = G.dist s t := by
  simp only [mem_shortestWalks, Walk.length_append]
  have hp := dist_le p
  have hq := dist_le q
  have htriangle := p.reachable.dist_triangle_left t
  omega

/-- A walk that uses an edge is made of a walk to one end, the edge and a walk
from the other. -/
theorem Walk.exists_append_cons_of_mem_edges
    {s t v w : V} (p : G.Walk s t)
    (he : s(v, w) ∈ p.edges) :
    (∃ (q : G.Walk s v) (hadj : G.Adj v w) (r : G.Walk w t),
        p = q.append (.cons hadj r)) ∨
      ∃ (q : G.Walk s w) (hadj : G.Adj w v) (r : G.Walk v t),
        p = q.append (.cons hadj r) := by
  induction p with
  | nil => simp at he
  | @cons a b c hadj p ih =>
      rw [Walk.edges_cons, List.mem_cons] at he
      rcases he with heq | hmem
      · rw [Sym2.eq_iff] at heq
        rcases heq with ⟨rfl, rfl⟩ | ⟨rfl, rfl⟩
        · exact Or.inl ⟨.nil, hadj, p, rfl⟩
        · exact Or.inr ⟨.nil, hadj, p, rfl⟩
      · rcases ih hmem with ⟨q, hstep, r, rfl⟩ | ⟨q, hstep, r, rfl⟩
        · exact Or.inl ⟨.cons hadj q, hstep, r, rfl⟩
        · exact Or.inr ⟨.cons hadj q, hstep, r, rfl⟩

theorem append_cons_mem_shortestWalks_iff
    {s v w t : V} {p : G.Walk s v} {hadj : G.Adj v w} {q : G.Walk w t} :
    p.append (.cons hadj q) ∈ G.shortestWalks s t ↔
      p ∈ G.shortestWalks s v ∧
        q ∈ G.shortestWalks w t ∧
        G.dist s v + 1 + G.dist w t = G.dist s t := by
  simp only [mem_shortestWalks, Walk.length_append, Walk.length_cons]
  have hp := dist_le p
  have hq := dist_le q
  have htriangle := p.reachable.dist_triangle_left t
  have hstep := hadj.reachable.dist_triangle_left t
  rw [dist_eq_one_iff_adj.mpr hadj] at hstep
  omega

theorem dist_of_append_cons_mem_shortestWalks
    {s v w t : V} {p : G.Walk s v} {hadj : G.Adj v w} {q : G.Walk w t}
    (hmem : p.append (.cons hadj q) ∈ G.shortestWalks s t) :
    G.dist s w = G.dist s v + 1 := by
  obtain ⟨-, -, hsum⟩ := append_cons_mem_shortestWalks_iff.mp hmem
  have hup := hadj.reachable.dist_triangle_right s
  have hdown := q.reachable.dist_triangle_right s
  rw [dist_eq_one_iff_adj.mpr hadj] at hup
  omega

theorem dist_of_mem_shortestWalksUsing
    {s t v w : V} {p : G.Walk s t}
    (hmem : p ∈ G.shortestWalksUsing s(v, w) s t) :
    G.dist s w = G.dist s v + 1 ∨ G.dist s v = G.dist s w + 1 := by
  obtain ⟨hshort, he⟩ := hmem
  rcases p.exists_append_cons_of_mem_edges he with ⟨q, hadj, r, rfl⟩
    | ⟨q, hadj, r, rfl⟩
  · exact Or.inl (dist_of_append_cons_mem_shortestWalks hshort)
  · exact Or.inr (dist_of_append_cons_mem_shortestWalks hshort)

theorem Walk.append_left_injective_of_length
    {s v t : V} {p p' : G.Walk s v} {q q' : G.Walk v t}
    (hlength : p.length = p'.length)
    (heq : p.append q = p'.append q') :
    p = p' ∧ q = q' := by
  have hsupport := congrArg Walk.support heq
  rw [Walk.support_append, Walk.support_append] at hsupport
  obtain ⟨hp, hq⟩ := List.append_inj hsupport (by simp [hlength])
  refine ⟨Walk.ext_support hp, Walk.ext_support ?_⟩
  rw [← Walk.cons_tail_support q, ← Walk.cons_tail_support q', hq]

/-! ## Numbers of shortest walks -/

theorem shortestWalksThrough_eq_image
    {s v t : V}
    (hsum : G.dist s v + G.dist v t = G.dist s t) :
    G.shortestWalksThrough v s t =
      (fun q : G.Walk s v × G.Walk v t => q.1.append q.2) ''
        (G.shortestWalks s v ×ˢ G.shortestWalks v t) := by
  classical
  ext p
  constructor
  · rintro ⟨hshort, hv⟩
    have hsplit := p.take_spec hv
    rw [← hsplit] at hshort
    obtain ⟨hq, hr, -⟩ := append_mem_shortestWalks_iff.mp hshort
    exact ⟨(p.takeUntil v hv, p.dropUntil v hv), ⟨hq, hr⟩, hsplit⟩
  · rintro ⟨⟨q, r⟩, ⟨hq, hr⟩, rfl⟩
    refine ⟨append_mem_shortestWalks_iff.mpr ⟨hq, hr, hsum⟩, ?_⟩
    simp [Walk.mem_support_append_iff]

theorem shortestWalksThrough_eq_empty
    {s v t : V}
    (hsum : G.dist s v + G.dist v t ≠ G.dist s t) :
    G.shortestWalksThrough v s t = ∅ := by
  classical
  apply Set.eq_empty_iff_forall_notMem.mpr
  intro p hp
  obtain ⟨hshort, hv⟩ := hp
  rw [← p.take_spec hv] at hshort
  exact hsum (append_mem_shortestWalks_iff.mp hshort).2.2

open Classical in
/-- Shortest walks through a node are pairs of shortest walks. -/
theorem ncard_shortestWalksThrough (s v t : V) :
    (G.shortestWalksThrough v s t).ncard =
      if G.dist s v + G.dist v t = G.dist s t then
        G.shortestWalkCount s v * G.shortestWalkCount v t
      else 0 := by
  split
  case isTrue hsum =>
    rw [shortestWalksThrough_eq_image hsum, Set.InjOn.ncard_image,
      Set.ncard_prod]
    · rfl
    · rintro ⟨q, r⟩ ⟨hq, -⟩ ⟨q', r'⟩ ⟨hq', -⟩ heq
      obtain ⟨rfl, rfl⟩ := Walk.append_left_injective_of_length
        ((mem_shortestWalks.mp hq).trans (mem_shortestWalks.mp hq').symm) heq
      rfl
  case isFalse hsum => simp [shortestWalksThrough_eq_empty hsum]

theorem shortestWalksUsing_eq_image
    {s v w t : V}
    (hadj : G.Adj v w)
    (hclimb : G.dist s w = G.dist s v + 1)
    (hsum : G.dist s w + G.dist w t = G.dist s t) :
    G.shortestWalksUsing s(v, w) s t =
      (fun q : G.Walk s v × G.Walk w t => q.1.append (.cons hadj q.2)) ''
        (G.shortestWalks s v ×ˢ G.shortestWalks w t) := by
  ext p
  constructor
  · rintro ⟨hshort, he⟩
    rcases p.exists_append_cons_of_mem_edges he with ⟨q, hstep, r, rfl⟩
      | ⟨q, hstep, r, rfl⟩
    · obtain ⟨hq, hr, -⟩ := append_cons_mem_shortestWalks_iff.mp hshort
      exact ⟨(q, r), ⟨hq, hr⟩, rfl⟩
    · have hfall := dist_of_append_cons_mem_shortestWalks hshort
      omega
  · rintro ⟨⟨q, r⟩, ⟨hq, hr⟩, rfl⟩
    refine ⟨append_cons_mem_shortestWalks_iff.mpr ⟨hq, hr, by omega⟩, ?_⟩
    simp

theorem shortestWalksUsing_eq_empty
    {s v w t : V}
    (hclimb : G.dist s w = G.dist s v + 1)
    (hsum : G.dist s w + G.dist w t ≠ G.dist s t) :
    G.shortestWalksUsing s(v, w) s t = ∅ := by
  apply Set.eq_empty_iff_forall_notMem.mpr
  intro p hp
  obtain ⟨hshort, he⟩ := hp
  rcases p.exists_append_cons_of_mem_edges he with ⟨q, hstep, r, rfl⟩
    | ⟨q, hstep, r, rfl⟩
  · obtain ⟨-, -, hsum'⟩ := append_cons_mem_shortestWalks_iff.mp hshort
    omega
  · have hfall := dist_of_append_cons_mem_shortestWalks hshort
    omega

open Classical in
/-- Shortest walks that use a climbing edge are pairs of shortest walks. -/
theorem ncard_shortestWalksUsing
    {s v w : V}
    (hadj : G.Adj v w)
    (hclimb : G.dist s w = G.dist s v + 1)
    (t : V) :
    (G.shortestWalksUsing s(v, w) s t).ncard =
      if G.dist s w + G.dist w t = G.dist s t then
        G.shortestWalkCount s v * G.shortestWalkCount w t
      else 0 := by
  split
  case isTrue hsum =>
    rw [shortestWalksUsing_eq_image hadj hclimb hsum, Set.InjOn.ncard_image,
      Set.ncard_prod]
    · rfl
    · rintro ⟨q, r⟩ ⟨hq, -⟩ ⟨q', r'⟩ ⟨hq', -⟩ heq
      obtain ⟨rfl, hcons⟩ := Walk.append_left_injective_of_length
        ((mem_shortestWalks.mp hq).trans (mem_shortestWalks.mp hq').symm) heq
      simp only [Walk.cons.injEq, heq_eq_eq, true_and] at hcons
      rw [hcons]
  case isFalse hsum => simp [shortestWalksUsing_eq_empty hclimb hsum]

@[simp] theorem shortestWalkCount_self (s : V) :
    G.shortestWalkCount s s = 1 := by
  have hnil : G.shortestWalks s s = {Walk.nil} := by
    ext p
    rw [mem_shortestWalks, dist_self, Set.mem_singleton_iff,
      Walk.length_eq_zero_iff, ← Walk.eq_nil_iff_nil]
  rw [shortestWalkCount, hnil, Set.ncard_singleton]

theorem shortestWalkCount_comm (s t : V) :
    G.shortestWalkCount s t = G.shortestWalkCount t s := by
  have himage : G.shortestWalks s t = Walk.reverse '' G.shortestWalks t s := by
    ext p
    constructor
    · intro hp
      refine ⟨p.reverse, ?_, p.reverse_reverse⟩
      rw [mem_shortestWalks, Walk.length_reverse, dist_comm]
      exact hp
    · rintro ⟨q, hq, rfl⟩
      rw [mem_shortestWalks, Walk.length_reverse, dist_comm]
      exact hq
  rw [shortestWalkCount, himage,
    Set.ncard_image_of_injective _ Walk.reverse_injective]
  rfl

theorem shortestWalkCount_eq_zero_of_not_reachable
    {s t : V}
    (hunreachable : ¬ G.Reachable s t) :
    G.shortestWalkCount s t = 0 := by
  have hempty : G.shortestWalks s t = ∅ :=
    Set.eq_empty_iff_forall_notMem.mpr fun p _ => hunreachable p.reachable
  rw [shortestWalkCount, hempty, Set.ncard_empty]

section Finite

variable [Fintype V]

theorem finite_shortestWalks (s t : V) : (G.shortestWalks s t).Finite := by
  classical
  exact Set.toFinite {p : G.Walk s t | p.length = G.dist s t}

theorem shortestWalkCount_pos {s t : V} (hreachable : G.Reachable s t) :
    0 < G.shortestWalkCount s t := by
  obtain ⟨p, hp⟩ := hreachable.exists_walk_length_eq_dist
  exact (Set.ncard_pos (finite_shortestWalks s t)).mpr ⟨p, hp⟩

open Classical in
/-- Shortest walks begin with an edge that leads nearer to their end. -/
theorem shortestWalkCount_eq_sum
    {v t : V}
    (hne : v ≠ t)
    (hreachable : G.Reachable v t) :
    G.shortestWalkCount v t = ∑ w with G.Adj v w ∧ G.dist w t + 1 = G.dist v t,
      G.shortestWalkCount w t := by
  have hcount : ∀ k u,
      (G.adjMatrix ℕ ^ k) u t = {p : G.Walk u t | p.length = k}.ncard := by
    intro k u
    rw [adjMatrix_pow_apply_eq_card_walk, Set.ncard_eq_toFinset_card',
      Set.toFinset_card]
    rfl
  obtain ⟨k, hk⟩ := Nat.exists_eq_add_of_le' (hreachable.pos_dist_of_ne hne)
  have hstep : G.shortestWalkCount v t =
      ∑ w with G.Adj v w, {p : G.Walk w t | p.length = k}.ncard := by
    rw [shortestWalkCount, shortestWalks, hk, ← hcount, pow_succ',
      adjMatrix_mul_apply]
    refine Finset.sum_congr ?_ fun w _ => hcount k w
    ext w
    simp
  rw [hstep, Finset.sum_filter, Finset.sum_filter]
  apply Finset.sum_congr rfl
  intro w _
  by_cases hadj : G.Adj v w
  · have hle : G.dist v t ≤ 1 + G.dist w t := by
      have := hadj.reachable.dist_triangle_left t
      rwa [dist_eq_one_iff_adj.mpr hadj] at this
    by_cases hnear : G.dist w t = k
    · simp [hadj, hk, hnear, shortestWalkCount, shortestWalks]
    · have hempty : {p : G.Walk w t | p.length = k} = ∅ := by
        apply Set.eq_empty_iff_forall_notMem.mpr
        intro p hp
        have := dist_le p
        rw [Set.mem_ofPred_eq] at hp
        omega
      simp [hadj, hk, hnear, hempty]
  · simp [hadj]

end Finite

end SimpleGraph
