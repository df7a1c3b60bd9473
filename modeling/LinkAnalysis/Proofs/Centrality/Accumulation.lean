import LinkAnalysis.Centrality.Betweenness
import LinkAnalysis.Proofs.Network.Search
import LinkAnalysis.Proofs.Rational

/-!
# Settling nodes

The nodes that a search reached are settled from the last one back to the
source.  Settling a node hands shares on to its predecessors.  What a node hands
on depends on what it has collected, so the order of settling matters: a node is
settled after all nodes that hand something on to it.

The statements below do not say what a dependency is.  They take any function
that satisfies the recursion of dependencies along the order of settling, and
conclude that the tally holds its values.
-/

namespace LinkAnalysis

theorem getD_modify_share
    {M : Type} [AddMonoid M] (scores : Array M) (i x : Nat) (share : M)
    (hx : x < scores.size) :
    (scores.modify i (· + share)).getD x 0 =
      scores.getD x 0 + if i = x then share else 0 := by
  rw [getD_modify]
  by_cases hi : i = x
  · subst i
    simp [hx]
  · simp [hi, Ne.symm hi]

theorem size_foldl_setIfInBounds
    {β : Type} (nodes : List Nat) (x : β) (d : Array β) :
    (nodes.foldl (fun d v => d.setIfInBounds v x) d).size = d.size := by
  induction nodes generalizing d with
  | nil => rfl
  | cons w nodes ih => rw [List.foldl_cons, ih, Array.size_setIfInBounds]

theorem getElem?_foldl_setIfInBounds
    {β : Type} (nodes : List Nat) (x : β) (d : Array β) (v : Nat) :
    (nodes.foldl (fun d v => d.setIfInBounds v x) d)[v]? =
      if v ∈ nodes ∧ v < d.size then some x else d[v]? := by
  induction nodes generalizing d with
  | nil => simp
  | cons w nodes ih =>
      rw [List.foldl_cons, ih, Array.size_setIfInBounds,
        Array.getElem?_setIfInBounds]
      by_cases hw : w = v
      · by_cases hlt : v < d.size <;> simp [hw, hlt]
      · simp [hw, Ne.symm hw]

namespace Geodesics

def share (g : Geodesics ℚ) (own : Nat → ℚ) (w v : Nat) : ℚ :=
  g.countOf v / g.countOf w * (1 + own w)

/-- What a node hands on to those of its predecessors for which `part` is
`x`. -/
def handed (g : Geodesics ℚ) (own : Nat → ℚ) (part : Nat × Nat → Nat)
    (x w : Nat) : ℚ :=
  ((g.predecessorsOf w).map fun step =>
    if part step = x then g.share own w step.1 else 0).sum

/-- What these nodes hand on to those of their predecessors for which `part` is
`x`. -/
def collected (g : Geodesics ℚ) (own : Nat → ℚ) (part : Nat × Nat → Nat)
    (nodes : List Nat) (x : Nat) : ℚ :=
  (nodes.map (g.handed own part x)).sum

end Geodesics

namespace Tally

def nodeOf (t : Tally ℚ) (v : Nat) : ℚ := t.node.getD v 0

def linkOf (t : Tally ℚ) (e : Nat) : ℚ := t.link.getD e 0

theorem dependencyOf_eq (t : Tally ℚ) (v : Nat) :
    t.dependencyOf v = t.dependency.getD v 0 := by
  rw [dependencyOf, Score.zero_rat]

/-! ## Sizes -/

section Sizes

variable {α : Type}

structure SameSize (t t' : Tally α) : Prop where
  node : t'.node.size = t.node.size
  link : t'.link.size = t.link.size
  dependency : t'.dependency.size = t.dependency.size

theorem SameSize.refl (t : Tally α) : SameSize t t := ⟨rfl, rfl, rfl⟩

theorem SameSize.trans
    {t t' t'' : Tally α}
    (hsize : SameSize t t')
    (hnext : SameSize t' t'') :
    SameSize t t'' :=
  ⟨hnext.node.trans hsize.node, hnext.link.trans hsize.link,
    hnext.dependency.trans hsize.dependency⟩

variable [Score α]

theorem sameSize_handOn
    (g : Geodesics α) (w : Nat) (t : Tally α) (step : Nat × Nat) :
    SameSize t (handOn g w t step) := by
  simp only [handOn]
  split
  · exact ⟨rfl, by simp, by simp⟩
  · exact SameSize.refl t

theorem sameSize_foldl_handOn
    (g : Geodesics α) (w : Nat) (steps : List (Nat × Nat)) (t : Tally α) :
    SameSize t (steps.foldl (handOn g w) t) :=
  List.foldlRecOn _ _ (SameSize.refl t) fun t' ht step _ =>
    ht.trans (sameSize_handOn g w t' step)

theorem sameSize_settle
    (g : Geodesics α) (w : Nat) (t : Tally α) :
    SameSize t (settle g w t) := by
  apply (sameSize_foldl_handOn g w (g.predecessorsOf w) t).trans
  unfold settle
  split
  · exact SameSize.refl _
  · exact ⟨by simp, rfl, rfl⟩

theorem sameSize_reset (g : Geodesics α) (t : Tally α) :
    SameSize t (t.reset g) := by
  refine ⟨rfl, rfl, ?_⟩
  rw [reset, ← Array.foldl_toList, size_foldl_setIfInBounds]

theorem sameSize_addSource
    (adj : Adjacency) (t : Tally α) (source : Nat) :
    SameSize t (t.addSource adj source) := by
  rw [addSource, ← Array.foldr_toList]
  refine List.foldrRecOn _ _ (sameSize_reset _ t) fun t' ht w _ => ?_
  exact ht.trans (sameSize_settle _ w t')

theorem sameSize_foldl_addSource
    (adj : Adjacency) (sources : List Nat) (t : Tally α) :
    SameSize t (sources.foldl (addSource adj) t) :=
  List.foldlRecOn _ _ (SameSize.refl t) fun t' ht source _ =>
    ht.trans (sameSize_addSource adj t' source)

end Sizes

/-! ## Handing on -/

section HandOn

variable {g : Geodesics ℚ} {w : Nat}

theorem handOn_eq
    (hcount : 0 < g.countOf w)
    (t : Tally ℚ) (step : Nat × Nat) :
    handOn g w t step =
      { t with
        link := t.link.modify step.2 (· + g.share t.dependencyOf w step.1)
        dependency := t.dependency.modify step.1
          (· + g.share t.dependencyOf w step.1) } := by
  rw [← Score.zero_rat] at hcount
  simp only [handOn, if_pos hcount, Geodesics.share, Score.one_rat]

theorem node_foldl_handOn
    (hcount : 0 < g.countOf w)
    (steps : List (Nat × Nat)) (t : Tally ℚ) :
    (steps.foldl (handOn g w) t).node = t.node := by
  induction steps generalizing t with
  | nil => rfl
  | cons step more ih => rw [List.foldl_cons, ih, handOn_eq hcount]

theorem dependencyOf_handOn
    (hcount : 0 < g.countOf w)
    (t : Tally ℚ) (step : Nat × Nat) {x : Nat}
    (hx : x < t.dependency.size) :
    (handOn g w t step).dependencyOf x =
      t.dependencyOf x +
        if step.1 = x then g.share t.dependencyOf w step.1 else 0 := by
  rw [handOn_eq hcount, dependencyOf_eq, dependencyOf_eq,
    getD_modify_share _ _ _ _ hx]

theorem linkOf_handOn
    (hcount : 0 < g.countOf w)
    (t : Tally ℚ) (step : Nat × Nat) {e : Nat}
    (he : e < t.link.size) :
    (handOn g w t step).linkOf e =
      t.linkOf e +
        if step.2 = e then g.share t.dependencyOf w step.1 else 0 := by
  rw [handOn_eq hcount, linkOf, linkOf, getD_modify_share _ _ _ _ he]

theorem share_handOn
    (hcount : 0 < g.countOf w)
    (t : Tally ℚ) {step : Nat × Nat}
    (hstep : step.1 ≠ w)
    (v : Nat) :
    g.share (handOn g w t step).dependencyOf w v =
      g.share t.dependencyOf w v := by
  have hsame : (handOn g w t step).dependencyOf w = t.dependencyOf w := by
    rw [handOn_eq hcount, dependencyOf_eq, dependencyOf_eq]
    exact (getD_modify _ _ _ _ _).trans (if_neg fun hw => hstep hw.1.symm)
  rw [Geodesics.share, Geodesics.share, hsame]

/-- Handing on several shares adds up, in whatever entry they are read. -/
theorem foldl_handOn_eq
    (hcount : 0 < g.countOf w)
    (read : Tally ℚ → ℚ) {part : Nat × Nat → Nat} {x : Nat} {t : Tally ℚ}
    (hone : ∀ (t' : Tally ℚ) (step : Nat × Nat), SameSize t t' →
      read (handOn g w t' step) =
        read t' +
          if part step = x then g.share t'.dependencyOf w step.1 else 0)
    (steps : List (Nat × Nat))
    (hsteps : ∀ step ∈ steps, step.1 ≠ w)
    {t' : Tally ℚ}
    (ht : SameSize t t') :
    read (steps.foldl (handOn g w) t') =
      read t' + (steps.map fun step =>
        if part step = x then g.share t'.dependencyOf w step.1 else 0).sum := by
  induction steps generalizing t' with
  | nil => simp
  | cons step more ih =>
      have hsize : SameSize t (handOn g w t' step) :=
        ht.trans (sameSize_handOn g w t' step)
      have hne := hsteps step (by simp)
      rw [List.foldl_cons, ih (fun s hs => hsteps s (by simp [hs])) hsize,
        hone t' step ht]
      simp only [share_handOn hcount t' hne, List.map_cons,
        List.sum_cons, add_assoc]

theorem dependencyOf_foldl_handOn
    (hcount : 0 < g.countOf w)
    (steps : List (Nat × Nat))
    (hsteps : ∀ step ∈ steps, step.1 ≠ w)
    (t : Tally ℚ) {x : Nat}
    (hx : x < t.dependency.size) :
    (steps.foldl (handOn g w) t).dependencyOf x =
      t.dependencyOf x + (steps.map fun step =>
        if step.1 = x then g.share t.dependencyOf w step.1 else 0).sum := by
  apply foldl_handOn_eq hcount (fun t' => t'.dependencyOf x) _ steps hsteps
    (SameSize.refl t)
  intro t' step ht
  exact dependencyOf_handOn hcount t' step (ht.dependency ▸ hx)

theorem linkOf_foldl_handOn
    (hcount : 0 < g.countOf w)
    (steps : List (Nat × Nat))
    (hsteps : ∀ step ∈ steps, step.1 ≠ w)
    (t : Tally ℚ) {e : Nat}
    (he : e < t.link.size) :
    (steps.foldl (handOn g w) t).linkOf e =
      t.linkOf e + (steps.map fun step =>
        if step.2 = e then g.share t.dependencyOf w step.1 else 0).sum := by
  apply foldl_handOn_eq hcount (fun t' => t'.linkOf e) _ steps hsteps
    (SameSize.refl t)
  intro t' step ht
  exact linkOf_handOn hcount t' step (ht.link ▸ he)

end HandOn

/-! ## Settling -/

/-- A tally after some nodes have been settled, each with the value that `own`
gives it. -/
structure Settled (g : Geodesics ℚ) (own : Nat → ℚ) (t : Tally ℚ)
    (nodes : List Nat) (t' : Tally ℚ) : Prop where
  sameSize : SameSize t t'
  nodeOf_eq : ∀ x < t.node.size,
    t'.nodeOf x = t.nodeOf x + if x ∈ nodes ∧ x ≠ g.source then own x else 0
  linkOf_eq : ∀ e < t.link.size,
    t'.linkOf e = t.linkOf e + g.collected own Prod.snd nodes e
  dependencyOf_eq : ∀ x < t.dependency.size,
    t'.dependencyOf x = t.dependencyOf x + g.collected own Prod.fst nodes x

theorem settled_nil
    (g : Geodesics ℚ) (own : Nat → ℚ) (t : Tally ℚ) :
    Settled g own t [] t where
  sameSize := SameSize.refl t
  nodeOf_eq := by simp
  linkOf_eq := by simp [Geodesics.collected]
  dependencyOf_eq := by simp [Geodesics.collected]

theorem linkOf_settle
    (g : Geodesics ℚ) (w : Nat) (t : Tally ℚ) (e : Nat) :
    (settle g w t).linkOf e =
      ((g.predecessorsOf w).foldl (handOn g w) t).linkOf e := by
  unfold settle
  split <;> rfl

theorem dependencyOf_settle
    (g : Geodesics ℚ) (w : Nat) (t : Tally ℚ) (x : Nat) :
    (settle g w t).dependencyOf x =
      ((g.predecessorsOf w).foldl (handOn g w) t).dependencyOf x := by
  unfold settle
  split <;> rfl

theorem dependencyOf_foldl_handOn_self
    {g : Geodesics ℚ} {w : Nat}
    (hcount : 0 < g.countOf w)
    (steps : List (Nat × Nat))
    (hsteps : ∀ step ∈ steps, step.1 ≠ w)
    (t : Tally ℚ)
    (hw : w < t.dependency.size) :
    (steps.foldl (handOn g w) t).dependencyOf w = t.dependencyOf w := by
  rw [dependencyOf_foldl_handOn hcount steps hsteps t hw,
    List.sum_eq_zero, add_zero]
  intro share hshare
  obtain ⟨step, hstep, rfl⟩ := List.mem_map.mp hshare
  exact if_neg (hsteps step hstep)

theorem nodeOf_settle
    {g : Geodesics ℚ} {w : Nat}
    (hcount : 0 < g.countOf w)
    (hsteps : ∀ step ∈ g.predecessorsOf w, step.1 ≠ w)
    (t : Tally ℚ)
    (hw : w < t.dependency.size)
    {x : Nat}
    (hx : x < t.node.size) :
    (settle g w t).nodeOf x =
      t.nodeOf x + if w = x ∧ w ≠ g.source then t.dependencyOf w else 0 := by
  have hnode := node_foldl_handOn hcount (g.predecessorsOf w) t
  have hself :=
    dependencyOf_foldl_handOn_self hcount (g.predecessorsOf w) hsteps t hw
  simp only [settle]
  by_cases hsource : w = g.source
  · rw [if_pos hsource, nodeOf, hnode]
    simp [hsource, nodeOf]
  · rw [if_neg hsource, nodeOf, hnode, hself, getD_modify_share _ _ _ _ hx]
    simp [hsource, nodeOf]

theorem Settled.settle
    {g : Geodesics ℚ} {own : Nat → ℚ} {t t' : Tally ℚ} {nodes : List Nat}
    {w : Nat}
    (hsettled : Settled g own t nodes t')
    (hcount : 0 < g.countOf w)
    (hsteps : ∀ step ∈ g.predecessorsOf w, step.1 ≠ w)
    (hw : w < t.dependency.size)
    (hnew : w ∉ nodes)
    (hown : own w = t.dependencyOf w + g.collected own Prod.fst nodes w) :
    Settled g own t (w :: nodes) (settle g w t') := by
  have hw' : w < t'.dependency.size := hsettled.sameSize.dependency ▸ hw
  have hvalue : t'.dependencyOf w = own w := by
    rw [hsettled.dependencyOf_eq w hw, hown]
  have hshare : ∀ v, g.share t'.dependencyOf w v = g.share own w v := by
    intro v
    rw [Geodesics.share, hvalue, Geodesics.share]
  have hcollected : ∀ (part : Nat × Nat → Nat) (x : Nat),
      g.collected own part (w :: nodes) x =
        g.collected own part nodes x + g.handed own part x w := by
    intro part x
    rw [Geodesics.collected, List.map_cons, List.sum_cons, add_comm,
      Geodesics.collected]
  refine ⟨hsettled.sameSize.trans (sameSize_settle g w t'), fun x hx => ?_,
    fun e he => ?_, fun x hx => ?_⟩
  · rw [nodeOf_settle hcount hsteps t' hw' (hsettled.sameSize.node ▸ hx),
      hsettled.nodeOf_eq x hx, hvalue]
    by_cases hxw : w = x
    · subst x
      simp [hnew]
    · simp [hxw, Ne.symm hxw]
  · rw [linkOf_settle,
      linkOf_foldl_handOn hcount _ hsteps t' (hsettled.sameSize.link ▸ he),
      hsettled.linkOf_eq e he, hcollected, add_assoc]
    simp only [hshare, Geodesics.handed]
  · rw [dependencyOf_settle, dependencyOf_foldl_handOn hcount _ hsteps t'
      (hsettled.sameSize.dependency ▸ hx), hsettled.dependencyOf_eq x hx,
      hcollected, add_assoc]
    simp only [hshare, Geodesics.handed]

/-- All nodes that a search reached are settled with the values of `own`, if
`own` satisfies the recursion of dependencies: the value of a node is what the
nodes behind it in the order of discovery hand on to it. -/
theorem settled_foldr
    {g : Geodesics ℚ} {own : Nat → ℚ} {t : Tally ℚ} {order : List Nat}
    (hnodup : order.Nodup)
    (hcount : ∀ w ∈ order, 0 < g.countOf w)
    (hsteps : ∀ w ∈ order, ∀ step ∈ g.predecessorsOf w, step.1 ≠ w)
    (hlt : ∀ w ∈ order, w < t.dependency.size)
    (hzero : ∀ w ∈ order, t.dependencyOf w = 0)
    (hown : ∀ near w far,
      order = near ++ w :: far → own w = g.collected own Prod.fst far w) :
    Settled g own t order (order.foldr (settle g) t) := by
  induction order with
  | nil => exact settled_nil g own t
  | cons w far ih =>
      obtain ⟨hnew, hnodup⟩ := List.nodup_cons.mp hnodup
      have hsettled :=
        ih hnodup (fun v hv => hcount v (by simp [hv])) (fun v hv =>
          hsteps v (by simp [hv])) (fun v hv => hlt v (by simp [hv]))
          (fun v hv => hzero v (by simp [hv])) (fun near v far' heq =>
          hown (w :: near) v far' (by rw [heq, List.cons_append]))
      refine hsettled.settle (hcount w (by simp)) (hsteps w (by simp))
        (hlt w (by simp)) hnew ?_
      rw [hzero w (by simp), zero_add]
      exact hown [] w far rfl

/-! ## One source -/

theorem dependencyOf_reset
    (g : Geodesics ℚ) (t : Tally ℚ) {w : Nat}
    (hw : w ∈ g.order) :
    (t.reset g).dependencyOf w = 0 := by
  rw [dependencyOf_eq, reset, ← Array.foldl_toList, Array.getD_eq_getD_getElem?,
    getElem?_foldl_setIfInBounds]
  by_cases hlt : w < t.dependency.size
  · rw [if_pos ⟨Array.mem_toList_iff.mpr hw, hlt⟩, Score.zero_rat,
      Option.getD_some]
  · rw [if_neg fun hboth => hlt hboth.2, Array.getElem?_eq_none (not_lt.mp hlt),
      Option.getD_none]

end Tally

/-- With a live token a loop polls in vain. -/
theorem foldlM_live
    {σ β : Type} (f : σ → β → σ) (l : List β) (s : σ) :
    (l.foldlM (fun s x => do
        Signal.live.check
        return f s x) s : Except Fault σ) = .ok (l.foldl f s) := by
  induction l generalizing s with
  | nil => rfl
  | cons x l ih => exact ih (f s x)

/-- With a live token the sources are added one after the other, in any
arithmetic. -/
theorem accumulate_live_eq
    {α : Type} [Score α] (adj : Adjacency) (m : Nat) :
    (accumulate .live adj m : Except Fault (Betweenness α)) =
      .ok ⟨(adj.nodes.foldl (Tally.addSource adj)
          (Tally.blank adj.size m)).node, (adj.nodes.foldl (Tally.addSource adj)
            (Tally.blank adj.size m)).link⟩ := by
  rw [accumulate, foldlM_live]
  rfl

end LinkAnalysis
