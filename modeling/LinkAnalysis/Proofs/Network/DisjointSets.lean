import LinkAnalysis.Network.Components
import Mathlib.Logic.Relation
import Mathlib.Tactic

/-!
# Disjoint sets

The laws of the operations on partitions speak of representatives only: two
numbers are in one set if they have the same representative.  From them follows
what a partition is after a number of pairs have been joined, however it is
stored.  The labelled partitions satisfy the laws.
-/

namespace LinkAnalysis

/-- The laws of the operations on partitions; `fits n sets` says that a
partition of the numbers below `n` is stored. -/
structure UnionFind.Lawful {σ : Type} (uf : UnionFind σ) (fits : Nat → σ → Prop)
    (rep : σ → Nat → Nat) : Prop where
  fits_singletons : ∀ n, fits n (uf.singletons n)
  fits_union : ∀ {n : Nat} {sets : σ} {v w : Nat}, fits n sets → v < n → w < n →
    fits n (uf.union sets v w)
  fits_find : ∀ {n : Nat} {sets : σ} {v : Nat}, fits n sets → v < n →
    fits n (uf.find sets v).2
  rep_lt : ∀ {n : Nat} {sets : σ} {v : Nat}, fits n sets → v < n →
    rep sets v < n
  rep_singletons : ∀ {n v w : Nat},
    v < n → w < n → (rep (uf.singletons n) v = rep (uf.singletons n) w ↔ v = w)
  /-- After joining, the numbers of both sets have one representative. -/
  rep_union : ∀ {n : Nat} {sets : σ} {v w x y : Nat},
    fits n sets → v < n → w < n → x < n → y < n →
      (rep (uf.union sets v w) x = rep (uf.union sets v w) y ↔
        rep sets x = rep sets y ∨
          rep sets x = rep sets v ∧ rep sets w = rep sets y ∨
          rep sets x = rep sets w ∧ rep sets v = rep sets y)
  find_eq : ∀ {n : Nat} {sets : σ} {v : Nat}, fits n sets → v < n →
    (uf.find sets v).1 = rep sets v
  rep_find : ∀ {n : Nat} {sets : σ} {v x : Nat}, fits n sets → v < n → x < n →
    rep (uf.find sets v).2 x = rep sets x

/-! ## Joining pairs -/

theorem eqvGen_concat_iff {pairs : List (Nat × Nat)} {v w x y : Nat} :
    Relation.EqvGen (fun a b => (a, b) ∈ pairs ++ [(v, w)]) x y ↔
      Relation.EqvGen (fun a b => (a, b) ∈ pairs) x y ∨
        Relation.EqvGen (fun a b => (a, b) ∈ pairs) x v ∧
          Relation.EqvGen (fun a b => (a, b) ∈ pairs) w y ∨
        Relation.EqvGen (fun a b => (a, b) ∈ pairs) x w ∧
          Relation.EqvGen (fun a b => (a, b) ∈ pairs) v y := by
  constructor
  · intro hjoined
    induction hjoined with
    | rel a b hab =>
        rcases List.mem_append.mp hab with hab | hab
        · exact Or.inl (.rel a b hab)
        · obtain ⟨rfl, rfl⟩ := Prod.mk.inj (List.mem_singleton.mp hab)
          exact Or.inr (Or.inl ⟨.refl _, .refl _⟩)
    | refl a => exact Or.inl (.refl a)
    | symm a b _ ih =>
        rcases ih with hjoined | ⟨hjoined, hother⟩ | ⟨hjoined, hother⟩
        · exact Or.inl (hjoined.symm _ _)
        · exact Or.inr (Or.inr ⟨hother.symm _ _, hjoined.symm _ _⟩)
        · exact Or.inr (Or.inl ⟨hother.symm _ _, hjoined.symm _ _⟩)
    | trans a b c _ _ ih ih' =>
        rcases ih with hjoined | ⟨hjoined, hother⟩ | ⟨hjoined, hother⟩
        · rcases ih' with hnext | ⟨hnext, hlast⟩ | ⟨hnext, hlast⟩
          · exact Or.inl (hjoined.trans _ _ _ hnext)
          · exact Or.inr (Or.inl ⟨hjoined.trans _ _ _ hnext, hlast⟩)
          · exact Or.inr (Or.inr ⟨hjoined.trans _ _ _ hnext, hlast⟩)
        · rcases ih' with hnext | ⟨-, hlast⟩ | ⟨-, hlast⟩
          · exact Or.inr (Or.inl ⟨hjoined, hother.trans _ _ _ hnext⟩)
          · exact Or.inr (Or.inl ⟨hjoined, hlast⟩)
          · exact Or.inl (hjoined.trans _ _ _ hlast)
        · rcases ih' with hnext | ⟨-, hlast⟩ | ⟨-, hlast⟩
          · exact Or.inr (Or.inr ⟨hjoined, hother.trans _ _ _ hnext⟩)
          · exact Or.inl (hjoined.trans _ _ _ hlast)
          · exact Or.inr (Or.inr ⟨hjoined, hlast⟩)
  · have hmono :
        ∀ {a b : Nat}, Relation.EqvGen (fun a b => (a, b) ∈ pairs) a b →
          Relation.EqvGen (fun a b => (a, b) ∈ pairs ++ [(v, w)]) a b :=
      fun hjoined => hjoined.mono fun _ _ hab => List.mem_append_left _ hab
    have hpair : Relation.EqvGen (fun a b => (a, b) ∈ pairs ++ [(v, w)]) v w :=
      .rel v w (by simp)
    rintro (hjoined | ⟨hjoined, hother⟩ | ⟨hjoined, hother⟩)
    · exact hmono hjoined
    · exact (hmono hjoined).trans _ _ _ (hpair.trans _ _ _ (hmono hother))
    · exact (hmono hjoined).trans _ _ _
        ((hpair.symm _ _).trans _ _ _ (hmono hother))

theorem eq_of_eqvGen_nil
    {x y : Nat}
    (hjoined :
      Relation.EqvGen (fun a b => (a, b) ∈ ([] : List (Nat × Nat))) x y) :
    x = y := by
  induction hjoined with
  | rel a b hab => simp at hab
  | refl a => rfl
  | symm a b _ ih => exact ih.symm
  | trans a b c _ _ ih ih' => exact ih.trans ih'

namespace UnionFind

variable {σ : Type} {uf : UnionFind σ}
  {fits : Nat → σ → Prop} {rep : σ → Nat → Nat}

def joinPairs (uf : UnionFind σ) (n : Nat) (pairs : List (Nat × Nat)) : σ :=
  pairs.foldl (fun sets pair => uf.union sets pair.1 pair.2) (uf.singletons n)

theorem joinPairs_concat
    (uf : UnionFind σ) (n : Nat) (pairs : List (Nat × Nat)) (pair : Nat × Nat) :
    uf.joinPairs n (pairs ++ [pair]) =
      uf.union (uf.joinPairs n pairs) pair.1 pair.2 := by
  simp [joinPairs]

theorem Lawful.fits_joinPairs
    (hlawful : uf.Lawful fits rep)
    {n : Nat} {pairs : List (Nat × Nat)}
    (hpairs : ∀ pair ∈ pairs, pair.1 < n ∧ pair.2 < n) :
    fits n (uf.joinPairs n pairs) := by
  induction pairs using List.reverseRecOn with
  | nil => exact hlawful.fits_singletons n
  | append_singleton pairs pair ih =>
      obtain ⟨hfst, hsnd⟩ := hpairs pair (by simp)
      rw [joinPairs_concat]
      exact hlawful.fits_union
        (ih fun p hp => hpairs p (List.mem_append_left _ hp)) hfst hsnd

/-- Two numbers have one representative if a chain of pairs leads from one to
the other. -/
theorem Lawful.rep_joinPairs
    (hlawful : uf.Lawful fits rep)
    {n : Nat} {pairs : List (Nat × Nat)}
    (hpairs : ∀ pair ∈ pairs, pair.1 < n ∧ pair.2 < n)
    {x y : Nat}
    (hx : x < n)
    (hy : y < n) :
    rep (uf.joinPairs n pairs) x = rep (uf.joinPairs n pairs) y ↔
      Relation.EqvGen (fun v w => (v, w) ∈ pairs) x y := by
  induction pairs using List.reverseRecOn generalizing x y with
  | nil =>
      rw [joinPairs, List.foldl_nil, hlawful.rep_singletons hx hy]
      refine ⟨fun heq => heq ▸ .refl x, eq_of_eqvGen_nil⟩
  | append_singleton pairs pair ih =>
      obtain ⟨hv, hw⟩ := hpairs pair (by simp)
      have hkept : ∀ p ∈ pairs, p.1 < n ∧ p.2 < n := fun p hp =>
        hpairs p (List.mem_append_left _ hp)
      rw [joinPairs_concat, hlawful.rep_union (hlawful.fits_joinPairs hkept)
        hv hw hx hy, ih hkept hx hy, ih hkept hx hv, ih hkept hw hy,
        ih hkept hx hw, ih hkept hv hy, eqvGen_concat_iff]

end UnionFind

/-! ## Labels -/

namespace Labels

structure Fits (n : Nat) (p : Labels) : Prop where
  size_eq : p.labels.size = n
  labelOf_lt : ∀ v < n, p.labelOf v < n

theorem labelOf_singletons {n v : Nat} (hv : v < n) :
    (singletons n).labelOf v = v := by
  simp [singletons, labelOf, hv]

theorem size_union (p : Labels) (v w : Nat) :
    (p.union v w).labels.size = p.labels.size := by
  simp only [union]
  split <;> simp

theorem labelOf_union
    (p : Labels) (v w : Nat) {x : Nat}
    (hx : x < p.labels.size) :
    (p.union v w).labelOf x =
      if p.labelOf x = p.labelOf w then p.labelOf v else p.labelOf x := by
  simp only [union]
  by_cases heq : p.labelOf v = p.labelOf w
  · simp only [heq, if_true]
    split
    case isTrue hlabel => exact hlabel
    case isFalse hlabel => rfl
  · rw [if_neg heq]
    simp [labelOf, hx]

theorem Fits.union
    {n : Nat} {p : Labels}
    (hfits : p.Fits n)
    {v w : Nat}
    (hv : v < n) :
    (p.union v w).Fits n := by
  refine ⟨(p.size_union v w).trans hfits.size_eq, fun x hx => ?_⟩
  rw [p.labelOf_union v w (by rwa [hfits.size_eq])]
  split
  · exact hfits.labelOf_lt v hv
  · exact hfits.labelOf_lt x hx

/-- Labelled partitions satisfy the laws. -/
theorem lawful : unionFind.Lawful Fits labelOf where
  fits_singletons n := by
    refine ⟨by simp [unionFind, singletons], fun v hv => ?_⟩
    exact (labelOf_singletons hv).trans_lt hv
  fits_union hfits hv _ := hfits.union hv
  fits_find hfits _ := hfits
  rep_lt hfits hv := hfits.labelOf_lt _ hv
  rep_singletons hv hw := by
    rw [unionFind, labelOf_singletons hv, labelOf_singletons hw]
  rep_union hfits _ _ hx hy := by
    rw [unionFind, labelOf_union _ _ _ (by rwa [hfits.size_eq]),
      labelOf_union _ _ _ (by rwa [hfits.size_eq])]
    split_ifs <;> omega
  find_eq _ _ := rfl
  rep_find _ _ _ := rfl

end Labels

end LinkAnalysis
