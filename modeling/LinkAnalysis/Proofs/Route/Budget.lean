import LinkAnalysis.Proofs.Route.Enumeration
import Mathlib

/-!
# Budgets of an enumeration

An exhaustive search finds all paths up to a length in lexicographic order, with
a certain effort.  An enumeration within budgets finds the first of them, and it
is cut short exactly if a budget is lower than the number of paths or than the
effort.  Higher budgets lose nothing.
-/

namespace LinkAnalysis

open Adjacency

/-- An enumeration that keeps to its budgets, where an exhaustive search finds
these routes in this order and takes so many expansions: how far it gets, and
what it returns. -/
structure Enumeration.KeepsBudgets (routes : List (List Nat)) (effort : Nat)
    (limits : PathConfig) (e : Enumeration) : Prop where
  truncated_eq_false_iff : e.truncated = false ↔
    routes.length ≤ limits.maxPaths ∧ effort ≤ limits.maxExpansions
  expansions_le : e.expansions ≤ min effort limits.maxExpansions
  expansions_eq : e.truncated = false → e.expansions = effort
  exists_first : ∃ k ≤ limits.maxPaths,
    e.paths.Perm (routes.take k) ∧ (e.truncated = false → k = routes.length)
  ascending : e.paths.Pairwise fun x y =>
    x.length < y.length ∨ x.length = y.length ∧ x < y

namespace Enumeration.Affords

variable {limits more : PathConfig} {attempts : List (Option (List Nat))}
  {e e' : Enumeration}

theorem keepsBudgets
    (haffords : e.Affords limits attempts)
    (hascending : attempts.reduceOption.Pairwise (· < ·)) :
    e.KeepsBudgets attempts.reduceOption attempts.length limits := by
  set found :=
    affordable attempts limits.maxExpansions limits.maxPaths with hfound
  have hfirst : found <+: attempts.reduceOption := affordable_prefix
  have hnodup : found.Nodup := (hascending.imp ne_of_lt).sublist hfirst.sublist
  refine ⟨haffords.truncated_eq_false_iff.trans and_comm,
    haffords.expansions_le, haffords.expansions_eq,
    ⟨found.length, length_affordable_le, ?_, fun hwhole => ?_⟩, ?_⟩
  · rw [← List.prefix_iff_eq_take.mp hfirst, haffords.paths_eq]
    exact List.mergeSort_perm found shorterLe
  · obtain ⟨hexpansions, hpaths⟩ := haffords.truncated_eq_false_iff.mp hwhole
    rw [hfound, affordable_of_length_le hexpansions hpaths]
  · rw [haffords.paths_eq]
    exact shorterLe_mergeSort_strict hnodup

theorem subset_of_le
    (haffords : e.Affords limits attempts)
    (hmore : e'.Affords more attempts)
    (hpaths : limits.maxPaths ≤ more.maxPaths)
    (hexpansions : limits.maxExpansions ≤ more.maxExpansions) :
    e.paths ⊆ e'.paths := by
  intro path hpath
  rw [haffords.paths_eq, List.mem_mergeSort] at hpath
  rw [hmore.paths_eq, List.mem_mergeSort]
  exact affordable_subset_of_le hexpansions hpaths hpath

theorem not_truncated_of_le
    (haffords : e.Affords limits attempts)
    (hmore : e'.Affords more attempts)
    (hpaths : limits.maxPaths ≤ more.maxPaths)
    (hexpansions : limits.maxExpansions ≤ more.maxExpansions)
    (hwhole : e.truncated = false) :
    e'.truncated = false := by
  obtain ⟨hpaid, hroom⟩ := haffords.truncated_eq_false_iff.mp hwhole
  exact hmore.truncated_eq_false_iff.mpr ⟨hpaid.trans hexpansions,
    hroom.trans hpaths⟩

end Enumeration.Affords

/-- Between two nodes there is one list of paths up to a depth, and one effort
to find them all.  All enumerations keep to their budgets with respect to these,
and higher budgets lose no path and cut nothing short that was not cut short
before. -/
theorem simplePaths_keepsBudgets
    (s : Snapshot) {u v : Fin (Network.ofSnapshot s).size}
    (hne : u ≠ v)
    (depth : Nat) :
    ∃ (routes : List (List Nat)) (effort : Nat),
      routes.Pairwise (· < ·) ∧
      (∀ path, path ∈ routes ↔ ∃ p : (Network.ofSnapshot s).wholeGraph.Walk u v,
        p.IsPath ∧ p.length ≤ depth ∧ p.support.map Fin.val = path) ∧
      ∀ paths expansions, ∃ e,
        simplePaths .live (Network.ofSnapshot s).adjacency u v
            ⟨depth, paths, expansions⟩ = .ok e ∧
        e.KeepsBudgets routes effort ⟨depth, paths, expansions⟩ ∧
        ∀ paths' ≥ paths, ∀ expansions' ≥ expansions, ∃ e',
          simplePaths .live (Network.ofSnapshot s).adjacency u v
              ⟨depth, paths', expansions'⟩ = .ok e' ∧
          e.paths ⊆ e'.paths ∧
          (e.truncated = false → e'.truncated = false) := by
  have hne' : u.val ≠ v.val := fun heq => hne (Fin.val_injective heq)
  have hu := Network.lt_size_adjacency_ofSnapshot s u
  have hsearch := fun paths expansions =>
    simplePaths_affords (Network.closed_adjacency_ofSnapshot s) hu hne' ⟨depth,
      paths, expansions⟩
  have hroutes :
      ((Network.ofSnapshot s).adjacency.attemptsFrom v u depth).reduceOption =
        (Network.ofSnapshot s).adjacency.routesFrom v depth [] u :=
    reduceOption_attemptsFrom hne' depth
  have hascending :
      ((Network.ofSnapshot s).adjacency.routesFrom v depth [] u).Pairwise
        (· < ·) :=
    routesFrom_ascending (Network.ascending_adjacency_ofSnapshot s) depth [] u
  refine ⟨_, ((Network.ofSnapshot s).adjacency.attemptsFrom v u depth).length,
    hascending, fun path => mem_routesFrom_ofSnapshot_iff,
    fun paths expansions => ?_⟩
  obtain ⟨e, he, haffords⟩ := hsearch paths expansions
  refine ⟨e, he, hroutes ▸ haffords.keepsBudgets (hroutes ▸ hascending),
    fun paths' hpaths expansions' hexpansions => ?_⟩
  obtain ⟨e', he', haffords'⟩ := hsearch paths' expansions'
  exact ⟨e', he', haffords.subset_of_le haffords' hpaths hexpansions,
    haffords.not_truncated_of_le haffords' hpaths hexpansions⟩

/-- A budget of one route keeps the long way round the ring, which comes first;
the budgets that fit exactly cut nothing short. -/
theorem simplePaths_keepsBudgets_ringSnapshot :
    ∃ u v : Fin (Network.ofSnapshot ringSnapshot).size,
      u ≠ v ∧ ∃ e,
        simplePaths .live (Network.ofSnapshot ringSnapshot).adjacency u v
            ⟨5, 1, 4⟩ = .ok e ∧
        e.paths = [[0, 1, 2]] ∧
        e.truncated = true ∧
        e.KeepsBudgets [[0, 1, 2], [0, 2]] 4 ⟨5, 1, 4⟩ ∧
        ∃ e',
          simplePaths .live (Network.ofSnapshot ringSnapshot).adjacency u v
              ⟨5, 2, 4⟩ = .ok e' ∧
          e'.paths = [[0, 2], [0, 1, 2]] ∧
          e'.truncated = false ∧
          e.paths ⊆ e'.paths := by
  have hsize : (Network.ofSnapshot ringSnapshot).size = 3 := by cbv
  have hone : simplePaths .live (Network.ofSnapshot ringSnapshot).adjacency 0 2
        ⟨5, 1, 4⟩ = .ok ⟨[[0, 1, 2]], true, 4⟩ := by
    cbv
  have htwo : simplePaths .live (Network.ofSnapshot ringSnapshot).adjacency 0 2
        ⟨5, 2, 4⟩ = .ok ⟨[[0, 2], [0, 1, 2]], false, 4⟩ := by
    cbv
  have hne : (⟨0, by omega⟩ : Fin (Network.ofSnapshot ringSnapshot).size) ≠
      ⟨2, by omega⟩ :=
    fun heq => absurd (Fin.mk.inj heq) (by decide)
  obtain ⟨routes, effort, hascending, -, hsearch⟩ :=
    simplePaths_keepsBudgets ringSnapshot hne 5
  obtain ⟨e, he, hkeeps, hmore⟩ := hsearch 1 4
  obtain ⟨e', he', hsubset, -⟩ := hmore 2 (by decide) 4 le_rfl
  obtain ⟨e'', he'', hkeeps', -⟩ := hsearch 2 4
  obtain rfl := Except.ok.inj (he.symm.trans hone)
  obtain rfl := Except.ok.inj (he'.symm.trans htwo)
  obtain rfl := Except.ok.inj (he''.symm.trans htwo)
  obtain rfl : 4 = effort := hkeeps'.expansions_eq rfl
  obtain rfl : [[0, 1, 2], [0, 2]] = routes := by
    obtain ⟨k, -, hperm, hwhole⟩ := hkeeps'.exists_first
    rw [hwhole rfl, List.take_length] at hperm
    refine List.Perm.eq_of_pairwise (fun x y _ _ hxy hyx => absurd hyx
      hxy.asymm) ?_ hascending (List.Perm.trans (List.Perm.swap _ _ _) hperm)
    decide
  exact ⟨_, _, hne, _, he, rfl, rfl, hkeeps, _, he', rfl, rfl, hsubset⟩

end LinkAnalysis
