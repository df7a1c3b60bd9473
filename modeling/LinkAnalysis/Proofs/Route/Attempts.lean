import LinkAnalysis.Proofs.Route.Simple
import Mathlib.Data.List.ReduceOption
import Mathlib.Tactic

/-!
# Attempts

An exhaustive search for simple routes tries one step after another, and some
attempts complete a route.  The list of its attempts in their order is all that
budgets act on: a budget of expansions ends the list after so many attempts, a
budget of routes ends it before a route too many.
-/

namespace LinkAnalysis

namespace Adjacency

variable {adj : Adjacency} {target : Nat}

/-- The attempts that going on to `next` costs in an exhaustive search: the step
itself and all that follow from there, each with the route that it completes.
The path so far has its last node first. -/
def attempts (adj : Adjacency) (target : Nat) :
    Nat → List Nat → Nat → List (Option (List Nat))
  | depth, path, next =>
    if next ∈ path then [none]
    else if next = target then [some (target :: path).reverse]
    else match depth with
      | 0 => [none]
      | depth + 1 =>
        none :: (adj.nextOf next).flatMap fun w =>
          adj.attempts target depth (next :: path) w

/-- The attempts of an exhaustive search for routes with at most so many
links. -/
def attemptsFrom (adj : Adjacency) (target source : Nat) :
    Nat → List (Option (List Nat))
  | 0 => []
  | depth + 1 =>
    (adj.nextOf source).flatMap (adj.attempts target depth [source])

theorem attempts_of_mem
    {depth next : Nat} {path : List Nat}
    (hmem : next ∈ path) :
    adj.attempts target depth path next = [none] := by
  unfold attempts
  rw [if_pos hmem]

theorem attempts_target
    {depth : Nat} {path : List Nat}
    (hnotMem : target ∉ path) :
    adj.attempts target depth path target =
      [some (target :: path).reverse] := by
  unfold attempts
  rw [if_neg hnotMem, if_pos rfl]

theorem attempts_zero
    {next : Nat} {path : List Nat}
    (hne : next ≠ target) :
    adj.attempts target 0 path next = [none] := by
  unfold attempts
  rw [if_neg hne, ite_self]

theorem attempts_succ
    {depth next : Nat} {path : List Nat}
    (hnotMem : next ∉ path)
    (hne : next ≠ target) :
    adj.attempts target (depth + 1) path next = none ::
      (adj.nextOf next).flatMap (adj.attempts target depth (next :: path)) := by
  rw [attempts, if_neg hnotMem, if_neg hne]

theorem attempts_ne_nil
    (depth : Nat) (path : List Nat) (next : Nat) :
    adj.attempts target depth path next ≠ [] := by
  fun_cases attempts adj target depth path next <;> exact List.cons_ne_nil _ _

theorem reduceOption_flatMap
    {β γ : Type} (l : List β) (f : β → List (Option γ)) :
    (l.flatMap f).reduceOption = l.flatMap fun x => (f x).reduceOption :=
  List.filterMap_flatMap

/-- The attempts complete the simple routes that go on from the path, in the
order of their list. -/
theorem reduceOption_attempts
    (depth : Nat) (path : List Nat) (next : Nat) :
    (adj.attempts target depth path next).reduceOption =
      (adj.routesFrom target depth path next).map (path.reverse ++ ·) := by
  fun_induction attempts adj target depth path next with
  | case1 depth path next hmem =>
      rw [routesFrom_of_mem hmem]
      rfl
  | case2 depth path hfresh =>
      rw [routesFrom_target hfresh]
      simp
  | case3 path next hfresh hne =>
      rw [routesFrom_zero hne]
      rfl
  | case4 path next hfresh hne depth ih =>
      rw [routesFrom_succ hfresh hne, List.reduceOption_cons_of_none,
        reduceOption_flatMap, List.map_map, List.map_flatMap]
      simp [ih, Function.comp_def]

theorem reduceOption_attemptsFrom
    {source : Nat}
    (hne : source ≠ target)
    (depth : Nat) :
    (adj.attemptsFrom target source depth).reduceOption =
      adj.routesFrom target depth [] source := by
  cases depth with
  | zero =>
      rw [routesFrom_zero hne]
      rfl
  | succ depth =>
      rw [routesFrom_succ List.not_mem_nil hne, attemptsFrom,
        reduceOption_flatMap, List.map_flatMap]
      simp [reduceOption_attempts]

end Adjacency

/-! ## Budgets -/

/-- What attempts complete if only so many are made and only so many results are
kept. -/
def affordable {β : Type} (attempts : List (Option β))
    (expansions paths : Nat) : List β :=
  (attempts.take expansions).reduceOption.take paths

section Affordable

variable {β : Type} {attempts : List (Option β)} {expansions paths : Nat}

theorem affordable_nil :
    affordable ([] : List (Option β)) expansions paths = [] := by
  simp [affordable]

theorem affordable_no_expansions : affordable attempts 0 paths = [] := by
  simp [affordable]

theorem affordable_no_paths : affordable attempts expansions 0 = [] := by
  simp [affordable]

theorem affordable_cons_none :
    affordable (none :: attempts) (expansions + 1) paths =
      affordable attempts expansions paths := by
  rw [affordable, List.take_succ_cons, List.reduceOption_cons_of_none,
    affordable]

theorem affordable_cons_some (x : β) :
    affordable (some x :: attempts) (expansions + 1) (paths + 1) =
      x :: affordable attempts expansions paths := by
  rw [affordable, List.take_succ_cons, List.reduceOption_cons_of_some,
    List.take_succ_cons, affordable]

theorem length_affordable_le :
    (affordable attempts expansions paths).length ≤ paths := by
  rw [affordable, List.length_take]
  exact min_le_left _ _

theorem affordable_prefix :
    affordable attempts expansions paths <+: attempts.reduceOption :=
  (List.take_prefix _ _).trans
    (List.take_prefix expansions attempts).reduceOption

/-- Higher budgets pay for all that lower ones pay for. -/
theorem affordable_subset_of_le
    {expansions' paths' : Nat}
    (hexpansions : expansions ≤ expansions')
    (hpaths : paths ≤ paths') :
    affordable attempts expansions paths ⊆
      affordable attempts expansions' paths' := by
  have hfewer : (attempts.take expansions).reduceOption <+:
      (attempts.take expansions').reduceOption :=
    (List.take_prefix_take_left hexpansions).reduceOption
  exact ((hfewer.take paths).trans (List.take_prefix_take_left hpaths)).subset

theorem affordable_of_length_le
    (hexpansions : attempts.length ≤ expansions)
    (hpaths : attempts.reduceOption.length ≤ paths) :
    affordable attempts expansions paths = attempts.reduceOption := by
  rw [affordable, List.take_of_length_le hexpansions,
    List.take_of_length_le hpaths]

end Affordable

end LinkAnalysis
