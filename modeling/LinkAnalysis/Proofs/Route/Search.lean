import LinkAnalysis.Proofs.Route.Attempts
import LinkAnalysis.Route.Search
import Mathlib.Tactic

/-!
# The search for simple routes

At any time the frames of a search say which attempts it would still make with
unlimited budgets, in which order, and which routes they would complete.  A turn
goes back, which leaves this list as it is, or it makes the first attempt of the
list.  So a search makes the first attempts of an exhaustive search, as many as
its budgets pay for, and it is cut short if they do not pay for all.
-/

namespace LinkAnalysis

namespace Search

variable {adj : Adjacency} {limits : PathConfig} {target : Nat} {s : Search}

/-- What going on to a node can do. -/
inductive Enters (limits : PathConfig) (target next : Nat)
    (s : Search) : Turn → Prop
  | skip (hon : s.onPath.getD next false = true) :
      Enters limits target next s (.more s)
  | full (hoff : s.onPath.getD next false = false) (htarget : next = target)
      (hcount : s.count = limits.maxPaths) :
      Enters limits target next s (.done s true)
  | record (hoff : s.onPath.getD next false = false) (htarget : next = target)
      (hcount : s.count ≠ limits.maxPaths) :
      Enters limits target next s (.more (s.record target))
  | advance (hoff : s.onPath.getD next false = false) (hne : next ≠ target)
      (hdepth : s.path.length < limits.maxDepth) :
      Enters limits target next s (.more (s.advance next))
  | bound (hoff : s.onPath.getD next false = false) (hne : next ≠ target)
      (hdepth : limits.maxDepth ≤ s.path.length) :
      Enters limits target next s (.more s)

theorem enters_enter
    (limits : PathConfig) (target next : Nat) (s : Search) :
    Enters limits target next s (s.enter limits target next) := by
  unfold enter
  by_cases hon : s.onPath.getD next false = true
  · rw [if_pos hon]
    exact .skip hon
  · rw [if_neg hon]
    rw [Bool.not_eq_true] at hon
    by_cases htarget : next = target
    · rw [if_pos htarget]
      by_cases hcount : s.count = limits.maxPaths
      · rw [if_pos hcount]
        exact .full hon htarget hcount
      · rw [if_neg hcount]
        exact .record hon htarget hcount
    · rw [if_neg htarget]
      by_cases hdepth : s.path.length < limits.maxDepth
      · rw [if_pos hdepth]
        exact .advance hon htarget hdepth
      · rw [if_neg hdepth]
        exact .bound hon htarget (not_lt.mp hdepth)

/-- What one turn can do while the token is live. -/
inductive Steps (adj : Adjacency) (limits : PathConfig) (target : Nat)
    (s : Search) : Turn → Prop
  | finish (hframes : s.frames = []) : Steps adj limits target s (.done s false)
  | retreat {frame : Frame} {others : List Frame}
      (hframes : s.frames = frame :: others)
      (hnone : (adj.nextOf frame.node)[frame.cursor]? = none) :
      Steps adj limits target s (.more (s.retreat frame.node))
  | exhaust {frame : Frame} {others : List Frame} {next : Nat}
      (hframes : s.frames = frame :: others)
      (hnext : (adj.nextOf frame.node)[frame.cursor]? = some next)
      (hbudget : limits.maxExpansions ≤ s.expansions) :
      Steps adj limits target s (.done s true)
  | enter {frame : Frame} {others : List Frame} {next : Nat} {t : Turn}
      (hframes : s.frames = frame :: others)
      (hnext : (adj.nextOf frame.node)[frame.cursor]? = some next)
      (hbudget : s.expansions < limits.maxExpansions)
      (henters : Enters limits target next (s.spend frame others) t) :
      Steps adj limits target s t

/-- While the token is live no poll stops a turn. -/
theorem exists_turn_live
    (adj : Adjacency) (limits : PathConfig) (target : Nat) (s : Search) :
    ∃ t, s.turn .live adj limits target = .ok t ∧
      Steps adj limits target s t := by
  unfold turn
  cases hframes : s.frames with
  | nil => exact ⟨_, rfl, .finish hframes⟩
  | cons frame others =>
      have hget : (adj.nextOf frame.node)[frame.cursor]? =
          ((adj.neighbors frame.node)[frame.cursor]?).map Prod.fst := by
        simp [Adjacency.nextOf]
      cases hstep : (adj.neighbors frame.node)[frame.cursor]? with
      | none =>
          rw [hstep, Option.map_none] at hget
          refine ⟨_, ?_, .retreat hframes hget⟩
          simp only [hstep]
      | some step =>
          rw [hstep, Option.map_some] at hget
          by_cases hbudget : limits.maxExpansions ≤ s.expansions
          · refine ⟨_, ?_, .exhaust hframes hget hbudget⟩
            simp only [hstep, if_pos hbudget]
          · refine ⟨_, ?_, .enter hframes hget (not_le.mp hbudget)
              (enters_enter limits target _ _)⟩
            simp only [hstep, if_neg hbudget, Signal.check, ite_self]

/-! ## The invariant -/

/-- The path and the marks say what the frames say. -/
structure Tracks (adj : Adjacency) (s : Search) : Prop where
  path_eq : s.path = s.frames.map Frame.node
  path_nodup : s.path.Nodup
  size_onPath : s.onPath.size = adj.size
  onPath_iff : ∀ v, s.onPath.getD v false = true ↔ v ∈ s.path
  count_eq : s.count = s.found.length

namespace Tracks

theorem start {source : Nat} (hsource : source < adj.size) :
    Tracks adj (Search.start adj.size source) where
  path_eq := rfl
  path_nodup := List.nodup_singleton source
  size_onPath := by simp [Search.start]
  onPath_iff v := by
    rw [Search.start, getD_setIfInBounds, getD_replicate_self,
      Array.size_replicate]
    simp [hsource]
  count_eq := rfl

theorem spend
    (htracks : Tracks adj s)
    {frame : Frame} {others : List Frame}
    (hframes : s.frames = frame :: others) :
    Tracks adj (s.spend frame others) where
  path_eq := by
    rw [Search.spend, htracks.path_eq, hframes]
    rfl
  path_nodup := htracks.path_nodup
  size_onPath := htracks.size_onPath
  onPath_iff := htracks.onPath_iff
  count_eq := htracks.count_eq

theorem retreat
    (htracks : Tracks adj s)
    {frame : Frame} {others : List Frame}
    (hframes : s.frames = frame :: others) :
    Tracks adj (s.retreat frame.node) := by
  have hpath : s.path = frame.node :: others.map Frame.node := by
    rw [htracks.path_eq, hframes]; rfl
  have hnodup := htracks.path_nodup
  rw [hpath, List.nodup_cons] at hnodup
  refine ⟨?_, ?_, ?_, fun v => ?_, htracks.count_eq⟩
  · rw [Search.retreat, hpath, hframes]
    rfl
  · rw [Search.retreat, hpath]
    exact hnodup.2
  · rw [Search.retreat, Array.size_setIfInBounds]
    exact htracks.size_onPath
  · rw [Search.retreat, getD_setIfInBounds, hpath, List.tail_cons]
    by_cases hv : v = frame.node
    · subst v
      have hlt : frame.node < s.onPath.size := by
        by_contra hlt
        have hmark := (htracks.onPath_iff frame.node).mpr
          (by rw [hpath]; exact List.mem_cons_self)
        rw [Array.getD_eq_getD_getElem?,
          Array.getElem?_eq_none (not_lt.mp hlt)] at hmark
        exact Bool.false_ne_true hmark
      rw [if_pos ⟨rfl, hlt⟩]
      exact iff_of_false Bool.false_ne_true hnodup.1
    · rw [if_neg fun hboth => hv hboth.1, htracks.onPath_iff, hpath,
        List.mem_cons]
      exact or_iff_right hv

theorem record (htracks : Tracks adj s) : Tracks adj (s.record target) where
  path_eq := htracks.path_eq
  path_nodup := htracks.path_nodup
  size_onPath := htracks.size_onPath
  onPath_iff := htracks.onPath_iff
  count_eq := by
    rw [Search.record, htracks.count_eq]
    rfl

theorem advance
    (htracks : Tracks adj s)
    {next : Nat}
    (hlt : next < adj.size)
    (hoff : s.onPath.getD next false = false) :
    Tracks adj (s.advance next) where
  path_eq := by
    rw [Search.advance, htracks.path_eq]
    rfl
  path_nodup := by
    refine List.nodup_cons.mpr ⟨fun hmem => ?_, htracks.path_nodup⟩
    rw [← htracks.onPath_iff, hoff] at hmem
    exact Bool.false_ne_true hmem
  size_onPath := by
    rw [Search.advance, Array.size_setIfInBounds]
    exact htracks.size_onPath
  onPath_iff v := by
    rw [Search.advance, getD_setIfInBounds, List.mem_cons, ← htracks.onPath_iff,
      htracks.size_onPath]
    by_cases hv : v = next
    · simp [hv, hlt]
    · simp [hv]
  count_eq := htracks.count_eq

theorem next
    (htracks : Tracks adj s)
    (hclosed : adj.Closed)
    {s' : Search}
    (hstep : Steps adj limits target s (.more s')) :
    Tracks adj s' := by
  cases hstep with
  | retreat hframes _ => exact htracks.retreat hframes
  | enter hframes hnext _ henters =>
      have hspend := htracks.spend hframes
      cases henters with
      | skip _ => exact hspend
      | record _ _ _ => exact hspend.record
      | advance hoff _ _ =>
          obtain ⟨link, hlink⟩ :=
            Adjacency.mem_nextOf.mp (List.mem_of_getElem? hnext)
          exact hspend.advance (hclosed _ _ hlink) hoff
      | bound _ _ _ => exact hspend

end Tracks

/-! ## Attempts that are left -/

/-- The attempts that these frames would still make, in the order of the
search. -/
def attemptsLeft (adj : Adjacency) (target depth : Nat) :
    List Frame → List (Option (List Nat))
  | [] => []
  | frame :: others =>
    let path := frame.node :: others.map Frame.node
    ((adj.nextOf frame.node).drop frame.cursor).flatMap
        (adj.attempts target (depth - path.length) path) ++
      attemptsLeft adj target depth others

theorem attemptsLeft_of_none
    {depth : Nat} {frame : Frame} {others : List Frame}
    (hnone : (adj.nextOf frame.node)[frame.cursor]? = none) :
    attemptsLeft adj target depth (frame :: others) =
      attemptsLeft adj target depth others := by
  rw [attemptsLeft,
    List.drop_eq_nil_iff.mpr (List.getElem?_eq_none_iff.mp hnone)]
  rfl

/-- The neighbour that is tried next comes first. -/
theorem attemptsLeft_of_some
    {depth next : Nat} {frame : Frame} {others : List Frame}
    (hnext : (adj.nextOf frame.node)[frame.cursor]? = some next) :
    attemptsLeft adj target depth (frame :: others) =
      adj.attempts target (depth - (others.length + 1)) (frame.node ::
        others.map Frame.node) next ++ attemptsLeft adj target depth
      ({ frame with cursor := frame.cursor + 1 } :: others) := by
  obtain ⟨hlt, hget⟩ := List.getElem?_eq_some_iff.mp hnext
  rw [attemptsLeft, List.drop_eq_getElem_cons hlt, hget, List.flatMap_cons,
    List.append_assoc, attemptsLeft]
  simp only [List.length_cons, List.length_map]

/-- What a turn does to the attempts that are left: it makes none, or it makes
the first one. -/
inductive Progress (limits : PathConfig) (s : Search)
    (left : List (Option (List Nat))) (s' : Search)
    (left' : List (Option (List Nat))) : Prop
  | back (hleft : left = left') (hfound : s'.found = s.found)
      (hexpansions : s'.expansions = s.expansions) :
      Progress limits s left s' left'
  | miss (hleft : left = none :: left') (hfound : s'.found = s.found)
      (hexpansions : s'.expansions = s.expansions + 1)
      (hbudget : s.expansions < limits.maxExpansions) :
      Progress limits s left s' left'
  | complete {route : List Nat} (hleft : left = some route :: left')
      (hfound : s'.found = route :: s.found)
      (hexpansions : s'.expansions = s.expansions + 1)
      (hbudget : s.expansions < limits.maxExpansions)
      (hroom : s.found.length ≠ limits.maxPaths) :
      Progress limits s left s' left'

theorem Tracks.notMem_path
    (htracks : Tracks adj s)
    {v : Nat}
    (hoff : s.onPath.getD v false = false) :
    v ∉ s.path := by
  intro hmem
  rw [← htracks.onPath_iff, hoff] at hmem
  exact Bool.false_ne_true hmem

/-- The attempts that are left begin with those on the next neighbour. -/
theorem Tracks.attemptsLeft_eq
    (htracks : Tracks adj s)
    (target : Nat) (limits : PathConfig) {frame : Frame} {others : List Frame}
    {next : Nat}
    (hframes : s.frames = frame :: others)
    (hnext : (adj.nextOf frame.node)[frame.cursor]? = some next) :
    attemptsLeft adj target limits.maxDepth s.frames =
      adj.attempts target (limits.maxDepth - s.path.length) s.path next ++
        attemptsLeft adj target limits.maxDepth
          (s.spend frame others).frames := by
  have hpath := htracks.path_eq
  rw [hframes, List.map_cons] at hpath
  rw [hframes, attemptsLeft_of_some hnext, hpath, List.length_cons,
    List.length_map]
  rfl

theorem Steps.progress
    {s' : Search}
    (htracks : Tracks adj s)
    (hstep : Steps adj limits target s (.more s')) :
    Progress limits s (attemptsLeft adj target limits.maxDepth s.frames) s'
      (attemptsLeft adj target limits.maxDepth s'.frames) := by
  cases hstep with
  | retreat hframes hnone =>
      refine .back ?_ rfl rfl
      rw [hframes, attemptsLeft_of_none hnone, Search.retreat, hframes]
      rfl
  | @enter frame others next _ hframes hnext hbudget henters =>
      have hleft := htracks.attemptsLeft_eq target limits hframes hnext
      cases henters with
      | skip hon =>
          rw [Adjacency.attempts_of_mem ((htracks.onPath_iff next).mp hon)]
            at hleft
          exact .miss hleft rfl rfl hbudget
      | record hoff htarget hcount =>
          subst htarget
          rw [Adjacency.attempts_target (htracks.notMem_path hoff)] at hleft
          exact .complete hleft rfl rfl hbudget (htracks.count_eq ▸ hcount)
      | advance hoff hne hdepth =>
          obtain ⟨depth, hsucc⟩ :
              ∃ depth, limits.maxDepth - s.path.length = depth + 1 :=
            Nat.exists_eq_succ_of_ne_zero (Nat.sub_ne_zero_of_lt hdepth)
          have hdeeper : limits.maxDepth - (s.path.length + 1) = depth := by
            omega
          refine .miss ?_ rfl rfl hbudget
          rw [hleft, hsucc, Adjacency.attempts_succ (htracks.notMem_path hoff)
            hne, Search.advance, attemptsLeft]
          have hpath : (s.spend frame others).frames.map Frame.node = s.path :=
            (htracks.spend hframes).path_eq.symm
          simp only [hpath, List.length_cons, hdeeper, List.drop_zero,
            List.cons_append]
      | bound hoff hne hdepth =>
          have hdepth : limits.maxDepth ≤ s.path.length := hdepth
          rw [Nat.sub_eq_zero_of_le hdepth,
            Adjacency.attempts_zero hne] at hleft
          exact .miss hleft rfl rfl hbudget

/-- A search ends when no attempt is left, or where the budgets do not pay for
the next one. -/
inductive Ending (limits : PathConfig) (s : Search)
    (left : List (Option (List Nat))) (s' : Search) : Bool → Prop
  | finish (hleft : left = []) (hfound : s'.found = s.found)
      (hexpansions : s'.expansions = s.expansions) :
      Ending limits s left s' false
  | exhaust (hleft : left ≠ []) (hfound : s'.found = s.found)
      (hexpansions : s'.expansions = s.expansions)
      (hbudget : limits.maxExpansions ≤ s.expansions) :
      Ending limits s left s' true
  | full {route : List Nat} {more : List (Option (List Nat))}
      (hleft : left = some route :: more) (hfound : s'.found = s.found)
      (hexpansions : s'.expansions = s.expansions + 1)
      (hbudget : s.expansions < limits.maxExpansions)
      (hroom : s.found.length = limits.maxPaths) : Ending limits s left s' true

theorem Steps.ending
    {s' : Search} {truncated : Bool}
    (htracks : Tracks adj s)
    (hstep : Steps adj limits target s (.done s' truncated)) :
    Ending limits s (attemptsLeft adj target limits.maxDepth s.frames) s'
      truncated := by
  cases hstep with
  | finish hframes =>
      refine .finish ?_ rfl rfl
      rw [hframes, attemptsLeft]
  | exhaust hframes hnext hbudget =>
      refine .exhaust ?_ rfl rfl hbudget
      rw [htracks.attemptsLeft_eq target limits hframes hnext]
      exact List.append_ne_nil_of_left_ne_nil
        (Adjacency.attempts_ne_nil _ _ _) _
  | enter hframes hnext hbudget henters =>
      have hleft := htracks.attemptsLeft_eq target limits hframes hnext
      cases henters with
      | full hoff htarget hcount =>
          subst htarget
          rw [Adjacency.attempts_target (htracks.notMem_path hoff)] at hleft
          exact .full hleft rfl rfl hbudget (htracks.count_eq ▸ hcount)

/-! ## A whole run -/

/-- A bound for the turns to come: each of them costs an expansion or a
frame. -/
def turnsLeft (limits : PathConfig) (s : Search) : Nat :=
  2 * (limits.maxExpansions - s.expansions) + s.frames.length + 1

theorem Steps.turnsLeft_lt
    {s' : Search}
    (hstep : Steps adj limits target s (.more s')) :
    s'.turnsLeft limits < s.turnsLeft limits := by
  cases hstep with
  | retreat hframes _ => simp [turnsLeft, Search.retreat, hframes]
  | enter hframes _ hbudget henters =>
      cases henters <;> simp only [turnsLeft, Search.spend, Search.record,
        Search.advance, hframes, List.length_cons] <;> omega

/-- The search is within its budgets. -/
structure Solvent (limits : PathConfig) (s : Search) : Prop where
  expansions_le : s.expansions ≤ limits.maxExpansions
  length_found_le : s.found.length ≤ limits.maxPaths

/-- What a run that starts from `s` with these attempts left ends with: what the
budgets pay for. -/
structure Affords (limits : PathConfig) (s : Search)
    (left : List (Option (List Nat))) (s' : Search)
    (truncated : Bool) : Prop where
  found_eq : s'.found.reverse = s.found.reverse ++ affordable left
    (limits.maxExpansions - s.expansions) (limits.maxPaths - s.found.length)
  truncated_eq_false_iff : truncated = false ↔
    s.expansions + left.length ≤ limits.maxExpansions ∧
      s.found.length + left.reduceOption.length ≤ limits.maxPaths
  expansions_le : s'.expansions ≤
    min (s.expansions + left.length) limits.maxExpansions
  expansions_eq : truncated = false → s'.expansions = s.expansions + left.length

variable {left left' : List (Option (List Nat))} {s' s'' : Search}
  {truncated : Bool}

theorem Progress.solvent
    (hprogress : Progress limits s left s' left')
    (hsolvent : Solvent limits s) :
    Solvent limits s' := by
  have hexpansions := hsolvent.expansions_le
  have hlength := hsolvent.length_found_le
  cases hprogress with
  | back _ hfound hspent => exact ⟨hspent ▸ hexpansions, hfound ▸ hlength⟩
  | miss _ hfound hspent hbudget => exact ⟨by omega, hfound ▸ hlength⟩
  | complete _ hfound hspent hbudget hroom =>
      refine ⟨by omega, ?_⟩
      rw [hfound, List.length_cons]
      omega

theorem Ending.affords
    (hending : Ending limits s left s' truncated)
    (hsolvent : Solvent limits s) :
    Affords limits s left s' truncated := by
  have hexpansions := hsolvent.expansions_le
  have hlength := hsolvent.length_found_le
  cases hending with
  | finish hleft hfound hspent =>
      subst hleft
      refine ⟨?_, ?_, ?_, fun _ => hspent⟩
      · rw [affordable_nil, List.append_nil, hfound]
      · simpa using ⟨hexpansions, hlength⟩
      · rw [hspent]
        exact le_min le_self_add hexpansions
  | exhaust hleft hfound hspent hbudget =>
      have hpos := List.length_pos_iff.mpr hleft
      refine ⟨?_, ?_, ?_, fun hfalse => absurd hfalse.symm Bool.false_ne_true⟩
      · rw [Nat.sub_eq_zero_of_le hbudget, affordable_no_expansions,
          List.append_nil, hfound]
      · exact iff_of_false (Bool.false_ne_true ∘ Eq.symm) fun hboth => by omega
      · rw [hspent]
        exact le_min le_self_add hexpansions
  | full hleft hfound hspent hbudget hroom =>
      refine ⟨?_, ?_, ?_, fun hfalse => absurd hfalse.symm Bool.false_ne_true⟩
      · rw [hroom, Nat.sub_self, affordable_no_paths, List.append_nil, hfound]
      · refine iff_of_false (Bool.false_ne_true ∘ Eq.symm) fun hboth => ?_
        rw [hleft, List.reduceOption_cons_of_some] at hboth
        simp only [List.length_cons] at hboth
        omega
      · rw [hspent, hleft, List.length_cons]
        omega

/-- What a run affords after a turn, it affords before it. -/
theorem Progress.affords
    (hprogress : Progress limits s left s' left')
    (hsolvent : Solvent limits s)
    (haffords : Affords limits s' left' s'' truncated) :
    Affords limits s left s'' truncated := by
  have hlength := hsolvent.length_found_le
  obtain ⟨hlast, htruncated, hle, heq⟩ := haffords
  cases hprogress with
  | back hleft hfound hspent =>
      subst hleft
      rw [hfound, hspent] at hlast
      rw [hfound, hspent] at htruncated
      rw [hspent] at hle heq
      exact ⟨hlast, htruncated, hle, heq⟩
  | miss hleft hfound hspent hbudget =>
      subst hleft
      rw [hfound, hspent] at hlast
      rw [hfound, hspent] at htruncated
      rw [hspent] at hle heq
      obtain ⟨spare, hspare⟩ :
          ∃ spare, limits.maxExpansions - s.expansions = spare + 1 :=
        Nat.exists_eq_succ_of_ne_zero (Nat.sub_ne_zero_of_lt hbudget)
      refine ⟨?_, ?_, ?_, fun hwhole => ?_⟩
      · rw [hlast, hspare, affordable_cons_none, ← Nat.sub_sub, hspare,
          Nat.add_sub_cancel]
      · rw [htruncated, List.reduceOption_cons_of_none, List.length_cons]
        omega
      · rw [List.length_cons]
        omega
      · rw [heq hwhole, List.length_cons]
        omega
  | complete hleft hfound hspent hbudget hroom =>
      subst hleft
      rw [hfound, hspent] at hlast
      rw [hfound, hspent] at htruncated
      rw [hspent] at hle heq
      obtain ⟨spare, hspare⟩ :
          ∃ spare, limits.maxExpansions - s.expansions = spare + 1 :=
        Nat.exists_eq_succ_of_ne_zero (Nat.sub_ne_zero_of_lt hbudget)
      obtain ⟨room, hspace⟩ :
          ∃ room, limits.maxPaths - s.found.length = room + 1 :=
        Nat.exists_eq_succ_of_ne_zero
          (Nat.sub_ne_zero_of_lt (lt_of_le_of_ne hlength hroom))
      refine ⟨?_, ?_, ?_, fun hwhole => ?_⟩
      · rw [hlast, hspare, hspace, affordable_cons_some, List.length_cons,
          ← Nat.sub_sub, hspare, ← Nat.sub_sub, hspace, Nat.add_sub_cancel,
          Nat.add_sub_cancel, List.reverse_cons, List.append_assoc]
        rfl
      · rw [htruncated, List.reduceOption_cons_of_some]
        simp only [List.length_cons]
        omega
      · rw [List.length_cons]
        omega
      · rw [heq hwhole, List.length_cons]
        omega

/-- While the token is live a run makes the attempts that are left as far as the
budgets pay for them. -/
theorem run_live
    (target : Nat)
    (hclosed : adj.Closed)
    {turns : Nat}
    (htracks : Tracks adj s)
    (hsolvent : Solvent limits s)
    (hturns : s.turnsLeft limits ≤ turns) :
    ∃ s' truncated,
      run .live adj limits target turns s = .ok (s', truncated) ∧
      Affords limits s (attemptsLeft adj target limits.maxDepth s.frames) s'
        truncated := by
  induction turns generalizing s with
  | zero => simp [turnsLeft] at hturns
  | succ turns ih =>
      obtain ⟨t, ht, hstep⟩ := exists_turn_live adj limits target s
      rw [run, ht]
      cases t with
      | more s' =>
          have hlt := hstep.turnsLeft_lt
          have hprogress := hstep.progress htracks
          obtain ⟨s'', truncated, hrun, haffords⟩ :=
            ih (htracks.next hclosed hstep)
              (hprogress.solvent hsolvent) (by omega)
          exact ⟨s'', truncated, hrun, hprogress.affords hsolvent haffords⟩
      | done s' truncated =>
          exact ⟨s', truncated, rfl, (hstep.ending htracks).affords hsolvent⟩

end Search

/-- An enumeration gives what its budgets pay for of these attempts. -/
structure Enumeration.Affords (limits : PathConfig)
    (attempts : List (Option (List Nat))) (e : Enumeration) : Prop where
  paths_eq : e.paths =
    (affordable attempts limits.maxExpansions limits.maxPaths).mergeSort
      shorterLe
  truncated_eq_false_iff : e.truncated = false ↔
    attempts.length ≤ limits.maxExpansions ∧
      attempts.reduceOption.length ≤ limits.maxPaths
  expansions_le : e.expansions ≤ min attempts.length limits.maxExpansions
  expansions_eq : e.truncated = false → e.expansions = attempts.length

/-- Between different nodes an enumeration makes the attempts of an exhaustive
search, as far as its budgets pay for them. -/
theorem simplePaths_affords
    {adj : Adjacency}
    (hclosed : adj.Closed)
    {source target : Nat}
    (hsource : source < adj.size)
    (hne : source ≠ target)
    (limits : PathConfig) :
    ∃ e, simplePaths .live adj source target limits = .ok e ∧
      e.Affords limits (adj.attemptsFrom target source limits.maxDepth) := by
  cases hdepth : limits.maxDepth with
  | zero =>
      refine ⟨⟨[], false, 0⟩, ?_, ?_, ?_, ?_, fun _ => rfl⟩
      · rw [simplePaths, if_pos (Or.inr hdepth)]
        rfl
      · rw [Adjacency.attemptsFrom, affordable_nil, List.mergeSort_nil]
      · simp [Adjacency.attemptsFrom]
      · exact Nat.zero_le _
  | succ depth =>
      have hturns : (Search.start adj.size source).turnsLeft limits ≤
          Search.turnLimit limits := by
        simp [Search.turnsLeft, Search.turnLimit, Search.start]
      have hsolvent : Search.Solvent limits (Search.start adj.size source) :=
        ⟨Nat.zero_le _, Nat.zero_le _⟩
      obtain ⟨s, truncated, hrun, hfound, htruncated, hle, heq⟩ :=
        Search.run_live target hclosed
          (Search.Tracks.start hsource) hsolvent hturns
      have hleft : Search.attemptsLeft adj target limits.maxDepth
            (Search.start adj.size source).frames =
          adj.attemptsFrom target source (depth + 1) := by
        rw [hdepth]
        simp [Search.attemptsLeft, Search.start, Adjacency.attemptsFrom]
      rw [hleft] at hfound htruncated hle heq
      simp only [Search.start, List.reverse_nil, List.nil_append, Nat.sub_zero,
        List.length_nil, Nat.zero_add] at hfound htruncated hle heq
      refine ⟨⟨s.found.reverse.mergeSort shorterLe, truncated, s.expansions⟩,
        ?_, congrArg (List.mergeSort · shorterLe) hfound, htruncated, hle, heq⟩
      have hgo : ¬ (source = target ∨ limits.maxDepth = 0) := by omega
      rw [simplePaths, if_neg hgo, hrun]
      rfl

/-- Between different nodes the routes found are the first simple routes in
lexicographic order, and all of them unless a budget cuts the search short. -/
theorem simplePaths_live
    {adj : Adjacency}
    (hclosed : adj.Closed)
    {source target : Nat}
    (hsource : source < adj.size)
    (hne : source ≠ target)
    (limits : PathConfig) :
    ∃ e found,
      simplePaths .live adj source target limits = .ok e ∧
      e.paths = found.mergeSort shorterLe ∧
      found <+: adj.routesFrom target limits.maxDepth [] source ∧
      (e.truncated = false →
        found = adj.routesFrom target limits.maxDepth [] source) := by
  obtain ⟨e, he, haffords⟩ := simplePaths_affords hclosed hsource hne limits
  rw [← Adjacency.reduceOption_attemptsFrom hne]
  refine ⟨e, _, he, haffords.paths_eq, affordable_prefix, fun hwhole => ?_⟩
  obtain ⟨hexpansions, hpaths⟩ := haffords.truncated_eq_false_iff.mp hwhole
  exact affordable_of_length_le hexpansions hpaths

end LinkAnalysis
