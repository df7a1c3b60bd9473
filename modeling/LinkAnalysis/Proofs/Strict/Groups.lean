import LinkAnalysis.Proofs.Centrality.Accumulation
import LinkAnalysis.Proofs.Route.Search
import LinkAnalysis.Proofs.Strict.Network
import LinkAnalysis.Report.Analysis

/-!
# Strict groups

A group is summarised in two tables over all nodes: one marks the members, the
other counts the links within the group at each node.  Both are looked up for
members and for ends of links only.
-/

namespace LinkAnalysis

def Link.within (members : List Nat) (l : Link) : Bool :=
  members.contains l.low && members.contains l.high

theorem degreeIn_cons
    {l : Link}
    (hl : l.low ≠ l.high)
    (links : List Link) (v : Nat) :
    degreeIn (l :: links) v =
      degreeIn links v +
        ((if l.low = v then 1 else 0) + if l.high = v then 1 else 0) := by
  rw [degreeIn, List.countP_cons]
  apply congrArg (degreeIn links v + ·)
  by_cases hv : l.low = v
  · have hv' : ¬ l.high = v := fun heq => hl (hv.trans heq.symm)
    simp [hv, hv']
  · simp [hv]

namespace Strict

/-! ## Marks -/

def mark (n : Nat) (members : List Nat) : Strict (Array Bool) :=
  members.foldlM (fun marks v => store marks v true) (Array.replicate n false)

theorem mark_eq
    {n : Nat} {members : List Nat}
    (hmembers : ∀ v ∈ members, v < n) :
    ∃ marks,
      mark n members = .ok marks ∧
      marks.size = n ∧
      ∀ v < n, marks.getD v false = members.contains v := by
  have hmark : ∀ (more : List Nat) (marks : Array Bool),
      (∀ v ∈ more, v < n) → marks.size = n →
      ∃ marks',
        more.foldlM (fun marks v => store marks v true) marks = .ok marks' ∧
        marks'.size = n ∧
        ∀ v < n,
          marks'.getD v false = (marks.getD v false || more.contains v) := by
    intro more
    induction more with
    | nil =>
        intro marks _ hsize
        exact ⟨marks, rfl, hsize,
          fun v _ => by rw [List.contains_nil, Bool.or_false]⟩
    | cons w more ih =>
        intro marks hlt hsize
        have hw : w < marks.size := hsize ▸ hlt w List.mem_cons_self
        rw [List.foldlM_cons, store_of_lt hw, ok_bind]
        rcases ih (marks.setIfInBounds w true) (fun v hv => hlt v
          (List.mem_cons_of_mem _ hv)) (by rw [Array.size_setIfInBounds, hsize])
          with ⟨marks', heq, hsize', hmarks'⟩
        refine ⟨marks', heq, hsize', fun v hv => ?_⟩
        rw [hmarks' v hv, getD_setIfInBounds, List.contains_cons]
        by_cases hvw : v = w
        · simp [hvw, hw]
        · rw [if_neg fun hboth => hvw hboth.1, beq_false_of_ne hvw,
            Bool.false_or]
  rcases hmark members (Array.replicate n false) hmembers Array.size_replicate
    with ⟨marks, heq, hsize, hmarks⟩
  refine ⟨marks, heq, hsize, fun v hv => ?_⟩
  rw [hmarks v hv]
  simp [hv]

/-! ## Summaries -/

/-- Count a link whose ends are both marked, and count it at both ends.  A node
beyond the marks is not marked. -/
def tallyLink (marks : Array Bool) (t : Nat × Array Nat) (l : Link) :
    Strict (Nat × Array Nat) :=
  if marks.getD l.low false && marks.getD l.high false then do
    let degrees ← adjust t.2 l.low (· + 1)
    let degrees ← adjust degrees l.high (· + 1)
    return (t.1 + 1, degrees)
  else return t

def moreCentral (degrees : Array Nat) (a b : Nat) : Strict Nat := do
  let x ← fetch degrees a
  let y ← fetch degrees b
  return if y > x then b else if y < x then a else min a b

def mostCentral (degrees : Array Nat) : List Nat → Strict (Option Nat)
  | [] => return none
  | a :: more => do
    require (a < degrees.size)
    let best ← more.foldlM (moreCentral degrees) a
    return some best

variable {α : Type} [Score α]

def summary (net : Network) (members : List Nat) : Strict (GroupSummary α) := do
  let marks ← mark net.size members
  let (count, degrees) ← net.links.toList.foldlM (tallyLink marks)
      (0, Array.replicate net.size 0)
  let central ← mostCentral degrees members
  return {
    internalLinks := count
    density := LinkAnalysis.density members.length count
    central := central }

section Summary

variable {n : Nat}

/-- After some links, so many more are counted as are within the group. -/
theorem foldlM_tallyLink_eq
    {marks : Array Bool} {members : List Nat}
    (hmarks : ∀ v < n, marks.getD v false = members.contains v)
    (links : List Link)
    (hlinks : ∀ l ∈ links, l.low < l.high ∧ l.high < n)
    (count : Nat) {degrees : Array Nat}
    (hsize : degrees.size = n) :
    ∃ degrees',
      links.foldlM (tallyLink marks) (count, degrees) =
        .ok (count + (links.filter (Link.within members)).length, degrees') ∧
      degrees'.size = n ∧
      ∀ v < n, degrees'.getD v 0 =
        degrees.getD v 0 + degreeIn (links.filter (Link.within members)) v := by
  induction links generalizing count degrees with
  | nil => exact ⟨degrees, rfl, hsize, fun v _ => rfl⟩
  | cons l links ih =>
      have hl := hlinks l List.mem_cons_self
      have hmore := fun l' hl' => hlinks l' (List.mem_cons_of_mem _ hl')
      rw [List.foldlM_cons, tallyLink, hmarks _ (hl.1.trans hl.2),
        hmarks _ hl.2, ← Link.within]
      by_cases hwithin : l.within members = true
      · have hlow : l.low < degrees.size := hsize ▸ hl.1.trans hl.2
        have hhigh : l.high < (degrees.modify l.low (· + 1)).size := by
          rw [Array.size_modify, hsize]
          exact hl.2
        have hsize' :
            ((degrees.modify l.low (· + 1)).modify l.high (· + 1)).size =
              n := by
          rw [Array.size_modify, Array.size_modify, hsize]
        rw [if_pos hwithin, adjust_of_lt hlow, ok_bind, adjust_of_lt hhigh,
          ok_bind, pure_eq_ok, ok_bind, List.filter_cons_of_pos hwithin]
        rcases ih hmore (count + 1) hsize'
          with ⟨degrees', heq, hsize'', hdegrees⟩
        refine ⟨degrees', ?_, hsize'', fun v hv => ?_⟩
        · rw [heq, List.length_cons, Nat.add_right_comm, Nat.add_assoc]
        · have hv' : v < (degrees.modify l.low (· + 1)).size := by
            rw [Array.size_modify, hsize]
            exact hv
          rw [hdegrees v hv, getD_modify_share _ _ _ _ hv',
            getD_modify_share _ _ _ _ (hsize ▸ hv), degreeIn_cons hl.1.ne]
          omega
      · rw [if_neg hwithin, pure_eq_ok, ok_bind,
          List.filter_cons_of_neg hwithin]
        exact ih hmore count hsize

theorem moreCentral_eq
    {degrees : Array Nat} {degree : Nat → Nat}
    (hsize : degrees.size = n)
    (hdegrees : ∀ v < n, degrees.getD v 0 = degree v)
    {a b : Nat}
    (ha : a < n)
    (hb : b < n) :
    moreCentral degrees a b = .ok (LinkAnalysis.moreCentral degree a b) ∧
      LinkAnalysis.moreCentral degree a b < n := by
  rw [moreCentral, fetch_of_lt (hsize ▸ ha) 0, ok_bind,
    fetch_of_lt (hsize ▸ hb) 0, ok_bind, hdegrees a ha, hdegrees b hb]
  refine ⟨rfl, ?_⟩
  unfold LinkAnalysis.moreCentral
  split_ifs <;> omega

theorem mostCentral_eq
    {degrees : Array Nat} {degree : Nat → Nat}
    (hsize : degrees.size = n)
    (hdegrees : ∀ v < n, degrees.getD v 0 = degree v)
    {members : List Nat}
    (hmembers : ∀ v ∈ members, v < n) :
    mostCentral degrees members =
        .ok (LinkAnalysis.mostCentral degree members) ∧
      ∀ v, LinkAnalysis.mostCentral degree members = some v → v < n := by
  cases members with
  | nil => exact ⟨rfl, fun v hv => nomatch hv⟩
  | cons a more =>
      have ha := hmembers a List.mem_cons_self
      have hstep : ∀ best < n, ∀ b ∈ more,
          moreCentral degrees best b =
            .ok (LinkAnalysis.moreCentral degree best b) ∧
          LinkAnalysis.moreCentral degree best b < n := fun best hbest b hb =>
        moreCentral_eq hsize hdegrees hbest
          (hmembers b (List.mem_cons_of_mem _ hb))
      have hfold := foldlM_eq_ok hstep a ha
      rw [mostCentral, require_of (hsize ▸ ha), ok_bind, hfold.1]
      exact ⟨rfl, fun v hv => Option.some.inj hv ▸ hfold.2⟩

end Summary

/-! ## Records -/

def groupRecord (net : Network) (position : Nat) (members : List Nat) :
    Strict (GroupRecord α) := do
  let summary : GroupSummary α ← summary net members
  let ids ← members.mapM (idOf net)
  let central ← summary.central.toList.mapM (idOf net)
  return {
    number := position + 1
    members := ids
    density := summary.density
    central := central.head? }

def groupRecords (net : Network) (groups : List (List Nat)) :
    Strict (List (GroupRecord α)) :=
  groups.zipIdx.mapM fun (members, position) => groupRecord net position members

variable {s : Snapshot}

theorem summary_eq
    {members : List Nat}
    (hmembers : ∀ v ∈ members, v < (Network.ofSnapshot s).size) :
    (summary (Network.ofSnapshot s) members : Strict (GroupSummary α)) =
        .ok ((Network.ofSnapshot s).summary members) ∧
      ∀ v, ((Network.ofSnapshot s).summary members : GroupSummary α).central =
          some v →
        v < (Network.ofSnapshot s).size := by
  have hlinks : ∀ l ∈ (Network.ofSnapshot s).links.toList,
      l.low < l.high ∧ l.high < (Network.ofSnapshot s).size := by
    intro l hl
    have hlink := Network.link_ofSnapshot s (Array.mem_toList_iff.mp hl)
    exact ⟨hlink.1, hlink.2.1⟩
  rcases mark_eq hmembers with ⟨marks, hmark, -, hmarks⟩
  rcases foldlM_tallyLink_eq hmarks _ hlinks 0
    (Array.size_replicate (n := (Network.ofSnapshot s).size) (v := 0)) with
    ⟨degrees, htally, hsize, hdegrees⟩
  have hdegrees' : ∀ v < (Network.ofSnapshot s).size, degrees.getD v 0 =
      degreeIn ((Network.ofSnapshot s).linksWithin members) v := by
    intro v hv
    rw [hdegrees v hv, getD_replicate_self]
    exact Nat.zero_add _
  have hcentral := mostCentral_eq hsize hdegrees' hmembers
  rw [summary, hmark, ok_bind, htally, ok_bind]
  simp only [hcentral.1, Nat.zero_add]
  exact ⟨rfl, hcentral.2⟩

theorem groupRecord_eq
    (position : Nat) {members : List Nat}
    (hmembers : ∀ v ∈ members, v < (Network.ofSnapshot s).size) :
    (groupRecord (Network.ofSnapshot s) position members : Strict
          (GroupRecord α)) =
      .ok ((Network.ofSnapshot s).groupRecord position members) := by
  have hsummary := summary_eq (α := α) hmembers
  have hcentral : ∀ v ∈ ((Network.ofSnapshot s).summary members : GroupSummary
          α).central.toList,
      v < (Network.ofSnapshot s).size :=
    fun v hv => hsummary.2 v (Option.mem_toList.mp hv)
  rw [groupRecord, hsummary.1, ok_bind, mapM_idOf hmembers, ok_bind,
    mapM_idOf hcentral]
  cases hc :
    ((Network.ofSnapshot s).summary members : GroupSummary α).central <;>
    simp [Network.groupRecord, hc]

theorem groupRecords_eq
    {groups : List (List Nat)}
    (hgroups : ∀ group ∈ groups, ∀ v ∈ group, v < (Network.ofSnapshot s).size) :
    (groupRecords (Network.ofSnapshot s) groups : Strict
          (List (GroupRecord α))) =
      .ok ((Network.ofSnapshot s).groupRecords groups) :=
  mapM_eq_ok fun entry hentry =>
    groupRecord_eq entry.2 (hgroups entry.1 (List.fst_mem_of_mem_zipIdx hentry))

end Strict

end LinkAnalysis
