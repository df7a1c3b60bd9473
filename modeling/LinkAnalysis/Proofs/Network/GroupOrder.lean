import LinkAnalysis.Network.Components
import Mathlib.Tactic

/-!
# The order of groups

Groups are sorted by size, larger ones first, and groups of one size by their
first members.  Where groups are ascending and have no member in common, the
first members are the smallest ones and no two of them are equal.  The order is
strict then, and only one arrangement of the groups is in order.
-/

namespace LinkAnalysis

/-! ## Comparing groups -/

theorem groupLe_iff {x y : List Nat} :
    groupLe x y = true ↔ y.length < x.length ∨
      x.length = y.length ∧ ∀ a ∈ x.head?, ∃ b ∈ y.head?, a ≤ b := by
  unfold groupLe
  cases x with
  | nil => simp
  | cons a x => cases y <;> simp

theorem groupLe_trans
    {x y z : List Nat}
    (hxy : groupLe x y = true)
    (hyz : groupLe y z = true) :
    groupLe x z = true := by
  rw [groupLe_iff] at *
  rcases hxy with hxy | ⟨hxy, hhead⟩
  · rcases hyz with hyz | ⟨hyz, -⟩
    · exact Or.inl (hyz.trans hxy)
    · exact Or.inl (hyz ▸ hxy)
  · rcases hyz with hyz | ⟨hyz, hhead'⟩
    · exact Or.inl (hxy ▸ hyz)
    · refine Or.inr ⟨hxy.trans hyz, fun a ha => ?_⟩
      obtain ⟨b, hb, hab⟩ := hhead a ha
      obtain ⟨c, hc, hbc⟩ := hhead' b hb
      exact ⟨c, hc, hab.trans hbc⟩

theorem groupLe_total (x y : List Nat) :
    (groupLe x y || groupLe y x) = true := by
  rw [Bool.or_eq_true, groupLe_iff, groupLe_iff]
  rcases Nat.lt_trichotomy x.length y.length with hlt | heq | hlt
  · exact Or.inr (Or.inl hlt)
  · cases x with
    | nil => exact Or.inl (Or.inr ⟨heq, by simp⟩)
    | cons a x =>
        cases y with
        | nil => simp at heq
        | cons b y =>
            rcases Nat.le_total a b with hab | hab
            · exact Or.inl (Or.inr ⟨heq, by simpa using hab⟩)
            · exact Or.inr (Or.inr ⟨heq.symm, by simpa using hab⟩)
  · exact Or.inl (Or.inl hlt)

theorem sortGroups_pairwise (groups : List (List Nat)) :
    (sortGroups groups).Pairwise fun x y => groupLe x y = true :=
  @List.pairwise_mergeSort _ groupLe
    (fun _ _ _ => groupLe_trans) groupLe_total groups

theorem sortGroups_perm (groups : List (List Nat)) :
    (sortGroups groups).Perm groups :=
  List.mergeSort_perm _ _

theorem head_le_of_ascending
    {x : List Nat}
    (hx : x.Pairwise (· < ·))
    {v w : Nat}
    (hv : x.head? = some v)
    (hw : w ∈ x) :
    v ≤ w := by
  cases x with
  | nil => simp at hw
  | cons u more =>
      obtain rfl := Option.some_inj.mp hv
      rcases List.mem_cons.mp hw with rfl | hmore
      · exact le_rfl
      · exact ((List.pairwise_cons.mp hx).1 w hmore).le

/-! ## Groups without common members -/

section Strict

variable {x y : List Nat}

/-- The smallest member of the first group is smaller than all members of the
second. -/
def StartsBefore (x y : List Nat) : Prop :=
  ∃ v ∈ x, (∀ w ∈ x, v ≤ w) ∧ ∀ w ∈ y, v < w

/-- A group stands before one that is smaller, or as large with a greater
smallest member. -/
def StandsBefore (x y : List Nat) : Prop :=
  y.length < x.length ∨ x.length = y.length ∧ StartsBefore x y

theorem StartsBefore.not_startsBefore (hbefore : StartsBefore x y) :
    ¬ StartsBefore y x := by
  obtain ⟨v, hv, -, hlt⟩ := hbefore
  rintro ⟨w, hw, -, hlt'⟩
  exact (hlt w hw).asymm (hlt' v hv)

theorem StandsBefore.not_standsBefore (hbefore : StandsBefore x y) :
    ¬ StandsBefore y x := by
  intro hback
  rcases hbefore with hlt | ⟨heq, hstarts⟩
  · rcases hback with hlt' | ⟨heq, -⟩
    · exact hlt.asymm hlt'
    · exact hlt.ne heq
  · rcases hback with hlt | ⟨-, hstarts'⟩
    · exact hlt.ne heq
    · exact hstarts.not_startsBefore hstarts'

/-- Groups that have members, each in ascending order, and none in common. -/
structure SeparateGroups (groups : List (List Nat)) : Prop where
  ne_nil : ∀ x ∈ groups, x ≠ []
  ascending : ∀ x ∈ groups, x.Pairwise (· < ·)
  disjoint : groups.Pairwise List.Disjoint

theorem standsBefore_of_groupLe
    (hx : x.Pairwise (· < ·))
    (hy : y.Pairwise (· < ·))
    (hne : x ≠ [])
    (hdisjoint : x.Disjoint y)
    (hle : groupLe x y = true) :
    StandsBefore x y := by
  refine (groupLe_iff.mp hle).imp_right fun ⟨hlength, hhead⟩ => ⟨hlength, ?_⟩
  obtain ⟨a, ha⟩ := Option.isSome_iff_exists.mp (List.isSome_head?.mpr hne)
  obtain ⟨b, hb, hab⟩ := hhead a ha
  have hmem : a ∈ x := List.mem_of_head? ha
  have hlt : a < b :=
    lt_of_le_of_ne hab fun heq => hdisjoint hmem (heq ▸ List.mem_of_head? hb)
  exact ⟨a, hmem, fun w hw => head_le_of_ascending hx ha hw,
    fun w hw => hlt.trans_le (head_le_of_ascending hy hb hw)⟩

namespace SeparateGroups

variable {groups : List (List Nat)} (hseparate : SeparateGroups groups)

include hseparate

theorem sortGroups_standsBefore :
    (sortGroups groups).Pairwise StandsBefore := by
  have hperm := sortGroups_perm groups
  have hdisjoint : (sortGroups groups).Pairwise List.Disjoint :=
    (hperm.pairwise_iff fun {_ _} hdisjoint =>
      hdisjoint.symm).mpr hseparate.disjoint
  refine ((sortGroups_pairwise groups).and hdisjoint).imp_of_mem
    fun {x y} hx hy hxy => ?_
  have hx := hperm.mem_iff.mp hx
  exact standsBefore_of_groupLe (hseparate.ascending x hx) (hseparate.ascending
    y (hperm.mem_iff.mp hy)) (hseparate.ne_nil x hx) hxy.2 hxy.1

/-- No other arrangement of the groups is in order. -/
theorem eq_sortGroups
    {arranged : List (List Nat)}
    (hperm : arranged.Perm groups)
    (hsorted : arranged.Pairwise StandsBefore) :
    arranged = sortGroups groups :=
  (hperm.trans (sortGroups_perm groups).symm).eq_of_pairwise
    (fun _ _ _ _ hxy hyx => absurd hyx hxy.not_standsBefore) hsorted
    hseparate.sortGroups_standsBefore

end SeparateGroups

end Strict

end LinkAnalysis
