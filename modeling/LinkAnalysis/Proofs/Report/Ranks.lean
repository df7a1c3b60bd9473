import LinkAnalysis.Proofs.Centrality.Broker
import LinkAnalysis.Proofs.Text.ByteOrder
import LinkAnalysis.Centrality.Ranking
import Mathlib

/-!
# Ranks as in a competition

An entry of a ranking either opens a rank, which is then its place, or shares
the rank of the entry in front of it.  So ranks never fall, two entries share a
rank if no entry from the one to the other opens one, and as many entries have a
smaller rank as stand in front of the entry that opened it.  In a descending
list of exact scores an entry shares a rank if its score is close to the one in
front.
-/

namespace LinkAnalysis

/-! ## Opening and sharing ranks -/

theorem countP_lt_range {m n : Nat} (hle : m ≤ n) :
    (List.range n).countP (fun k => decide (k < m)) = m := by
  obtain ⟨rest, rfl⟩ := Nat.exists_eq_add_of_le hle
  have hfront : (List.range m).countP (fun k => decide (k < m)) = m := by
    rw [List.countP_eq_length.mpr (by simp), List.length_range]
  have hrest :
      ((List.range rest).map (m + ·)).countP (fun k => decide (k < m)) = 0 :=
    List.countP_eq_zero.mpr (by simp)
  rw [List.range_add, List.countP_append, hfront, hrest, Nat.add_zero]

/-- The ranks of `n` entries in a row, where some entries open a rank after the
one in front of them and all others share its rank. -/
structure CompetitionRanks (opens : Nat → Prop) (rank : Nat → Nat)
    (n : Nat) : Prop where
  first : 0 < n → rank 0 = 1
  opened : ∀ i, i + 1 < n → opens i → rank (i + 1) = i + 2
  shared : ∀ i, i + 1 < n → ¬ opens i → rank (i + 1) = rank i

namespace CompetitionRanks

variable {opens : Nat → Prop} {rank : Nat → Nat} {n i j : Nat}
variable (hranked : CompetitionRanks opens rank n)

include hranked

theorem le_succ (hi : i < n) : rank i ≤ i + 1 := by
  induction i with
  | zero => exact (hranked.first hi).le
  | succ i ih =>
      by_cases hopens : opens i
      · exact (hranked.opened i hi hopens).le
      · rw [hranked.shared i hi hopens]
        exact (ih (by omega)).trans (by omega)

theorem le_rank_succ (hi : i + 1 < n) : rank i ≤ rank (i + 1) := by
  by_cases hopens : opens i
  · rw [hranked.opened i hi hopens]
    exact (hranked.le_succ (by omega)).trans (by omega)
  · exact (hranked.shared i hi hopens).ge

theorem mono (hij : i ≤ j) (hj : j < n) : rank i ≤ rank j := by
  induction j, hij using Nat.le_induction with
  | base => exact le_rfl
  | succ j _ ih => exact (ih (by omega)).trans (hranked.le_rank_succ hj)

theorem one_le (hi : i < n) : 1 ≤ rank i :=
  (hranked.first (by omega)).ge.trans (hranked.mono (Nat.zero_le i) hi)

theorem rank_pred_rank (hi : i < n) : rank (rank i - 1) = rank i := by
  induction i with
  | zero => rw [hranked.first hi, hranked.first hi]
  | succ i ih =>
      by_cases hopens : opens i
      · rw [hranked.opened i hi hopens]
        exact hranked.opened i hi hopens
      · rw [hranked.shared i hi hopens]
        exact ih (by omega)

/-- An entry has a smaller rank if it stands before the one that opened the
rank, and only then. -/
theorem rank_lt_iff
    (hi : i < n)
    (hj : j < n) :
    rank j < rank i ↔ j + 1 < rank i := by
  refine ⟨fun hlt => not_le.mp fun hle => ?_, (hranked.le_succ hj).trans_lt⟩
  have hback := hranked.mono (i := rank i - 1) (j := j) (by omega) hj
  rw [hranked.rank_pred_rank hi] at hback
  exact hlt.not_ge hback

theorem rank_eq_iff
    (hij : i ≤ j)
    (hj : j < n) :
    rank i = rank j ↔ ∀ k, i ≤ k → k < j → ¬ opens k := by
  induction j, hij using Nat.le_induction with
  | base => exact iff_of_true rfl fun k hik hki => absurd hki hik.not_gt
  | succ j hij ih =>
      by_cases hopens : opens j
      · have hle := hranked.le_succ (i := i) (by omega)
        rw [hranked.opened j hj hopens]
        exact iff_of_false (by omega) fun hnone =>
          hnone j hij j.lt_succ_self hopens
      · rw [hranked.shared j hj hopens, ih (by omega)]
        refine ⟨fun hnone k hik hkj => ?_,
          fun hnone k hik hkj => hnone k hik (by omega)⟩
        rcases Nat.lt_succ_iff_lt_or_eq.mp hkj with hlt | rfl
        · exact hnone k hik hlt
        · exact hopens

/-- As many entries have a smaller rank as stand in front of the one that opened
the rank. -/
theorem rank_eq_countP (hi : i < n) :
    rank i = 1 + (List.range n).countP fun k => decide (rank k < rank i) := by
  have hle := hranked.le_succ hi
  have hone := hranked.one_le hi
  have hfront : (List.range n).countP (fun k => decide (rank k < rank i)) =
      (List.range n).countP fun k => decide (k < rank i - 1) := by
    apply List.countP_congr
    intro k hk
    rw [decide_eq_true_iff, decide_eq_true_iff,
      hranked.rank_lt_iff hi (List.mem_range.mp hk)]
    omega
  rw [hfront, countP_lt_range (by omega)]
  omega

end CompetitionRanks

/-! ## Ranks of scores -/

section Scores

variable {α : Type} [Score α]

theorem length_ranksFrom
    (position : Nat) (previous : Option α) (current : Nat) (scores : List α) :
    (ranksFrom position previous current scores).length = scores.length := by
  induction scores generalizing position previous current with
  | nil => rfl
  | cons score more ih => exact congrArg Nat.succ (ih _ _ _)

theorem map_fst_rankedNodes (scores : Array α) :
    (rankedNodes scores).map Prod.fst = ranked scores := by
  apply List.map_fst_zip
  rw [competitionRanks, length_ranksFrom, List.length_map]

theorem map_snd_rankedNodes (scores : Array α) :
    (rankedNodes scores).map Prod.snd =
      competitionRanks ((ranked scores).map Prod.snd) := by
  apply List.map_snd_zip
  rw [competitionRanks, length_ranksFrom, List.length_map]

theorem getElem?_ranksFrom_succ
    (position : Nat) (previous : Option α) (current : Nat) {scores : List α}
    {i rank : Nat} {a b : α}
    (ha : scores[i]? = some a)
    (hb : scores[i + 1]? = some b)
    (hrank : (ranksFrom position previous current scores)[i]? = some rank) :
    (ranksFrom position previous current scores)[i + 1]? =
      some (if opensRank (some a) b then position + i + 2 else rank) := by
  induction scores generalizing position previous current i with
  | nil => simp at ha
  | cons score more ih =>
      simp only [ranksFrom, List.getElem?_cons_succ] at hrank ⊢
      cases i with
      | zero =>
          obtain rfl : score = a := by simpa using ha
          cases more with
          | nil => simp at hb
          | cons next more =>
              obtain rfl : next = b := by simpa using hb
              simp only [List.getElem?_cons_zero, Option.some_inj] at hrank
              simp [ranksFrom, hrank]
      | succ i =>
          rw [List.getElem?_cons_succ] at ha hb hrank
          rw [ih _ _ _ ha hb hrank]
          simp only [Nat.add_right_comm, Nat.add_assoc]

/-- The score behind this place opens a rank. -/
def OpensAfter (scores : List α) (i : Nat) : Prop :=
  ∃ hlt : i + 1 < scores.length, opensRank (some scores[i]) scores[i + 1] = true

theorem getD_competitionRanks_succ
    {scores : List α} {i : Nat}
    (hi : i + 1 < scores.length) :
    (competitionRanks scores).getD (i + 1) 0 =
      if opensRank (some scores[i]) scores[i + 1] then i + 2
      else (competitionRanks scores).getD i 0 := by
  have hlength : (competitionRanks scores).length = scores.length :=
    length_ranksFrom _ _ _ _
  have hrank : (competitionRanks scores)[i]? =
      some ((competitionRanks scores).getD i 0) := by
    rw [List.getD_eq_getElem _ _ (by omega), List.getElem?_eq_getElem]
  have hnext :=
    getElem?_ranksFrom_succ 0 none 0 (List.getElem?_eq_getElem
      (Nat.lt_of_succ_lt hi)) (List.getElem?_eq_getElem hi) hrank
  rw [Nat.zero_add] at hnext
  rw [List.getD_eq_getElem?_getD, competitionRanks, hnext, Option.getD_some,
    competitionRanks]

theorem competitionRanks_ranks (scores : List α) :
    CompetitionRanks (OpensAfter scores)
      (fun i => (competitionRanks scores).getD i 0) scores.length where
  first hpos := by
    cases scores with
    | nil => simp at hpos
    | cons score more => rfl
  opened i hi hopens := by
    obtain ⟨_, hopens⟩ := hopens
    rw [getD_competitionRanks_succ hi, if_pos hopens]
  shared i hi hopens := by
    rw [getD_competitionRanks_succ hi, if_neg fun hopen => hopens ⟨hi, hopen⟩]

/-- The last three scores share a rank, though the second and the fourth are not
close. -/
example : competitionRanks ([1, 15 / 10 ^ 13, 7 / 10 ^ 13, 0] : List ℚ) =
  [1, 2, 2, 2] := by
  decide +kernel

end Scores

/-! ## Rankings by exact scores -/

theorem opensRank_rat (a b : ℚ) :
    opensRank (some a) b = true ↔ 1 / 10 ^ 12 < |a - b| := by
  have hwidth : (rankWidth : ℚ) = 1 / 10 ^ 12 := by
    rw [rankWidth, Score.count_rat, Score.count_rat, tenTo]
    norm_num
  rw [opensRank, decide_eq_true_iff, hwidth, Score.distance_rat]

/-- Entries in descending order of their scores, equal scores in the order of
their ids, ranked as in a competition where scores share a rank if they are
close to one another. -/
structure IsRanking {β : Type} (score : β → ℚ) (id : β → String)
    (rank : β → Nat) (entries : List β) : Prop where
  descending : entries.Pairwise fun x y =>
    score y < score x ∨ score y = score x ∧ utf8Bytes (id x) < utf8Bytes (id y)
  rank_first : ∀ x ∈ entries.head?, rank x = 1
  rank_ascending : entries.Pairwise fun x y => rank x ≤ rank y
  rank_eq : ∀ x ∈ entries, rank x = 1 + entries.countP fun y =>
    decide (rank y < rank x)
  /-- Entries share a rank if the scores from the one to the other follow each
  other closely. -/
  rank_eq_iff : ∀ (i j : Nat) (_ : i ≤ j) (_ : j < entries.length),
    rank entries[i] = rank entries[j] ↔ ∀ (k : Nat) (_ : i ≤ k) (_ : k < j),
      |score entries[k] - score entries[k + 1]| ≤ 1 / 10 ^ 12
  rank_eq_of_close : ∀ x ∈ entries,
    ∀ y ∈ entries, |score x - score y| ≤ 1 / 10 ^ 12 → rank x = rank y

theorem map_getD_range
    {γ : Type} (l : List γ) (default : γ) :
    ((List.range l.length).map fun k => l.getD k default) = l := by
  apply List.ext_getElem (by simp)
  intro k _ hk
  simp [hk]

section Ranking

variable {β : Type}
  {score : β → ℚ} {id : β → String} {rank : β → Nat} {entries : List β}

theorem competitionRanks_of_map_eq
    (hrank : entries.map rank = competitionRanks (entries.map score)) :
    CompetitionRanks (fun i => ∃ hlt : i + 1 < entries.length,
      1 / 10 ^ 12 < |score entries[i] - score entries[i + 1]|)
      (fun i => (entries.map rank).getD i 0) entries.length := by
  have hopens : OpensAfter (entries.map score) =
      fun i => ∃ hlt : i + 1 < entries.length,
        1 / 10 ^ 12 < |score entries[i] - score entries[i + 1]| := by
    funext i
    simp only [OpensAfter, opensRank_rat, List.length_map, List.getElem_map]
  have hranks := competitionRanks_ranks (entries.map score)
  rwa [hopens, List.length_map, ← hrank] at hranks

theorem getD_map_rank {i : Nat} (hi : i < entries.length) :
    (entries.map rank).getD i 0 = rank entries[i] := by
  rw [List.getD_eq_getElem _ _ (by rwa [List.length_map]), List.getElem_map]

/-- In a descending list, scores between two close ones follow each other
closely. -/
theorem abs_sub_succ_le
    (hdescending : entries.Pairwise fun x y => score y ≤ score x)
    {width : ℚ} {i j k : Nat}
    (hj : j < entries.length)
    (hik : i ≤ k)
    (hkj : k < j)
    (hclose : |score entries[i] - score entries[j]| ≤ width) :
    |score entries[k] - score entries[k + 1]| ≤ width := by
  have hle : ∀ (l m : Nat) (_ : l ≤ m) (_ : m < entries.length),
      score entries[m] ≤ score entries[l] := by
    intro l m hlm hm
    rcases Nat.eq_or_lt_of_le hlm with rfl | hlt
    · exact le_rfl
    · exact List.pairwise_iff_getElem.mp hdescending l m (hlt.trans hm) hm hlt
  have hfirst := hle i k hik (hkj.trans hj)
  have hlast := hle (k + 1) j hkj hj
  have hstep := hle k (k + 1) k.le_succ (by omega)
  rw [abs_of_nonneg (sub_nonneg.mpr hstep)]
  calc score entries[k] - score entries[k + 1]
      ≤ score entries[i] - score entries[j] := sub_le_sub hfirst hlast
    _ ≤ |score entries[i] - score entries[j]| := le_abs_self _
    _ ≤ width := hclose

theorem isRanking_of_map_eq
    (hrank : entries.map rank = competitionRanks (entries.map score))
    (hdescending : entries.Pairwise fun x y =>
      score y < score x ∨
        score y = score x ∧ utf8Bytes (id x) < utf8Bytes (id y)) :
    IsRanking score id rank entries := by
  have hranks := competitionRanks_of_map_eq hrank
  have hget : ∀ {i : Nat} (hi : i < entries.length),
      (entries.map rank).getD i 0 = rank entries[i] := getD_map_rank
  have hle : entries.Pairwise fun x y => score y ≤ score x :=
    hdescending.imp fun heither => heither.elim le_of_lt fun heq => heq.1.le
  have hshare : ∀ (i j : Nat) (_ : i ≤ j) (_ : j < entries.length),
      rank entries[i] = rank entries[j] ↔ ∀ (k : Nat) (_ : i ≤ k) (_ : k < j),
        |score entries[k] - score entries[k + 1]| ≤ 1 / 10 ^ 12 := by
    intro i j hij hj
    rw [← hget (by omega), ← hget hj, hranks.rank_eq_iff hij hj]
    refine forall_congr' fun k => forall_congr' fun _ =>
      forall_congr' fun hkj => ?_
    rw [not_exists]
    exact ⟨fun hnoise => not_lt.mp (hnoise (by omega)),
      fun hbound _ => not_lt.mpr hbound⟩
  refine
    { descending := hdescending
      rank_first := fun x hx => ?_
      rank_ascending := ?_
      rank_eq := fun x hx => ?_
      rank_eq_iff := hshare
      rank_eq_of_close := fun x hx y hy hclose => ?_ }
  · obtain ⟨more, rfl⟩ := List.head?_eq_some_iff.mp hx
    exact hranks.first (List.length_pos_of_mem List.mem_cons_self)
  · rw [List.pairwise_iff_getElem]
    intro i j hi hj hij
    rw [← hget hi, ← hget hj]
    exact hranks.mono hij.le hj
  · obtain ⟨i, hi, rfl⟩ := List.getElem_of_mem hx
    have hentries := map_getD_range (entries.map rank) 0
    rw [List.length_map] at hentries
    calc rank entries[i]
        = 1 + (List.range entries.length).countP fun k =>
            decide ((entries.map rank).getD k 0 < rank entries[i]) := by
          rw [← hget hi]
          exact hranks.rank_eq_countP hi
      _ = 1 + (entries.map rank).countP fun r =>
            decide (r < rank entries[i]) := by
          conv_rhs => rw [← hentries, List.countP_map]
          rfl
      _ = 1 + entries.countP fun y => decide (rank y < rank entries[i]) := by
          rw [List.countP_map]
          rfl
  · obtain ⟨i, hi, rfl⟩ := List.getElem_of_mem hx
    obtain ⟨j, hj, rfl⟩ := List.getElem_of_mem hy
    rcases Nat.le_total i j with hij | hji
    · exact (hshare i j hij hj).mpr fun k hik hkj =>
        abs_sub_succ_le hle hj hik hkj hclose
    · rw [abs_sub_comm] at hclose
      exact ((hshare j i hji hi).mpr fun k hik hkj =>
        abs_sub_succ_le hle hi hik hkj hclose).symm

end Ranking

end LinkAnalysis
