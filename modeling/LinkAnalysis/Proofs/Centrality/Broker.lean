import LinkAnalysis.Centrality.Ranking
import LinkAnalysis.Proofs.Score.Scale

/-!
# Brokers in the ranking

Only what a threshold is below is ever sorted into the list of brokers, and a
threshold is below defined scores only.  So the comparison of scored items
orders the brokers completely, whatever else stands among the scores.  Where all
scores are defined the ranking is ordered by the same comparison, and the
brokers are its head.
-/

namespace LinkAnalysis

/-! ## Heads of descending lists -/

section Heads

variable {β : Type} {p q : β → Bool} {l : List β}

/-- If every element in front of one with a property has it too, those that have
it come first. -/
theorem filter_append_filter_not
    (hpairwise : l.Pairwise fun x y => p y = true → p x = true) :
    l.filter p ++ l.filter (fun x => !p x) = l := by
  induction l with
  | nil => rfl
  | cons x l ih =>
      obtain ⟨hx, hl⟩ := List.pairwise_cons.mp hpairwise
      by_cases hp : p x = true
      · rw [List.filter_cons_of_pos hp, List.filter_cons_of_neg (by simp [hp]),
          List.cons_append, ih hl]
      · have hnone : l.filter p = [] :=
          List.filter_eq_nil_iff.mpr fun y hy hpy => hp (hx y hy hpy)
        have hall : l.filter (fun x => !p x) = l :=
          List.filter_eq_self.mpr fun y hy => by
            simpa using fun hpy => hp (hx y hy hpy)
        rw [List.filter_cons_of_neg hp,
          List.filter_cons_of_pos (by simpa using hp), hnone, hall,
          List.nil_append]

theorem filter_prefix_filter
    (hpairwise : l.Pairwise fun x y => q y = true → q x = true)
    (hqp : ∀ x, q x = true → p x = true) :
    l.filter q <+: l.filter p := by
  have hboth : (l.filter p).filter q = l.filter q := by
    rw [List.filter_filter]
    exact List.filter_congr fun x _ => by
      by_cases hq : q x = true <;> simp [hq, hqp x]
  exact ⟨_, hboth ▸ filter_append_filter_not (hpairwise.filter p)⟩

theorem mergeSort_congr
    {le le' : β → β → Bool}
    (hagree : ∀ x ∈ l, ∀ y ∈ l, le x y = le' x y) :
    l.mergeSort le = l.mergeSort le' := by
  simpa using List.map_mergeSort (f := id) hagree

end Heads

/-! ## Scored items -/

section Items

variable {α : Type} (scores : Array α)

/-- The scores with the numbers of their nodes. -/
def scoredItems : List (Nat × α) :=
  scores.toList.zipIdx.map fun (score, v) => (v, score)

variable {scores}

theorem mem_scoredItems_iff {v : Nat} {x : α} :
    (v, x) ∈ scoredItems scores ↔ scores[v]? = some x := by
  simp [scoredItems, List.mem_zipIdx_iff_getElem?]

theorem map_fst_scoredItems :
    (scoredItems scores).map Prod.fst = List.range scores.size := by
  have hsnd :
      (scoredItems scores).map Prod.fst = scores.toList.zipIdx.map Prod.snd :=
    List.map_map
  rw [hsnd, List.zipIdx_map_snd, Array.length_toList, List.range_eq_range']

theorem scoredItems_nodup : ((scoredItems scores).map Prod.fst).Nodup := by
  rw [map_fst_scoredItems]
  exact List.nodup_range

variable {κ : Type} [LinearOrder κ]

/-- The order of scored items by their levels, which is complete. -/
def levelLe (level : α → WithBot κ) (x y : Nat × α) : Bool :=
  if level y.2 < level x.2 then true
  else if level x.2 < level y.2 then false else decide (x.1 ≤ y.1)

theorem levelLe_descending (level : α → WithBot κ) :
    Descending (fun x => level x.2) Prod.fst (levelLe level) :=
  descending_compare (fun x : Nat × α => level x.2) Prod.fst

end Items

/-! ## Brokers -/

section Brokers

variable {α κ : Type} [Score α] [LinearOrder κ] {level : α → WithBot κ}
  {scores : Array α} {threshold : α}

theorem mem_brokers_iff {v : Nat} {x : α} :
    (v, x) ∈ brokers scores threshold ↔
      scores[v]? = some x ∧ threshold < x := by
  rw [brokers, List.mem_mergeSort, List.mem_filter, decide_eq_true_iff,
    ← mem_scoredItems_iff]
  rfl

theorem map_fst_brokers_nodup :
    ((brokers scores threshold).map Prod.fst).Nodup := by
  have hperm := List.mergeSort_perm
    ((scoredItems scores).filter fun p => decide (threshold < p.2)) rankedLe
  exact (hperm.map Prod.fst).nodup_iff.mpr
    (scoredItems_nodup.sublist (List.filter_sublist.map _))

theorem rankedLe_eq_levelLe
    (hscale : Scale level)
    {x y : Nat × α}
    (hx : level x.2 ≠ ⊥)
    (hy : level y.2 ≠ ⊥) :
    rankedLe x y = levelLe level x y := by
  simp only [rankedLe, levelLe, hscale.lt_iff hx, hscale.lt_iff hy]

theorem mergeSort_rankedLe_eq
    (hscale : Scale level)
    {items : List (Nat × α)}
    (hdefined : ∀ x ∈ items, level x.2 ≠ ⊥) :
    items.mergeSort rankedLe = items.mergeSort (levelLe level) :=
  mergeSort_congr fun x hx y hy =>
    rankedLe_eq_levelLe hscale (hdefined x hx) (hdefined y hy)

theorem brokers_pairwise_levelLe (hscale : Scale level) :
    (brokers scores threshold).Pairwise fun x y =>
      levelLe level x y = true := by
  rw [brokers, mergeSort_rankedLe_eq hscale fun x hx => hscale.ne_bot_of_lt
    (of_decide_eq_true (List.mem_filter.mp hx).2)]
  exact (levelLe_descending level).pairwise_mergeSort _

/-- Brokers come in descending order, and those that share a level in the order
of their numbers. -/
theorem brokers_pairwise (hscale : Scale level) :
    (brokers scores threshold).Pairwise fun x y =>
      y.2 < x.2 ∨ level y.2 = level x.2 ∧ x.1 < y.1 := by
  have hdistinct : (brokers scores threshold).Pairwise fun x y => x.1 ≠ y.1 :=
    List.pairwise_map.mp map_fst_brokers_nodup
  refine ((brokers_pairwise_levelLe hscale).and hdistinct).imp_of_mem
    fun {x y} hx hy hxy => ?_
  obtain ⟨hle, hne⟩ := hxy
  have hy' : level y.2 ≠ ⊥ := hscale.ne_bot_of_lt (mem_brokers_iff.mp hy).2
  rw [hscale.lt_iff hy']
  exact ((levelLe_descending level x y).mp hle).imp_right fun ⟨hlevel, hle⟩ =>
    ⟨hlevel, lt_of_le_of_ne hle hne⟩

/-! ## The head of the ranking -/

theorem ranked_pairwise
    (hscale : Scale level)
    (hdefined : ∀ x ∈ scores, level x ≠ ⊥) :
    (ranked scores).Pairwise fun x y => levelLe level x y = true := by
  have hitems : ∀ x ∈ scoredItems scores, level x.2 ≠ ⊥ := fun x hx =>
    hdefined x.2 (Array.mem_of_getElem? (mem_scoredItems_iff.mp hx))
  rw [ranked, ← scoredItems, mergeSort_rankedLe_eq hscale hitems]
  exact (levelLe_descending level).pairwise_mergeSort _

/-- Where all scores are defined, to select and then sort is to sort and then
select: two items that neither precedes the other have one number, and so they
are one item. -/
theorem brokers_eq_filter_ranked
    (hscale : Scale level)
    (hdefined : ∀ x ∈ scores, level x ≠ ⊥) :
    brokers scores threshold =
      (ranked scores).filter fun x => decide (threshold < x.2) := by
  have hperm : (brokers scores threshold).Perm
      ((ranked scores).filter fun x => decide (threshold < x.2)) :=
    (List.mergeSort_perm _ _).trans ((List.mergeSort_perm _ _).symm.filter _)
  refine hperm.eq_of_pairwise
    (fun x y hx hy hxy hyx => ?_) (brokers_pairwise_levelLe hscale)
    ((ranked_pairwise hscale hdefined).filter _)
  have hnumber := (levelLe_descending level).key_eq hxy hyx
  have hx' := (mem_brokers_iff.mp hx).1
  have hy' := (mem_brokers_iff.mp (hperm.mem_iff.mpr hy)).1
  exact Prod.ext hnumber (Option.some.inj (hx'.symm.trans (hnumber ▸ hy')))

theorem ranked_pairwise_above
    (hscale : Scale level)
    (hdefined : ∀ x ∈ scores, level x ≠ ⊥)
    (threshold : α) :
    (ranked scores).Pairwise fun x y =>
      decide (threshold < y.2) = true → decide (threshold < x.2) = true := by
  refine (ranked_pairwise hscale hdefined).imp fun {x y} hxy hy => ?_
  rw [decide_eq_true_iff] at hy ⊢
  have hle : level y.2 ≤ level x.2 :=
    ((levelLe_descending level x y).mp hxy).elim le_of_lt fun heq => heq.1.le
  exact (hscale threshold x.2).mpr ⟨((hscale threshold y.2).mp hy).1,
    (hscale.level_lt hy).trans_le hle⟩

end Brokers

end LinkAnalysis
