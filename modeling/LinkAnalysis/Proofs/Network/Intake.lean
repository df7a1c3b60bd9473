import LinkAnalysis.Network.Basic
import Mathlib.Data.List.Nodup
import Mathlib.Data.Nat.Count
import Mathlib.Data.String.Basic
import Mathlib.Data.Sym.Sym2
import Mathlib.Tactic

/-!
# Taking edges in

Edges are taken in one by one.  The invariant says what the links so far are and
into which class every edge so far was counted, in terms of the ids alone: the
numbers of nodes are used only to normalize and to compare pairs.
-/

namespace LinkAnalysis

/-! ## Numbering nodes -/

namespace Roster

theorem ofIds_concat (ids : List String) (id : String) :
    ofIds (ids ++ [id]) = (ofIds ids).enter id := by
  simp [ofIds]

theorem names_ofIds (ids : List String) :
    (ofIds ids).graph.names = ids.toArray := by
  induction ids using List.reverseRecOn with
  | nil => rfl
  | append_singleton ids id ih =>
      rw [ofIds_concat]
      simp [enter, PlainGraph.addNode, ih]

theorem edges_ofIds (ids : List String) : (ofIds ids).graph.edges = #[] := by
  induction ids using List.reverseRecOn with
  | nil => rfl
  | append_singleton ids id ih =>
      rw [ofIds_concat]
      exact ih

theorem numbers_ofIds (ids : List String) :
    (ofIds ids).numbers = ids.zipIdx.reverse := by
  induction ids using List.reverseRecOn with
  | nil => rfl
  | append_singleton ids id ih =>
      rw [ofIds_concat, List.zipIdx_append, List.reverse_append, ← ih]
      simp [enter, PlainGraph.addNode, PlainGraph.nodeCount, names_ofIds]

theorem lookup_numbers_ofIds
    {ids : List String}
    (hnodup : ids.Nodup)
    {id : String} {v : Nat} :
    (ofIds ids).numbers.lookup id = some v ↔ ids[v]? = some id := by
  induction ids using List.reverseRecOn with
  | nil => simp [ofIds]
  | append_singleton ids last ih =>
      obtain ⟨hnodup, -, hdisjoint⟩ := List.nodup_append.mp hnodup
      have hlast : last ∉ ids :=
        fun hmem => hdisjoint last hmem last (by simp) rfl
      have hnumbers : (ofIds (ids ++ [last])).numbers =
          (last, ids.length) :: (ofIds ids).numbers := by
        rw [numbers_ofIds, numbers_ofIds, List.zipIdx_append,
          List.reverse_append]
        simp
      rw [hnumbers, List.lookup_cons]
      by_cases hid : id = last
      · subst id
        simp only [beq_self_eq_true, Option.some.injEq]
        constructor
        · rintro rfl
          simp
        · intro hget
          obtain ⟨hlt, hget⟩ := List.getElem?_eq_some_iff.mp hget
          rw [List.length_append, List.length_singleton] at hlt
          by_contra hne
          rw [List.getElem_append_left (by omega)] at hget
          exact hlast (hget ▸ List.getElem_mem _)
      · have hbeq : (id == last) = false := by simpa using hid
        rw [hbeq, ih hnodup]
        by_cases hv : v < ids.length
        · rw [List.getElem?_append_left hv]
        · rw [List.getElem?_append_right (by omega),
            List.getElem?_eq_none (by omega)]
          by_cases hv' : v = ids.length
          · simp [hv', Ne.symm hid]
          · rw [List.getElem?_eq_none (by simp; omega)]

end Roster

/-! ## Classes of edges -/

namespace Edge

def joined (e : Edge) : Sym2 String := s(e.source, e.target)

def Known (ids : List String) (e : Edge) : Prop :=
  e.source ∈ ids ∧ e.target ∈ ids

/-- The edge joins two different ones of these ids. -/
def Proper (ids : List String) (e : Edge) : Prop :=
  e.Known ids ∧ e.source ≠ e.target

instance (ids : List String) (e : Edge) : Decidable (e.Known ids) :=
  inferInstanceAs (Decidable (_ ∧ _))

instance (ids : List String) (e : Edge) : Decidable (e.Proper ids) :=
  inferInstanceAs (Decidable (_ ∧ _))

end Edge

/-- The edge at a position joins two different ids that an earlier edge
joins. -/
def Repeats (ids : List String) (edges : List Edge) (position : Nat) : Prop :=
  ∃ e,
    edges[position]? = some e ∧
    e.Proper ids ∧
    ∃ earlier ∈ edges.take position, earlier.joined = e.joined

open scoped Classical in
noncomputable def repeatCount (ids : List String) (edges : List Edge) : Nat :=
  Nat.count (Repeats ids edges) edges.length

theorem repeats_concat_iff_of_lt
    {ids : List String} {edges : List Edge} {e : Edge} {position : Nat}
    (hlt : position < edges.length) :
    Repeats ids (edges ++ [e]) position ↔ Repeats ids edges position := by
  rw [Repeats, Repeats, List.getElem?_append_left hlt,
    List.take_append_of_le_length hlt.le]

theorem repeats_concat_length_iff
    {ids : List String} {edges : List Edge} {e : Edge} :
    Repeats ids (edges ++ [e]) edges.length ↔
      e.Proper ids ∧ ∃ earlier ∈ edges, earlier.joined = e.joined := by
  rw [Repeats, List.getElem?_concat_length, List.take_left]
  simp

open scoped Classical in
theorem repeatCount_concat
    (ids : List String) (edges : List Edge) (e : Edge) :
    repeatCount ids (edges ++ [e]) =
      repeatCount ids edges +
        if e.Proper ids ∧ ∃ earlier ∈ edges, earlier.joined = e.joined then 1
        else 0 := by
  rw [repeatCount, List.length_append, List.length_singleton, Nat.count_succ,
    repeatCount]
  refine congrArg₂ (· + ·) ?_ ?_
  · rw [Nat.count_eq_card_filter_range, Nat.count_eq_card_filter_range]
    refine congrArg Finset.card
      (Finset.filter_congr fun position hposition => ?_)
    exact repeats_concat_iff_of_lt (Finset.mem_range.mp hposition)
  · simp only [repeats_concat_length_iff]

/-! ## The invariant -/

/-- These edges have been taken in over these ids. -/
structure Taken (ids : List String) (edges : List Edge)
    (s : Intake) : Prop where
  low_lt_high : ∀ l ∈ s.links, l.low < l.high
  key_eq : ∀ l ∈ s.links, ∃ x y,
    ids[l.low]? = some x ∧ ids[l.high]? = some y ∧ l.key = x ++ "|" ++ y
  ends_nodup : (s.links.map Link.ends).Nodup
  exists_link_iff :
    ∀ {a b : Nat} {x y : String}, a < b → ids[a]? = some x → ids[b]? = some y →
      ((a, b) ∈ s.links.map Link.ends ↔ ∃ e ∈ edges, e.joined = s(x, y))
  dropped_eq : s.diagnostics.dropped = edges.countP fun e =>
    !decide (e.Known ids)
  selfLoops_eq : s.diagnostics.selfLoops =
    edges.countP fun e => decide (e.Known ids ∧ e.source = e.target)
  duplicates_eq : s.diagnostics.duplicates = repeatCount ids edges
  sum_eq : s.diagnostics.dropped + s.diagnostics.selfLoops +
      s.diagnostics.duplicates + s.links.length = edges.length

theorem taken_nil (ids : List String) : Taken ids [] ⟨[], ⟨0, 0, 0⟩⟩ := by
  refine ⟨by simp, by simp, by simp, ?_, rfl, rfl, ?_, rfl⟩
  · simp
  · simp [repeatCount]

/-- The numbers of ids are their positions. -/
def Numbers (ids : List String) (numbers : List (String × Nat)) : Prop :=
  ∀ id v, numbers.lookup id = some v ↔ ids[v]? = some id

theorem Numbers.lookup_eq_none_iff
    {ids : List String} {numbers : List (String × Nat)}
    (hnumbers : Numbers ids numbers)
    {id : String} :
    numbers.lookup id = none ↔ id ∉ ids := by
  rw [List.mem_iff_getElem?, Option.eq_none_iff_forall_ne_some, not_exists]
  exact forall_congr' fun v => not_congr (hnumbers id v)

section Positions

variable {ids : List String} {a b : Nat} {x y : String}

theorem lt_of_getElem?_lt
    (hids : ids.Pairwise (· < ·))
    (ha : ids[a]? = some x)
    (hb : ids[b]? = some y)
    (hab : a < b) :
    x < y := by
  obtain ⟨hltA, rfl⟩ := List.getElem?_eq_some_iff.mp ha
  obtain ⟨hltB, rfl⟩ := List.getElem?_eq_some_iff.mp hb
  exact List.pairwise_iff_getElem.mp hids a b hltA hltB hab

theorem eq_of_getElem?_eq
    (hids : ids.Pairwise (· < ·))
    (ha : ids[a]? = some x)
    (hb : ids[b]? = some x) :
    a = b := by
  rcases lt_trichotomy a b with hab | hab | hab
  · exact absurd (lt_of_getElem?_lt hids ha hb hab) (lt_irrefl x)
  · exact hab
  · exact absurd (lt_of_getElem?_lt hids hb ha hab) (lt_irrefl x)

theorem eq_of_sym2_eq
    (hids : ids.Pairwise (· < ·))
    {a' b' : Nat} {x' y' : String}
    (ha : ids[a]? = some x)
    (hb : ids[b]? = some y)
    (hab : a < b)
    (ha' : ids[a']? = some x')
    (hb' : ids[b']? = some y')
    (hab' : a' < b')
    (hends : s(x, y) = s(x', y')) :
    a = a' ∧ b = b' := by
  rcases Sym2.eq_iff.mp hends with ⟨rfl, rfl⟩ | ⟨rfl, rfl⟩
  · exact ⟨eq_of_getElem?_eq hids ha ha', eq_of_getElem?_eq hids hb hb'⟩
  · have hcross := eq_of_getElem?_eq hids ha hb'
    have hcross' := eq_of_getElem?_eq hids hb ha'
    omega

theorem exists_normalized
    (hids : ids.Pairwise (· < ·))
    {e : Edge}
    (ha : ids[a]? = some e.source)
    (hb : ids[b]? = some e.target)
    (hne : a ≠ b) :
    ∃ x y,
      ids[min a b]? = some x ∧
      ids[max a b]? = some y ∧
      e.joined = s(x, y) ∧
      linkKey e.source e.target = x ++ "|" ++ y := by
  rcases Nat.lt_or_gt_of_ne hne with hab | hab
  · have hlt := lt_of_getElem?_lt hids ha hb hab
    refine ⟨e.source, e.target, ?_, ?_, rfl, if_pos hlt.le⟩
    · rwa [Nat.min_eq_left hab.le]
    · rwa [Nat.max_eq_right hab.le]
  · have hlt := lt_of_getElem?_lt hids hb ha hab
    refine ⟨e.target, e.source, ?_, ?_, Sym2.eq_swap, if_neg (not_le.mpr hlt)⟩
    · rwa [Nat.min_eq_right hab.le]
    · rwa [Nat.max_eq_left hab.le]

theorem proper_of_joined_eq
    (hids : ids.Pairwise (· < ·))
    (ha : ids[a]? = some x)
    (hb : ids[b]? = some y)
    (hab : a < b)
    {e : Edge}
    (hjoined : e.joined = s(x, y)) :
    e.Proper ids := by
  have hx := List.mem_of_getElem? ha
  have hy := List.mem_of_getElem? hb
  have hne := (lt_of_getElem?_lt hids ha hb hab).ne
  rcases Sym2.eq_iff.mp hjoined with ⟨hs, ht⟩ | ⟨hs, ht⟩
  · exact ⟨⟨hs ▸ hx, ht ▸ hy⟩, by rwa [hs, ht]⟩
  · exact ⟨⟨hs ▸ hy, ht ▸ hx⟩, by rw [hs, ht]; exact hne.symm⟩

end Positions

namespace Taken

variable {ids : List String} {edges : List Edge} {s : Intake} {e : Edge}

theorem exists_link_iff_of_not_proper
    (hids : ids.Pairwise (· < ·))
    (htaken : Taken ids edges s)
    (he : ¬ e.Proper ids)
    {a b : Nat} {x y : String}
    (hab : a < b)
    (ha : ids[a]? = some x)
    (hb : ids[b]? = some y) :
    (a, b) ∈ s.links.map Link.ends ↔
      ∃ e' ∈ edges ++ [e], e'.joined = s(x, y) := by
  have hnot : e.joined ≠ s(x, y) :=
    fun heq => he (proper_of_joined_eq hids ha hb hab heq)
  rw [htaken.exists_link_iff hab ha hb]
  simp [or_and_right, exists_or, hnot]

theorem drop
    (hids : ids.Pairwise (· < ·))
    (htaken : Taken ids edges s)
    (he : ¬ e.Known ids) :
    Taken ids (edges ++ [e])
      { s with
        diagnostics :=
          { s.diagnostics with dropped := s.diagnostics.dropped + 1 } } := by
  have hproper : ¬ e.Proper ids := fun hproper => he hproper.1
  refine
    { htaken with
      exists_link_iff := fun hab ha hb =>
        htaken.exists_link_iff_of_not_proper hids hproper hab ha hb
      dropped_eq := ?_
      selfLoops_eq := ?_
      duplicates_eq := ?_
      sum_eq := ?_ }
  · simp [List.countP_append, htaken.dropped_eq, he]
  · simp [List.countP_append, htaken.selfLoops_eq, he]
  · simp [repeatCount_concat, htaken.duplicates_eq, hproper]
  · have := htaken.sum_eq
    simp only [List.length_append, List.length_singleton]
    omega

theorem loop
    (hids : ids.Pairwise (· < ·))
    (htaken : Taken ids edges s)
    (he : e.Known ids)
    (hloop : e.source = e.target) :
    Taken ids (edges ++ [e])
      { s with
        diagnostics :=
          { s.diagnostics with
            selfLoops := s.diagnostics.selfLoops + 1 } } := by
  have hproper : ¬ e.Proper ids := fun hproper => hproper.2 hloop
  refine
    { htaken with
      exists_link_iff := fun hab ha hb =>
        htaken.exists_link_iff_of_not_proper hids hproper hab ha hb
      dropped_eq := ?_
      selfLoops_eq := ?_
      duplicates_eq := ?_
      sum_eq := ?_ }
  · simp [List.countP_append, htaken.dropped_eq, he]
  · simp [List.countP_append, htaken.selfLoops_eq, he, hloop]
  · simp [repeatCount_concat, htaken.duplicates_eq, hproper]
  · have := htaken.sum_eq
    simp only [List.length_append, List.length_singleton]
    omega

theorem duplicate
    (htaken : Taken ids edges s)
    (he : e.Proper ids)
    (hearlier : ∃ earlier ∈ edges, earlier.joined = e.joined) :
    Taken ids (edges ++ [e])
      { s with
        diagnostics :=
          { s.diagnostics with
            duplicates := s.diagnostics.duplicates + 1 } } := by
  obtain ⟨earlier, hmem, hjoined⟩ := hearlier
  refine
    { htaken with
      exists_link_iff := fun hab ha hb => ?_
      dropped_eq := ?_
      selfLoops_eq := ?_
      duplicates_eq := ?_
      sum_eq := ?_ }
  · rw [htaken.exists_link_iff hab ha hb]
    constructor
    · rintro ⟨e', hmem', hjoined'⟩
      exact ⟨e', List.mem_append_left _ hmem', hjoined'⟩
    · rintro ⟨e', hmem', hjoined'⟩
      rcases List.mem_append.mp hmem' with hmem' | hmem'
      · exact ⟨e', hmem', hjoined'⟩
      · obtain rfl := List.mem_singleton.mp hmem'
        exact ⟨earlier, hmem, hjoined.trans hjoined'⟩
  · simp [List.countP_append, htaken.dropped_eq, he.1]
  · simp [List.countP_append, htaken.selfLoops_eq, he.2]
  · rw [repeatCount_concat, if_pos ⟨he, earlier, hmem, hjoined⟩,
      htaken.duplicates_eq]
  · have := htaken.sum_eq
    simp only [List.length_append, List.length_singleton]
    omega

theorem enter
    (hids : ids.Pairwise (· < ·))
    (htaken : Taken ids edges s)
    (he : e.Proper ids)
    (hnew : ¬ ∃ earlier ∈ edges, earlier.joined = e.joined)
    {a b : Nat} {x y : String}
    (hab : a < b)
    (ha : ids[a]? = some x)
    (hb : ids[b]? = some y)
    (hjoined : e.joined = s(x, y)) :
    Taken ids
      (edges ++ [e]) { s with links := ⟨a, b, x ++ "|" ++ y⟩ :: s.links } := by
  have hfresh : (a, b) ∉ s.links.map Link.ends := by
    rw [htaken.exists_link_iff hab ha hb, ← hjoined]
    exact hnew
  refine
    { low_lt_high := ?_
      key_eq := ?_
      ends_nodup := List.nodup_cons.mpr ⟨hfresh, htaken.ends_nodup⟩
      exists_link_iff := fun {a' b' x' y'} hab' ha' hb' => ?_
      dropped_eq := ?_
      selfLoops_eq := ?_
      duplicates_eq := ?_
      sum_eq := ?_ }
  · exact List.forall_mem_cons.mpr ⟨hab, htaken.low_lt_high⟩
  · exact List.forall_mem_cons.mpr ⟨⟨x, y, ha, hb, rfl⟩, htaken.key_eq⟩
  · rw [List.map_cons, List.mem_cons, htaken.exists_link_iff hab' ha' hb']
    constructor
    · rintro (heq | ⟨e', hmem, hjoined'⟩)
      · obtain ⟨rfl, rfl⟩ := Prod.mk.inj heq
        obtain rfl := Option.some.inj (ha.symm.trans ha')
        obtain rfl := Option.some.inj (hb.symm.trans hb')
        exact ⟨e, by simp, hjoined⟩
      · exact ⟨e', List.mem_append_left _ hmem, hjoined'⟩
    · rintro ⟨e', hmem, hjoined'⟩
      rcases List.mem_append.mp hmem with hmem | hmem
      · exact Or.inr ⟨e', hmem, hjoined'⟩
      · obtain rfl := List.mem_singleton.mp hmem
        obtain ⟨rfl, rfl⟩ := eq_of_sym2_eq hids ha hb hab ha' hb' hab'
          (hjoined.symm.trans hjoined')
        exact Or.inl rfl
  · simp [List.countP_append, htaken.dropped_eq, he.1]
  · simp [List.countP_append, htaken.selfLoops_eq, he.2]
  · rw [repeatCount_concat, if_neg fun hrepeat => hnew hrepeat.2,
      htaken.duplicates_eq]
    rfl
  · have := htaken.sum_eq
    simp only [List.length_append, List.length_cons, List.length_nil]
    omega

/-- Every edge is taken into its class. -/
theorem take
    (hids : ids.Pairwise (· < ·))
    {numbers : List (String × Nat)}
    (hnumbers : Numbers ids numbers)
    (htaken : Taken ids edges s) :
    Taken ids (edges ++ [e]) (s.take numbers e) := by
  unfold Intake.take
  cases hsource : numbers.lookup e.source with
  | none =>
      have hunknown := hnumbers.lookup_eq_none_iff.mp hsource
      exact htaken.drop hids fun hknown => hunknown hknown.1
  | some a =>
      cases htarget : numbers.lookup e.target with
      | none =>
          have hunknown := hnumbers.lookup_eq_none_iff.mp htarget
          exact htaken.drop hids fun hknown => hunknown hknown.2
      | some b =>
          have ha := (hnumbers _ _).mp hsource
          have hb := (hnumbers _ _).mp htarget
          have hknown : e.Known ids :=
            ⟨List.mem_of_getElem? ha, List.mem_of_getElem? hb⟩
          by_cases hab : a = b
          · simp only [if_pos hab]
            subst b
            exact htaken.loop hids hknown (Option.some.inj (ha.symm.trans hb))
          · have hproper : e.Proper ids :=
              ⟨hknown, fun heq => hab (eq_of_getElem?_eq hids ha (heq ▸ hb))⟩
            have hlt : min a b < max a b := by omega
            obtain ⟨x, y, hx, hy, hjoined, hkey⟩ :=
              exists_normalized hids ha hb hab
            have hany :
                (s.links.any fun l => l.low == min a b && l.high == max a b) =
                    true ↔
                  ∃ earlier ∈ edges, earlier.joined = e.joined := by
              rw [hjoined, ← htaken.exists_link_iff hlt hx hy]
              simp [Link.ends]
            simp only [if_neg hab]
            by_cases hearlier : ∃ earlier ∈ edges, earlier.joined = e.joined
            · rw [if_pos (hany.mpr hearlier)]
              exact htaken.duplicate hproper hearlier
            · rw [if_neg (mt hany.mp hearlier), hkey]
              exact htaken.enter hids hproper hearlier hlt hx hy hjoined

theorem foldl_take
    (hids : ids.Pairwise (· < ·))
    {numbers : List (String × Nat)}
    (hnumbers : Numbers ids numbers)
    (edges : List Edge) :
    Taken ids edges (edges.foldl (Intake.take numbers) ⟨[], ⟨0, 0, 0⟩⟩) := by
  induction edges using List.reverseRecOn with
  | nil => exact taken_nil ids
  | append_singleton edges e ih =>
      rw [List.foldl_concat]
      exact ih.take hids hnumbers

end Taken

end LinkAnalysis
