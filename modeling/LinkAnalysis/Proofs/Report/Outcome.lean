import LinkAnalysis.Analyzer.Bench
import LinkAnalysis.Proofs.Centrality.Composite
import LinkAnalysis.Proofs.Strict.Answer

/-!
# The outcome of an analysis

An analysis is refused in two cases: one of its ends is not known, or its token
is cancelled before it polls it.  Unknown ends are found out first.  Scores are
accumulated source by source, and the token is polled before every source; so
without nodes it is never polled.
-/

namespace LinkAnalysis

/-- The fault of a poll. -/
def Signal.refusal? : Signal → Option Fault
  | live => none
  | cancelled => some .cancelled

/-- The fault for which this query is refused, if it is refused. -/
def Query.refusal? (q : Query) (signal : Signal)
    (s : Snapshot) : Option Fault :=
  match q with
  | .statistics | .flows => none
  | .communities | .components => signal.refusal?
  | .betweenness | .brokers | .centrality =>
    if s.nodes = [] then none else signal.refusal?
  | .paths source target | .shortest source target =>
    if source ∉ s.nodes.map Node.id then some (.unknownNode source)
    else if target ∉ s.nodes.map Node.id then some (.unknownNode target)
    else signal.refusal?

/-! ## Polls before every source -/

section Sources

variable {α : Type} [Score α] {adj : Adjacency}

theorem betweenness_of_size_eq_zero
    (hsize : adj.size = 0)
    (signal : Signal) (m : Nat) :
    (betweenness signal adj m : Except Fault (Betweenness α)) =
      betweenness .live adj m := by
  rw [betweenness, betweenness, accumulate, accumulate, Adjacency.nodes, hsize]
  rfl

theorem betweenness_cancelled (hsize : adj.size ≠ 0) (m : Nat) :
    (betweenness .cancelled adj m : Except Fault (Betweenness α)) =
      .error .cancelled := by
  rcases Nat.exists_eq_succ_of_ne_zero hsize with ⟨n, hn⟩
  rw [betweenness, accumulate, Adjacency.nodes, hn, Nat.succ_eq_add_one,
    List.range_succ_eq_map]
  rfl

theorem exists_betweenness_live (adj : Adjacency) (m : Nat) :
    ∃ b : Betweenness α, betweenness .live adj m = .ok b := by
  rw [betweenness, accumulate_live_eq]
  exact ⟨_, rfl⟩

theorem centrality_of_size_eq_zero
    (hsize : adj.size = 0)
    (signal : Signal) (scores : Array α) (w : Weights α) :
    centrality signal adj scores w = centrality .live adj scores w := by
  rw [centrality, centrality, closeness, closeness, Adjacency.nodes, hsize]
  rfl

theorem exists_centrality_live
    (adj : Adjacency) (scores : Array α) (w : Weights α) :
    ∃ c : Centrality α, centrality .live adj scores w = .ok c :=
  ⟨_, centrality_live_eq adj scores w⟩

end Sources

/-! ## Known and unknown ends -/

namespace Network

variable {s : Snapshot} {source target : String}

theorem indexOf?_eq_none (hnotMem : source ∉ s.nodes.map Node.id) :
    (ofSnapshot s).indexOf? source = none := by
  rw [Option.eq_none_iff_forall_ne_some]
  intro v hv
  rcases indexOf?_ofSnapshot_iff.mp hv with ⟨hlt, hid⟩
  have hmem : (ofSnapshot s).idOf v ∈
      (List.range (ofSnapshot s).size).map (ofSnapshot s).idOf :=
    List.mem_map_of_mem (List.mem_range.mpr hlt)
  exact hnotMem (hid ▸ (map_idOf_range_perm s).mem_iff.mp hmem)

theorem endpoints_of_unknown_source (hnotMem : source ∉ s.nodes.map Node.id) :
    (ofSnapshot s).endpoints source target = .error (.unknownNode source) := by
  rw [endpoints, indexOf?_eq_none hnotMem]

theorem endpoints_of_unknown_target
    (hsource : source ∈ s.nodes.map Node.id)
    (htarget : target ∉ s.nodes.map Node.id) :
    (ofSnapshot s).endpoints source target = .error (.unknownNode target) := by
  rcases exists_idOf_eq hsource with ⟨v, hv⟩
  rw [endpoints, indexOf?_eq_none htarget,
    indexOf?_ofSnapshot_iff.mpr ⟨v.isLt, hv⟩]

theorem exists_endpoints_of_known
    (hsource : source ∈ s.nodes.map Node.id)
    (htarget : target ∈ s.nodes.map Node.id) :
    ∃ v w : Fin (ofSnapshot s).size,
      (ofSnapshot s).endpoints source target = .ok (v.val, w.val) := by
  rcases exists_idOf_eq hsource with ⟨v, hv⟩
  rcases exists_idOf_eq htarget with ⟨w, hw⟩
  rw [← hv, ← hw]
  exact ⟨v, w, endpoints_idOf v w⟩

theorem size_adjacency_eq_zero_iff :
    (ofSnapshot s).adjacency.size = 0 ↔ s.nodes = [] := by
  rw [size_adjacency_ofSnapshot, size_ofSnapshot, (sortedIds_perm s).length_eq,
    List.length_map, List.length_eq_zero_iff]

end Network

theorem exists_simplePaths_live
    {adj : Adjacency}
    (hclosed : adj.Closed)
    {source : Nat}
    (hsource : source < adj.size)
    (target : Nat) (limits : PathConfig) :
    ∃ e, simplePaths .live adj source target limits = .ok e := by
  by_cases heq : source = target
  · rw [simplePaths, if_pos (Or.inl heq)]
    exact ⟨_, rfl⟩
  · rcases simplePaths_live hclosed hsource heq limits with ⟨e, found, he, -⟩
    exact ⟨e, he⟩

/-! ## Outcomes -/

theorem Signal.eq_of_refusal?
    {signal : Signal} {fault : Fault}
    (hrefusal : signal.refusal? = some fault) :
    signal = .cancelled ∧ fault = .cancelled := by
  cases signal with
  | live => exact nomatch hrefusal
  | cancelled => exact ⟨rfl, (Option.some.inj hrefusal).symm⟩

namespace Query

variable {α : Type} [Score α] (config : Config α) {s : Snapshot}
  {signal : Signal}

theorem answer_of_endpoints_error
    {source target : String} {fault : Fault}
    (hends : (Network.ofSnapshot s).endpoints source target = .error fault) :
    (paths source target).answer config signal s = .error fault ∧
      (shortest source target).answer config signal s = .error fault := by
  simp only [answer, Analysis.paths, Analysis.shortest, hends]
  exact ⟨rfl, rfl⟩

theorem answer_of_refusal
    {q : Query} {fault : Fault}
    (hrefusal : q.refusal? signal s = some fault) :
    q.answer config signal s = .error fault := by
  have hscored : (if s.nodes = [] then none else signal.refusal?) = some fault →
      (Network.ofSnapshot s).adjacency.size ≠ 0 ∧ signal = .cancelled ∧
      fault = .cancelled := by
    intro hrefusal
    by_cases hnodes : s.nodes = []
    · rw [if_pos hnodes] at hrefusal
      exact absurd hrefusal.symm (Option.some_ne_none fault)
    · rw [if_neg hnodes] at hrefusal
      exact ⟨fun hsize => hnodes (Network.size_adjacency_eq_zero_iff.mp hsize),
        Signal.eq_of_refusal? hrefusal⟩
  have hends : ∀ source target : String,
      (if source ∉ s.nodes.map Node.id then some (Fault.unknownNode source)
        else if target ∉ s.nodes.map Node.id then some (.unknownNode target)
        else signal.refusal?) = some fault →
      (paths source target).answer config signal s = .error fault ∧
        (shortest source target).answer config signal s = .error fault := by
    intro source target hrefusal
    by_cases hsource : source ∉ s.nodes.map Node.id
    · rw [if_pos hsource] at hrefusal
      rw [← Option.some.inj hrefusal]
      exact answer_of_endpoints_error config
        (Network.endpoints_of_unknown_source hsource)
    · rw [if_neg hsource] at hrefusal
      by_cases htarget : target ∉ s.nodes.map Node.id
      · rw [if_pos htarget] at hrefusal
        rw [← Option.some.inj hrefusal]
        exact answer_of_endpoints_error config
          (Network.endpoints_of_unknown_target (not_not.mp hsource) htarget)
      · rw [if_neg htarget] at hrefusal
        rcases Signal.eq_of_refusal? hrefusal with ⟨rfl, rfl⟩
        rcases Network.exists_endpoints_of_known (not_not.mp hsource)
          (not_not.mp htarget) with ⟨v, w, heq⟩
        simp only [answer, Analysis.paths, Analysis.shortest, heq]
        exact ⟨rfl, rfl⟩
  cases q with
  | betweenness =>
      rcases hscored hrefusal with ⟨hsize, rfl, rfl⟩
      simp only [answer, Analysis.betweenness, betweenness_cancelled hsize]
      rfl
  | communities =>
      rcases Signal.eq_of_refusal? hrefusal with ⟨rfl, rfl⟩
      simp only [answer, Analysis.communities, detectCommunities_cancelled]
      rfl
  | brokers =>
      rcases hscored hrefusal with ⟨hsize, rfl, rfl⟩
      simp only [answer, Analysis.brokers, betweenness_cancelled hsize]
      rfl
  | paths source target => exact (hends source target hrefusal).1
  | shortest source target => exact (hends source target hrefusal).2
  | components =>
      rcases Signal.eq_of_refusal? hrefusal with ⟨rfl, rfl⟩
      rfl
  | statistics => exact absurd hrefusal.symm (Option.some_ne_none fault)
  | centrality =>
      rcases hscored hrefusal with ⟨hsize, rfl, rfl⟩
      simp only [answer, Analysis.centrality, betweenness_cancelled hsize]
      rfl
  | flows => exact absurd hrefusal.symm (Option.some_ne_none fault)

theorem exists_answer_live {q : Query} (hrefusal : q.refusal? .live s = none) :
    ∃ r, q.answer config .live s = .ok r := by
  have hclosed := Network.closed_adjacency_ofSnapshot s
  have hsize := Network.size_adjacency_ofSnapshot s
  rcases exists_betweenness_live (α := α) (Network.ofSnapshot s).adjacency
    (Network.ofSnapshot s).linkCount with ⟨scores, hscores⟩
  have hends : ∀ source target : String,
      (if source ∉ s.nodes.map Node.id then some (Fault.unknownNode source)
        else if target ∉ s.nodes.map Node.id then some (.unknownNode target)
        else none) = none →
      ∃ v w : Fin (Network.ofSnapshot s).size, (Network.ofSnapshot s).endpoints
        source target = .ok (v.val, w.val) := by
    intro source target hrefusal
    by_cases hsource : source ∈ s.nodes.map Node.id
    · by_cases htarget : target ∈ s.nodes.map Node.id
      · exact Network.exists_endpoints_of_known hsource htarget
      · simp [hsource, htarget] at hrefusal
    · simp [hsource] at hrefusal
  cases q with
  | betweenness =>
      simp only [answer, Analysis.betweenness, hscores]
      exact ⟨_, rfl⟩
  | communities =>
      rcases exists_detectCommunities_eq α s config.community with
        ⟨removed, reason, count, -, -, hdetect⟩
      have hpartition :=
        hdetect config.community.minSize config.community.maxCommunities
      simp only [answer, Analysis.communities, hpartition]
      exact ⟨_, rfl⟩
  | brokers =>
      simp only [answer, Analysis.brokers, hscores]
      exact ⟨_, rfl⟩
  | paths source target =>
      rcases hends source target hrefusal with ⟨v, w, heq⟩
      rcases exists_simplePaths_live hclosed
        (v.isLt.trans_eq hsize.symm) w.val config.paths with ⟨found, hfound⟩
      simp only [answer, Analysis.paths, heq, bind, Except.bind, hfound]
      exact ⟨_, rfl⟩
  | shortest source target =>
      rcases hends source target hrefusal with ⟨v, w, heq⟩
      simp only [answer, Analysis.shortest, heq]
      exact ⟨_, rfl⟩
  | components => exact ⟨_, rfl⟩
  | statistics => exact ⟨_, rfl⟩
  | centrality =>
      rcases exists_centrality_live
        (Network.ofSnapshot s).adjacency scores.node config.weights with ⟨c, hc⟩
      simp only [answer, Analysis.centrality, hscores, bind, Except.bind, hc]
      exact ⟨_, rfl⟩
  | flows => exact ⟨_, rfl⟩

/-- A cancelled token that does not refuse an analysis does not change it. -/
theorem answer_cancelled_eq
    {q : Query}
    (hrefusal : q.refusal? .cancelled s = none) :
    q.refusal? .live s = none ∧
      q.answer config .cancelled s = q.answer config .live s := by
  have hscored : (if s.nodes = [] then none else Signal.cancelled.refusal?) =
      none → s.nodes = [] := by
    intro hrefusal
    by_contra hnodes
    rw [if_neg hnodes] at hrefusal
    exact absurd hrefusal (Option.some_ne_none _)
  have hends : ∀ source target : String,
      (if source ∉ s.nodes.map Node.id then some (Fault.unknownNode source)
        else if target ∉ s.nodes.map Node.id then some (.unknownNode target)
        else Signal.cancelled.refusal?) ≠ none := by
    intro source target
    split_ifs <;> exact Option.some_ne_none _
  cases q with
  | betweenness =>
      have hnodes := hscored hrefusal
      have hsize := Network.size_adjacency_eq_zero_iff.mpr hnodes
      simp only [answer, Analysis.betweenness,
        betweenness_of_size_eq_zero hsize .cancelled]
      exact ⟨if_pos hnodes, trivial⟩
  | communities => exact absurd hrefusal (Option.some_ne_none _)
  | brokers =>
      have hnodes := hscored hrefusal
      have hsize := Network.size_adjacency_eq_zero_iff.mpr hnodes
      simp only [answer, Analysis.brokers,
        betweenness_of_size_eq_zero hsize .cancelled]
      exact ⟨if_pos hnodes, trivial⟩
  | paths source target => exact absurd hrefusal (hends source target)
  | shortest source target => exact absurd hrefusal (hends source target)
  | components => exact absurd hrefusal (Option.some_ne_none _)
  | statistics => exact ⟨rfl, rfl⟩
  | centrality =>
      have hnodes := hscored hrefusal
      have hsize := Network.size_adjacency_eq_zero_iff.mpr hnodes
      simp only [answer, Analysis.centrality, betweenness_of_size_eq_zero hsize
        .cancelled, centrality_of_size_eq_zero hsize .cancelled]
      exact ⟨if_pos hnodes, trivial⟩
  | flows => exact ⟨rfl, rfl⟩

end Query

/-- An analysis is refused exactly as the table says, and comes to the same
report as with a live token otherwise.  In exact arithmetic it never gets stuck
on the way. -/
theorem Analyzer.answer_outcome
    (a : Analyzer ℚ) (r : Registry) (q : Query) (s : Snapshot) :
    Strict.answer q a.config (r.signal a.token) s =
      Strict.lift (a.answer r q s) ∧ match q.refusal? (r.signal a.token) s with
      | some fault => a.answer r q s = .error fault
      | none =>
          ∃ report, q.answer a.config .live s = .ok report ∧
            a.answer r q s = .ok report := by
  refine ⟨Strict.answer_eq_lift s q a.config _, ?_⟩
  rw [answer]
  cases hrefusal : q.refusal? (r.signal a.token) s with
  | some fault => exact Query.answer_of_refusal a.config hrefusal
  | none =>
      cases hsignal : r.signal a.token with
      | live =>
          rw [hsignal] at hrefusal
          rcases Query.exists_answer_live a.config hrefusal
            with ⟨report, hreport⟩
          exact ⟨report, hreport, hreport⟩
      | cancelled =>
          rw [hsignal] at hrefusal
          rcases Query.answer_cancelled_eq a.config hrefusal with ⟨hlive, heq⟩
          rcases Query.exists_answer_live a.config hlive with ⟨report, hreport⟩
          exact ⟨report, hreport, heq.trans hreport⟩

end LinkAnalysis
