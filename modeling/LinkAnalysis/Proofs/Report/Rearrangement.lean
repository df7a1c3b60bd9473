import LinkAnalysis.Analyzer.Bench
import LinkAnalysis.Proofs.Network.Rearrangement
import LinkAnalysis.Proofs.Rational
import Mathlib

/-!
# Reports on rearranged snapshots

An analysis reads the network of a snapshot and the labels of its nodes, and
copies the counters of the network into its report without reading them.
Rearranged snapshots therefore have the same reports, in any arithmetic, up to
those counters.  Flows are different: they list the edges as they are stored.
-/

namespace LinkAnalysis

variable {α : Type}

def Basis.withDiagnostics (b : Basis) (d : Diagnostics) : Basis :=
  { b with diagnostics := d }

/-- The same report with other counters. -/
def Report.withDiagnostics (d : Diagnostics) : Report α → Report α
  | betweenness r => .betweenness { r with basis := r.basis.withDiagnostics d }
  | communities r => .communities { r with basis := r.basis.withDiagnostics d }
  | brokers r => .brokers { r with basis := r.basis.withDiagnostics d }
  | paths r => .paths { r with basis := r.basis.withDiagnostics d }
  | shortest r => .shortest { r with basis := r.basis.withDiagnostics d }
  | components r => .components { r with basis := r.basis.withDiagnostics d }
  | statistics r => .statistics { r with basis := r.basis.withDiagnostics d }
  | centrality r => .centrality { r with basis := r.basis.withDiagnostics d }
  | flows r => .flows { r with basis := r.basis.withDiagnostics d }

variable [Score α]

/-! ## Computations on a network with other counters -/

section Counters

variable (net : Network) (d : Diagnostics)

theorem Division.run_withDiagnostics
    (signal : Signal) (target budget : Nat) (run : Division) :
    Division.run α signal (net.withDiagnostics d) target budget run =
      Division.run α signal net target budget run := by
  induction budget generalizing run with
  | zero => rfl
  | succ more ih =>
      unfold Division.run
      simp only [ih]
      rfl

theorem detectCommunities_withDiagnostics
    (signal : Signal) (config : CommunityConfig) :
    detectCommunities α signal (net.withDiagnostics d) config =
      detectCommunities α signal net config := by
  unfold detectCommunities
  simp only [Division.run_withDiagnostics]
  rfl

end Counters

/-- What is computed after a shared first part agrees up to a change if all that
may follow does. -/
theorem bind_eq_map_bind
    {ε β γ δ : Type} (x : Except ε β) {f : β → Except ε δ} {g : β → Except ε γ}
    {change : γ → δ}
    (hmap : ∀ b, f b = (g b).map change) :
    (x >>= f) = (x >>= g).map change := by
  cases x with
  | error fault => rfl
  | ok b => exact hmap b

namespace Analysis

variable {s t : Snapshot} {d : Diagnostics}

section

variable (hnet : Network.ofSnapshot t =
  (Network.ofSnapshot s).withDiagnostics d)

include hnet

theorem communities_of_network_eq (config : Config α) (signal : Signal) :
    Analysis.communities config signal t =
      (Analysis.communities config signal s).map fun r =>
      { r with basis := r.basis.withDiagnostics d } := by
  unfold Analysis.communities
  simp only [hnet, detectCommunities_withDiagnostics]
  exact bind_eq_map_bind _ fun partition => rfl

omit [Score α] in
theorem paths_of_network_eq
    (config : Config α) (signal : Signal) (source target : String) :
    Analysis.paths config signal t source target =
      (Analysis.paths config signal s source target).map fun r =>
      { r with basis := r.basis.withDiagnostics d } := by
  unfold Analysis.paths
  simp only [hnet]
  refine bind_eq_map_bind
    ((Network.ofSnapshot s).endpoints source target) fun ends => ?_
  exact bind_eq_map_bind _ fun found => rfl

theorem shortest_of_network_eq
    (config : Config α) (signal : Signal) (source target : String) :
    Analysis.shortest config signal t source target =
      (Analysis.shortest config signal s source target).map fun r =>
      { r with basis := r.basis.withDiagnostics d } := by
  unfold Analysis.shortest
  simp only [hnet]
  refine bind_eq_map_bind
    ((Network.ofSnapshot s).endpoints source target) fun ends => ?_
  exact bind_eq_map_bind signal.check fun _ => rfl

theorem components_of_network_eq (signal : Signal) :
    (Analysis.components signal t : Except Fault (ComponentReport α)) =
      (Analysis.components signal s).map fun r =>
      { r with basis := r.basis.withDiagnostics d } := by
  unfold Analysis.components
  simp only [hnet]
  exact bind_eq_map_bind signal.check fun _ => rfl

theorem statistics_of_network_eq :
    (Analysis.statistics t : StatisticsReport α) =
      { (Analysis.statistics s : StatisticsReport α) with
        basis :=
          (Analysis.statistics s : StatisticsReport α).basis.withDiagnostics
            d } := by
  unfold Analysis.statistics
  simp only [hnet]
  rfl

variable (hlabel : t.labelOf = s.labelOf)

include hlabel

theorem betweenness_of_network_eq (signal : Signal) :
    (Analysis.betweenness signal t : Except Fault (BetweennessReport α)) =
      (Analysis.betweenness signal s).map fun r =>
      { r with basis := r.basis.withDiagnostics d } := by
  unfold Analysis.betweenness
  simp only [hnet, hlabel]
  exact bind_eq_map_bind (LinkAnalysis.betweenness signal _ _) fun scores => rfl

theorem brokers_of_network_eq (config : Config α) (signal : Signal) :
    Analysis.brokers config signal t = (Analysis.brokers config signal s).map
      fun r => { r with basis := r.basis.withDiagnostics d } := by
  unfold Analysis.brokers
  simp only [hnet, hlabel]
  exact bind_eq_map_bind (LinkAnalysis.betweenness signal _ _) fun scores => rfl

theorem centrality_of_network_eq (config : Config α) (signal : Signal) :
    Analysis.centrality config signal t =
      (Analysis.centrality config signal s).map fun r =>
      { r with basis := r.basis.withDiagnostics d } := by
  unfold Analysis.centrality
  simp only [hnet, hlabel]
  refine bind_eq_map_bind (LinkAnalysis.betweenness signal _ _)
    fun between => ?_
  exact bind_eq_map_bind (LinkAnalysis.centrality signal _ _ _) fun scores =>
    rfl

end

end Analysis

theorem map_map_withDiagnostics
    {α β ε : Type} {d : Diagnostics} (x : Except ε β) {f : β → β}
    {g : β → Report α}
    (hg : ∀ r, g (f r) = (g r).withDiagnostics d) :
    (x.map f).map g = (x.map g).map (Report.withDiagnostics d) := by
  cases x with
  | error fault => rfl
  | ok r => exact congrArg Except.ok (hg r)

/-- Every answer but that on flows is a function of the network and of the
labels of nodes. -/
theorem Query.answer_of_network_eq
    {s t : Snapshot} {d : Diagnostics}
    (hnet : Network.ofSnapshot t = (Network.ofSnapshot s).withDiagnostics d)
    (hlabel : t.labelOf = s.labelOf)
    {q : Query}
    (hq : q ≠ .flows)
    (config : Config α) (signal : Signal) :
    q.answer config signal t =
      (q.answer config signal s).map (Report.withDiagnostics d) := by
  cases q with
  | betweenness =>
      rw [answer, answer, Analysis.betweenness_of_network_eq hnet hlabel]
      exact map_map_withDiagnostics _ fun r => rfl
  | communities =>
      rw [answer, answer, Analysis.communities_of_network_eq hnet]
      exact map_map_withDiagnostics _ fun r => rfl
  | brokers =>
      rw [answer, answer, Analysis.brokers_of_network_eq hnet hlabel]
      exact map_map_withDiagnostics _ fun r => rfl
  | paths source target =>
      rw [answer, answer, Analysis.paths_of_network_eq hnet]
      exact map_map_withDiagnostics _ fun r => rfl
  | shortest source target =>
      rw [answer, answer, Analysis.shortest_of_network_eq hnet]
      exact map_map_withDiagnostics _ fun r => rfl
  | components =>
      rw [answer, answer, Analysis.components_of_network_eq hnet]
      exact map_map_withDiagnostics _ fun r => rfl
  | statistics =>
      rw [answer, answer, Analysis.statistics_of_network_eq hnet]
      rfl
  | centrality =>
      rw [answer, answer, Analysis.centrality_of_network_eq hnet hlabel]
      exact map_map_withDiagnostics _ fun r => rfl
  | flows => exact absurd rfl hq

/-- Idle extra edges change the counters of an answer and nothing else; without
extra edges, nothing at all changes. -/
theorem Analyzer.answer_rearranged
    {s t : Snapshot} {extra : List Edge}
    (hrearranged : s.Rearranged extra t)
    (hidle : ∀ e ∈ extra, e.Idle s)
    {q : Query}
    (hq : q ≠ .flows)
    (a : Analyzer α) (r : Registry) :
    a.answer r q t = (a.answer r q s).map
        (Report.withDiagnostics (Network.ofSnapshot t).diagnostics) ∧
      (extra = [] → a.answer r q t = a.answer r q s) := by
  constructor
  · exact Query.answer_of_network_eq (Network.ofSnapshot_eq_withDiagnostics
      hrearranged hidle) hrearranged.labelOf_eq hq a.config (r.signal a.token)
  · rintro rfl
    calc
      a.answer r q t = (a.answer r q s).map
        (Report.withDiagnostics (Network.ofSnapshot s).diagnostics) :=
          Query.answer_of_network_eq (Network.ofSnapshot_eq_of_rearranged
            hrearranged) hrearranged.labelOf_eq hq a.config (r.signal a.token)
      _ = a.answer r q s :=
        (Query.answer_of_network_eq rfl rfl hq a.config (r.signal a.token)).symm

/-- A small case: three persons and two calls. -/
def callSnapshot : Snapshot where
  nodes := [⟨"a", "Ann", "person"⟩, ⟨"b", "", "person"⟩, ⟨"c", "Col", ""⟩]
  edges := [⟨"a", "b", "calls", "phone"⟩, ⟨"c", "b", "", ""⟩]
  id_ne_empty := by decide
  ids_nodup := by decide

/-- The same case, exported in another order and with a repetition, a loop and
an unknown id. -/
def mixedCallSnapshot : Snapshot where
  nodes := [⟨"c", "Col", "witness"⟩, ⟨"a", "Ann", ""⟩, ⟨"b", "", ""⟩]
  edges := [⟨"c", "c", "", ""⟩, ⟨"b", "c", "told", ""⟩, ⟨"b", "a", "", ""⟩,
    ⟨"a", "x", "", ""⟩, ⟨"a", "b", "paid", ""⟩]
  id_ne_empty := by decide
  ids_nodup := by decide

def idleCalls : List Edge :=
  [⟨"c", "c", "", ""⟩, ⟨"a", "x", "", ""⟩, ⟨"a", "b", "", ""⟩]

theorem rearranged_mixedCallSnapshot :
    callSnapshot.Rearranged idleCalls mixedCallSnapshot where
  mem_ids_iff id := by
    have hperm : (mixedCallSnapshot.nodes.map Node.id).Perm
        (callSnapshot.nodes.map Node.id) := by
      decide
    exact hperm.mem_iff
  label_eq := by decide
  joined_perm := by decide

theorem Analyzer.answer_rearranged_mixedCallSnapshot :
    callSnapshot.Rearranged idleCalls mixedCallSnapshot ∧
      (∀ e ∈ idleCalls, e.Idle callSnapshot) ∧
      (⟨Config.default, ⟨0⟩⟩ : Analyzer Float).answer ⟨[.live]⟩ (.paths "a" "c")
          mixedCallSnapshot =
        ((⟨Config.default, ⟨0⟩⟩ : Analyzer Float).answer ⟨[.live]⟩
            (.paths "a" "c") callSnapshot).map
          (Report.withDiagnostics ⟨1, 1, 1⟩) := by
  have hidle : ∀ e ∈ idleCalls, e.Idle callSnapshot := by decide
  refine ⟨rearranged_mixedCallSnapshot, hidle, ?_⟩
  have hdiagnostics :
      (Network.ofSnapshot mixedCallSnapshot).diagnostics = ⟨1, 1, 1⟩ := by
    cbv
  rw [← hdiagnostics]
  exact (Analyzer.answer_rearranged rearranged_mixedCallSnapshot hidle
    (by decide) ⟨Config.default, ⟨0⟩⟩ ⟨[.live]⟩).1

end LinkAnalysis
