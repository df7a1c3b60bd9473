import LinkAnalysis.Proofs.Network.Canonical
import LinkAnalysis.Report.Analysis
import Mathlib

/-!
# Flows in reports

A flow report sorts the edges between different known nodes by the kinds that
their labels mention.  Kinds are tried in their order, so every edge stands in
one class.  The edges in all classes are those that the network has not dropped:
each of them became a link or repeats one.
-/

namespace LinkAnalysis

open scoped Classical

/-! ## Kinds of labels -/

theorem occursIn_iff {word text : List Char} :
    occursIn word text = true ↔ word <:+: text := by
  induction text with
  | nil => rw [occursIn, List.isEmpty_iff, List.infix_nil]
  | cons c rest ih =>
      rw [occursIn, Bool.or_eq_true, ih, List.isPrefixOf_iff_prefix,
        List.infix_cons_iff]

namespace FlowKind

/-- A keyword of the kind occurs in the lower case of the label. -/
def Mentioned (kind : FlowKind) (label : String) : Prop :=
  ∃ word ∈ kind.keywords, word.toList <:+: Text.lowercase label

/-- The kind is the first one that the label mentions, or unclassified where it
mentions none. -/
structure Classifies (kind : FlowKind) (label : String) : Prop where
  isFirst : ∃ before after,
    all = before ++ kind :: after ∧
    ∀ earlier ∈ before, ¬ earlier.Mentioned label
  mentioned : kind ≠ unclassified → kind.Mentioned label
  eq_unclassified_iff : kind = unclassified ↔ ∀ other, ¬ Mentioned other label

theorem mem_all (kind : FlowKind) : kind ∈ all := by
  cases kind <;> decide

theorem all_nodup : all.Nodup := by decide

theorem not_mentioned_unclassified (label : String) :
    ¬ unclassified.Mentioned label :=
  fun ⟨_, hword, _⟩ => absurd hword List.not_mem_nil

theorem any_occursIn_iff {kind : FlowKind} {label : String} :
    (kind.keywords.any fun w => occursIn w.toList (Text.lowercase label)) =
        true ↔
      kind.Mentioned label := by
  simp only [List.any_eq_true, occursIn_iff, Mentioned]

theorem classifies_ofLabel (label : String) :
    (ofLabel label).Classifies label := by
  rw [ofLabel]
  cases hfind : all.find? fun kind =>
      kind.keywords.any fun w => occursIn w.toList (Text.lowercase label) with
  | none =>
      have hnone : ∀ kind : FlowKind, ¬ kind.Mentioned label :=
        fun kind hmentioned =>
        List.find?_eq_none.mp hfind kind kind.mem_all
          (any_occursIn_iff.mpr hmentioned)
      exact ⟨⟨[information, money, influence, evidence], [], rfl, fun kind _ =>
        hnone kind⟩, fun hne => absurd rfl hne, fun _ => hnone, fun _ => rfl⟩
  | some kind =>
      obtain ⟨hkind, before, after, hall, hbefore⟩ :=
        List.find?_eq_some_iff_append.mp hfind
      have hmentioned : kind.Mentioned label := any_occursIn_iff.mp hkind
      refine ⟨⟨before, after, hall, fun earlier hearlier hother => ?_⟩, fun _ =>
        hmentioned, fun heq => ?_, fun hnone => absurd hmentioned (hnone kind)⟩
      · have hunmet := hbefore earlier hearlier
        rw [any_occursIn_iff.mpr hother] at hunmet
        simp at hunmet
      · exact absurd (heq ▸ hmentioned) (not_mentioned_unclassified label)

/-- A label has one kind. -/
theorem ofLabel_eq_iff {kind : FlowKind} {label : String} :
    ofLabel label = kind ↔ kind.Classifies label := by
  refine ⟨fun hlabel => hlabel ▸ classifies_ofLabel label,
    fun hclassifies => ?_⟩
  rw [ofLabel]
  by_cases hkind : kind = unclassified
  · have hnone := hclassifies.eq_unclassified_iff.mp hkind
    rw [List.find?_eq_none.mpr fun other _ hother =>
      hnone other (any_occursIn_iff.mp hother), hkind]
    rfl
  · obtain ⟨before, after, hall, hbefore⟩ := hclassifies.isFirst
    have hearlier : ∀ earlier ∈ before, (!earlier.keywords.any fun w =>
        occursIn w.toList (Text.lowercase label)) = true := by
      intro earlier hmem
      rw [Bool.not_eq_true', ← Bool.not_eq_true, any_occursIn_iff]
      exact hbefore earlier hmem
    have hfind : all.find? (fun kind =>
        kind.keywords.any fun w => occursIn w.toList (Text.lowercase label)) =
          some kind :=
      List.find?_eq_some_iff_append.mpr ⟨any_occursIn_iff.mpr
        (hclassifies.mentioned hkind), before, after, hall, hearlier⟩
    rw [hfind]
    rfl

end FlowKind

/-! ## Edges that are sorted -/

/-- What a report says of the edges between different known nodes, in the order
of the snapshot. -/
def Snapshot.relations (s : Snapshot) : List FlowRelation :=
  (s.edges.filter fun e => decide (e.Proper (s.nodes.map Node.id))).map fun e =>
    ⟨e.source, e.target, e.label⟩

/-- The classes of a list by a key make up the list. -/
theorem flatMap_filter_perm
    {β κ : Type} [DecidableEq β] [DecidableEq κ] {keys : List κ}
    (hnodup : keys.Nodup)
    {key : β → κ} {l : List β}
    (hkeys : ∀ x ∈ l, key x ∈ keys) :
    (keys.flatMap fun k => l.filter fun x => decide (key x = k)).Perm l := by
  refine List.perm_iff_count.mpr fun x => ?_
  by_cases hx : x ∈ l
  · rw [List.count_flatMap, List.sum_map_eq_nsmul_single (key x), smul_eq_mul,
      List.count_eq_one_of_mem hnodup (hkeys x hx), Nat.one_mul]
    · exact List.count_filter (decide_eq_true rfl)
    · intro k hne _
      refine List.count_eq_zero.mpr fun hmem => hne ?_
      exact (of_decide_eq_true (List.mem_filter.mp hmem).2).symm
  · rw [List.count_eq_zero.mpr hx, List.count_eq_zero, List.mem_flatMap]
    exact fun ⟨_, _, hmem⟩ => hx (List.mem_of_mem_filter hmem)

namespace Network

variable (s : Snapshot)

theorem joins_ofSnapshot_iff {e : Edge} :
    (ofSnapshot s).joins e = true ↔ e.Proper (s.nodes.map Node.id) := by
  have hknown := (canonical_ofSnapshot s).indexOf?_isSome_iff
  rw [joins, Bool.and_eq_true, Bool.and_eq_true, bne_iff_ne, hknown, hknown,
    and_assoc, and_comm]
  rfl

/-- Every edge is dropped, joins a node to itself, or is sorted. -/
theorem dropped_add_selfLoops_add_relations :
    (ofSnapshot s).diagnostics.dropped + (ofSnapshot s).diagnostics.selfLoops +
        s.relations.length = s.edges.length := by
  rw [(canonical_ofSnapshot s).dropped_eq,
    (canonical_ofSnapshot s).selfLoops_eq, Snapshot.relations, List.length_map,
    ← List.countP_eq_length_filter]
  generalize s.nodes.map Node.id = ids
  induction s.edges with
  | nil => rfl
  | cons e edges ih =>
      have hone : (if (!decide (e.Known ids)) = true then 1 else 0) +
          (if decide (e.Known ids ∧ e.source = e.target) = true then 1 else 0) +
          (if decide (e.Proper ids) = true then 1 else 0) = 1 := by
        by_cases hknown : e.Known ids <;>
          by_cases hloop : e.source = e.target <;>
          simp [Edge.Proper, hknown, hloop]
      rw [List.countP_cons, List.countP_cons, List.countP_cons,
        List.length_cons, ← ih]
      omega

/-- The edges that are sorted became links or repeat one. -/
theorem length_relations :
    s.relations.length =
      (ofSnapshot s).linkCount + (ofSnapshot s).diagnostics.duplicates := by
  have hall := (canonical_ofSnapshot s).sum_eq
  have hsorted := dropped_add_selfLoops_add_relations s
  omega

end Network

/-! ## Reports -/

/-- The classes of a report are a partition of the edges between different known
nodes by kind. -/
structure FlowReport.Partitions (s : Snapshot) (r : FlowReport) : Prop where
  kinds_eq : r.flows.map FlowClass.kind = FlowKind.all
  /-- Every such edge stands in the classes as often as in the snapshot, and
  nothing else does. -/
  relations_perm : (r.flows.flatMap FlowClass.relations).Perm s.relations
  /-- A class keeps the order of the snapshot. -/
  relations_eq : ∀ c ∈ r.flows,
    c.relations = s.relations.filter fun x => decide (c.kind.Classifies x.label)
  count_eq : ∀ c ∈ r.flows, c.count = c.relations.length
  basis_eq : r.basis = (Network.ofSnapshot s).basis
  sum_count_eq : (r.flows.map FlowClass.count).sum =
    r.basis.linkCount + r.basis.diagnostics.duplicates

namespace Analysis

variable (s : Snapshot)

theorem flows_eq :
    (flows s).flows = FlowKind.all.map fun kind =>
      ⟨kind, s.relations.filter fun x => decide (kind.Classifies x.label)⟩ := by
  have hjoins : s.edges.filter (Network.ofSnapshot s).joins =
      s.edges.filter fun e => decide (e.Proper (s.nodes.map Node.id)) :=
    List.filter_congr fun e _ => by
      rw [Bool.eq_iff_iff, Network.joins_ofSnapshot_iff, decide_eq_true_iff]
  have hkind : ∀ (kind : FlowKind) (label : String),
      (FlowKind.ofLabel label == kind) = decide (kind.Classifies label) := by
    intro kind label
    rw [Bool.eq_iff_iff, beq_iff_eq, FlowKind.ofLabel_eq_iff,
      decide_eq_true_iff]
  simp only [flows, classifyFlows, List.map_map, hjoins]
  refine List.map_congr_left fun kind _ => ?_
  simp only [Function.comp_def, List.filter_map, List.map_map,
    Snapshot.relations, hkind]

/-- A flow report sorts each edge between different known nodes into one
class. -/
theorem flows_partitions : (flows s).Partitions s := by
  have hkey : ∀ kind : FlowKind,
      (s.relations.filter fun x => decide (kind.Classifies x.label)) =
        s.relations.filter fun x => decide (FlowKind.ofLabel x.label = kind) :=
    fun kind => List.filter_congr fun x _ =>
      decide_eq_decide.mpr FlowKind.ofLabel_eq_iff.symm
  have hperm :
      ((flows s).flows.flatMap FlowClass.relations).Perm s.relations := by
    rw [flows_eq, List.flatMap_map]
    simp only [hkey]
    exact flatMap_filter_perm FlowKind.all_nodup fun x _ => FlowKind.mem_all _
  refine
    { kinds_eq := ?_
      relations_perm := hperm
      relations_eq := fun c hc => ?_
      count_eq := fun _ _ => rfl
      basis_eq := rfl
      sum_count_eq := ?_ }
  · rw [flows_eq, List.map_map]
    exact List.map_id _
  · rw [flows_eq] at hc
    obtain ⟨kind, -, rfl⟩ := List.mem_map.mp hc
    rfl
  · have hlength := hperm.length_eq
    rw [List.length_flatMap, Network.length_relations] at hlength
    exact hlength

end Analysis

end LinkAnalysis
