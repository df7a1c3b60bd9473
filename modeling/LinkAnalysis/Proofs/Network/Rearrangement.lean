import LinkAnalysis.Proofs.Network.Canonical

/-!
# Rearranged snapshots

The order of nodes and edges, the direction of edges, the labels of edges and
all categories make no difference to the network of a snapshot.  Further edges
that name unknown ids, join an id to itself or repeat a pair make a difference
to nothing but the counters.

Both follow from one fact: the links are listed in a strict order, so they are
determined by the pairs of ids that they join.
-/

namespace LinkAnalysis

/-- The edge makes no link: an end of it is unknown, both ends are equal, or an
edge of the snapshot joins the same two ids. -/
def Edge.Idle (s : Snapshot) (e : Edge) : Prop :=
  ¬ e.Known (s.nodes.map Node.id) ∨
    e.source = e.target ∨
    ∃ other ∈ s.edges, other.joined = e.joined

instance (s : Snapshot) (e : Edge) : Decidable (e.Idle s) :=
  inferInstanceAs (Decidable (_ ∨ _ ∨ _))

/-- The second snapshot has the nodes of the first, in any order and with any
categories.  Its edges are those of the first and the extra ones, in any order
and direction, with any labels and categories. -/
structure Snapshot.Rearranged (s : Snapshot) (extra : List Edge)
    (t : Snapshot) : Prop where
  mem_ids_iff : ∀ id, id ∈ t.nodes.map Node.id ↔ id ∈ s.nodes.map Node.id
  label_eq : ∀ m ∈ s.nodes, ∀ n ∈ t.nodes, n.id = m.id → n.label = m.label
  joined_perm :
    (t.edges.map Edge.joined).Perm ((s.edges ++ extra).map Edge.joined)

theorem Edge.known_iff_forall_mem {ids : List String} {e : Edge} :
    e.Known ids ↔ ∀ id ∈ e.joined, id ∈ ids := by
  simp [Known, joined, Sym2.mem_iff]

theorem Edge.source_eq_target_iff {e : Edge} :
    e.source = e.target ↔ e.joined.IsDiag := by
  rw [joined, Sym2.mk_isDiag_iff]

namespace Snapshot

theorem node?_eq_some_iff
    {s : Snapshot} {id : String} {node : Node} :
    s.node? id = some node ↔ node ∈ s.nodes ∧ node.id = id := by
  rw [node?]
  constructor
  · intro hfind
    exact ⟨List.mem_of_find?_eq_some hfind,
      by simpa using List.find?_some hfind⟩
  · rintro ⟨hmem, rfl⟩
    obtain ⟨other, hother⟩ :
        ∃ other, s.nodes.find? (·.id == node.id) = some other :=
      Option.isSome_iff_exists.mp (List.find?_isSome.mpr ⟨node, hmem, by simp⟩)
    have hid : other.id = node.id := by simpa using List.find?_some hother
    rwa [List.inj_on_of_nodup_map s.ids_nodup
      (List.mem_of_find?_eq_some hother) hmem hid] at hother

end Snapshot

namespace Snapshot.Rearranged

variable {s t : Snapshot} {extra : List Edge}

theorem labelOf_eq (hrearranged : s.Rearranged extra t) :
    t.labelOf = s.labelOf := by
  funext id
  rw [labelOf, labelOf]
  cases hs : s.node? id with
  | some m =>
      obtain ⟨hm, rfl⟩ := node?_eq_some_iff.mp hs
      obtain ⟨n, hn, hid⟩ := List.mem_map.mp ((hrearranged.mem_ids_iff m.id).mpr
        (List.mem_map_of_mem hm))
      rw [node?_eq_some_iff.mpr ⟨hn, hid⟩]
      simp only [hrearranged.label_eq m hm n hn hid]
  | none =>
      cases ht : t.node? id with
      | none => rfl
      | some n =>
          obtain ⟨hn, rfl⟩ := node?_eq_some_iff.mp ht
          obtain ⟨m, hm, hid⟩ :=
            List.mem_map.mp ((hrearranged.mem_ids_iff n.id).mp
              (List.mem_map_of_mem hn))
          rw [node?_eq_some_iff.mpr ⟨hm, hid⟩] at hs
          simp at hs

theorem sortedIds_eq (hrearranged : s.Rearranged extra t) :
    Network.sortedIds t = Network.sortedIds s := by
  refine (Network.sortedIds_ascending t).eq_of_mem_iff
    (Network.sortedIds_ascending s) fun id => ?_
  rw [(Network.sortedIds_perm t).mem_iff, (Network.sortedIds_perm s).mem_iff]
  exact hrearranged.mem_ids_iff id

theorem exists_joined_iff
    (hrearranged : s.Rearranged extra t)
    (hidle : ∀ e ∈ extra, e.Idle s)
    {x y : String}
    (hx : x ∈ s.nodes.map Node.id)
    (hy : y ∈ s.nodes.map Node.id)
    (hne : x ≠ y) :
    (∃ e ∈ t.edges, e.joined = s(x, y)) ↔
      ∃ e ∈ s.edges, e.joined = s(x, y) := by
  have hmem : s(x, y) ∈ t.edges.map Edge.joined ↔
      s(x, y) ∈ (s.edges ++ extra).map Edge.joined :=
    hrearranged.joined_perm.mem_iff
  rw [List.mem_map, List.mem_map] at hmem
  rw [hmem]
  constructor
  · rintro ⟨e, he, hjoined⟩
    rcases List.mem_append.mp he with hold | hextra
    · exact ⟨e, hold, hjoined⟩
    · rcases hidle e hextra with hunknown | hloop | ⟨other, hother, hsame⟩
      · refine absurd (Edge.known_iff_forall_mem.mpr fun id hid => ?_) hunknown
        rcases Sym2.mem_iff.mp (hjoined ▸ hid) with rfl | rfl
        · exact hx
        · exact hy
      · rw [Edge.source_eq_target_iff, hjoined, Sym2.mk_isDiag_iff] at hloop
        exact absurd hloop hne
      · exact ⟨other, hother, hsame.trans hjoined⟩
  · rintro ⟨e, he, hjoined⟩
    exact ⟨e, List.mem_append_left _ he, hjoined⟩

end Snapshot.Rearranged

namespace Network

def withDiagnostics (net : Network) (d : Diagnostics) : Network :=
  { net with diagnostics := d }

theorem precedes_asymm {x y : Link} (hxy : x.Precedes y) : ¬ y.Precedes x := by
  rintro (hyx | ⟨hkey, hyx⟩)
  · rcases hxy with hxy | ⟨hkey, -⟩
    · exact absurd (List.lt_trans hxy hyx) (List.lt_irrefl _)
    · exact absurd (hkey ▸ hyx) (List.lt_irrefl _)
  · rcases hxy with hxy | ⟨-, hxy⟩
    · exact absurd (hkey ▸ hxy) (List.lt_irrefl _)
    · omega

/-- Links are determined by the ids and by the pairs that edges join. -/
theorem mem_links_ofSnapshot_iff (s : Snapshot) {l : Link} :
    l ∈ (ofSnapshot s).links ↔ ∃ x y,
      l.low < l.high ∧
      (sortedIds s)[l.low]? = some x ∧
      (sortedIds s)[l.high]? = some y ∧
      l.key = x ++ "|" ++ y ∧
      ∃ e ∈ s.edges, e.joined = s(x, y) := by
  obtain ⟨taken, htaken, hperm, -⟩ := taken_ofSnapshot s
  rw [← Array.mem_toList_iff, hperm.mem_iff]
  constructor
  · intro hl
    obtain ⟨x, y, hx, hy, hkey⟩ := htaken.key_eq l hl
    have hlt := htaken.low_lt_high l hl
    exact ⟨x, y, hlt, hx, hy, hkey, (htaken.exists_link_iff hlt hx hy).mp
      (List.mem_map_of_mem (f := Link.ends) hl)⟩
  · rintro ⟨x, y, hlt, hx, hy, hkey, hedge⟩
    obtain ⟨l', hl', hends⟩ :=
      List.mem_map.mp ((htaken.exists_link_iff hlt hx hy).mpr hedge)
    obtain ⟨x', y', hx', hy', hkey'⟩ := htaken.key_eq l' hl'
    obtain ⟨hlow, hhigh⟩ := Prod.mk.inj hends
    rw [hlow, hx, Option.some.injEq] at hx'
    rw [hhigh, hy, Option.some.injEq] at hy'
    subst hx' hy'
    have heq : l' = l := by
      cases l
      cases l'
      simp_all
    exact heq ▸ hl'

theorem links_eq_of_joined_iff
    {s t : Snapshot}
    (hids : sortedIds t = sortedIds s)
    (hjoined : ∀ x ∈ sortedIds s, ∀ y ∈ sortedIds s, x ≠ y →
      ((∃ e ∈ t.edges, e.joined = s(x, y)) ↔
        ∃ e ∈ s.edges, e.joined = s(x, y))) :
    (ofSnapshot t).links = (ofSnapshot s).links := by
  apply Array.toList_inj.mp
  have hmem : ∀ l,
      l ∈ (ofSnapshot t).links.toList ↔ l ∈ (ofSnapshot s).links.toList := by
    intro l
    rw [Array.mem_toList_iff, Array.mem_toList_iff, mem_links_ofSnapshot_iff,
      mem_links_ofSnapshot_iff, hids]
    refine exists_congr fun x => exists_congr fun y =>
      and_congr_right fun hlt =>
      and_congr_right fun hx => and_congr_right fun hy =>
        and_congr_right fun _ => ?_
    exact hjoined x (List.mem_of_getElem? hx) y (List.mem_of_getElem? hy)
      (lt_of_getElem?_lt (sortedIds_ascending s) hx hy hlt).ne
  have hnodup : ∀ s : Snapshot, (ofSnapshot s).links.toList.Nodup :=
    fun s => (ends_nodup_ofSnapshot s).of_map _
  exact List.Perm.eq_of_pairwise
    (fun x y _ _ hxy hyx => absurd hyx (precedes_asymm hxy))
    (links_ascending_ofSnapshot t) (links_ascending_ofSnapshot s)
    ((List.perm_ext_iff_of_nodup (hnodup t) (hnodup s)).mpr hmem)

section Rearranged

variable {s t : Snapshot} {extra : List Edge}

theorem links_ofSnapshot_eq
    (hrearranged : s.Rearranged extra t)
    (hidle : ∀ e ∈ extra, e.Idle s) :
    (ofSnapshot t).links = (ofSnapshot s).links := by
  refine links_eq_of_joined_iff hrearranged.sortedIds_eq fun x hx y hy hne => ?_
  exact hrearranged.exists_joined_iff hidle ((sortedIds_perm s).mem_iff.mp hx)
    ((sortedIds_perm s).mem_iff.mp hy) hne

/-- Rearranged snapshots have the same network, up to the counters of edges that
make no link. -/
theorem ofSnapshot_eq_withDiagnostics
    (hrearranged : s.Rearranged extra t)
    (hidle : ∀ e ∈ extra, e.Idle s) :
    ofSnapshot t =
      (ofSnapshot s).withDiagnostics (ofSnapshot t).diagnostics := by
  have hlinks := links_ofSnapshot_eq hrearranged hidle
  have hgraph : (ofSnapshot t).graph = (ofSnapshot s).graph := by
    rw [graph_ofSnapshot, graph_ofSnapshot, hlinks, hrearranged.sortedIds_eq]
  have hnumbers : (ofSnapshot t).numbers = (ofSnapshot s).numbers := by
    change (Roster.ofIds (sortedIds t)).numbers =
      (Roster.ofIds (sortedIds s)).numbers
    rw [hrearranged.sortedIds_eq]
  have hadjacency : (ofSnapshot t).adjacency = (ofSnapshot s).adjacency := by
    rw [adjacency_ofSnapshot, adjacency_ofSnapshot, adjacencyOf, adjacencyOf,
      size, hgraph, ends, linkCount, hlinks]
    rfl
  calc ofSnapshot t
      = ⟨(ofSnapshot t).graph, (ofSnapshot t).numbers, (ofSnapshot t).links,
          (ofSnapshot t).adjacency, (ofSnapshot t).diagnostics⟩ := rfl
    _ = (ofSnapshot s).withDiagnostics (ofSnapshot t).diagnostics := by
        rw [hgraph, hnumbers, hlinks, hadjacency]
        rfl

theorem countP_edges_eq
    (hrearranged : s.Rearranged [] t)
    {p : Edge → Bool} {q : Sym2 String → Bool}
    (hpq : ∀ e, p e = q e.joined) :
    t.edges.countP p = s.edges.countP p := by
  have hcount : ∀ edges : List Edge,
      edges.countP p = (edges.map Edge.joined).countP q := by
    intro edges
    rw [List.countP_map]
    exact List.countP_congr fun e _ => by rw [hpq]; rfl
  have hperm := hrearranged.joined_perm
  rw [List.append_nil] at hperm
  rw [hcount, hcount, hperm.countP_eq]

/-- Without extra edges the counters stay what they were, too. -/
theorem diagnostics_ofSnapshot_eq (hrearranged : s.Rearranged [] t) :
    (ofSnapshot t).diagnostics = (ofSnapshot s).diagnostics := by
  classical
  obtain ⟨taken, htaken, hperm, hdiagnostics⟩ := taken_ofSnapshot s
  obtain ⟨taken', htaken', hperm', hdiagnostics'⟩ := taken_ofSnapshot t
  rw [hrearranged.sortedIds_eq] at htaken'
  have hdropped : taken'.diagnostics.dropped = taken.diagnostics.dropped := by
    rw [htaken'.dropped_eq, htaken.dropped_eq]
    exact countP_edges_eq hrearranged
      (q := fun pair => !decide (∀ id ∈ pair, id ∈ sortedIds s)) fun e => by
        simp only [Edge.known_iff_forall_mem]
  have hloops : taken'.diagnostics.selfLoops = taken.diagnostics.selfLoops := by
    rw [htaken'.selfLoops_eq, htaken.selfLoops_eq]
    exact countP_edges_eq hrearranged
      (q := fun pair =>
        decide ((∀ id ∈ pair, id ∈ sortedIds s) ∧ pair.IsDiag)) fun e => by
        simp only [Edge.known_iff_forall_mem, Edge.source_eq_target_iff]
  have hlinks : taken'.links.length = taken.links.length := by
    rw [← hperm'.length_eq, ← hperm.length_eq,
      links_ofSnapshot_eq hrearranged (by simp)]
  have hlength : t.edges.length = s.edges.length := by
    simpa using hrearranged.joined_perm.length_eq
  have hsum := htaken.sum_eq
  have hsum' := htaken'.sum_eq
  have hduplicates :
      taken'.diagnostics.duplicates = taken.diagnostics.duplicates := by
    omega
  rw [hdiagnostics', hdiagnostics]
  calc taken'.diagnostics
      = ⟨taken'.diagnostics.dropped, taken'.diagnostics.duplicates,
          taken'.diagnostics.selfLoops⟩ := rfl
    _ = taken.diagnostics := by rw [hdropped, hduplicates, hloops]

theorem ofSnapshot_eq_of_rearranged (hrearranged : s.Rearranged [] t) :
    ofSnapshot t = ofSnapshot s := by
  rw [ofSnapshot_eq_withDiagnostics hrearranged (by simp),
    diagnostics_ofSnapshot_eq hrearranged]
  rfl

end Rearranged

end Network

end LinkAnalysis
