import LinkAnalysis.Proofs.Network.Intake
import LinkAnalysis.Proofs.Network.LinkGraph
import LinkAnalysis.Proofs.Text.ByteOrder

/-!
# The canonical graph of a snapshot

The network of a snapshot has the ids in ascending order and one link for every
unordered pair of different ids that some edge joins.  Its list of links, its
adjacency and its plain graph describe the same graph, and every edge of the
snapshot is counted once.
-/

namespace LinkAnalysis

/-- The strict order of links: by the bytes of the key, then by ends. -/
def Link.Precedes (x y : Link) : Prop :=
  utf8Bytes x.key < utf8Bytes y.key ∨
    x.key = y.key ∧ (x.low < y.low ∨ x.low = y.low ∧ x.high < y.high)

theorem Link.le_iff {x y : Link} :
    x.le y = true ↔ x.key < y.key ∨
      x.key = y.key ∧ (x.low < y.low ∨ x.low = y.low ∧ x.high ≤ y.high) := by
  simp [Link.le]

theorem Link.le_trans
    {x y z : Link}
    (hxy : x.le y = true)
    (hyz : y.le z = true) :
    x.le z = true := by
  rw [Link.le_iff] at *
  rcases hxy with hxy | ⟨hxy, hxy'⟩
  · rcases hyz with hyz | ⟨hyz, -⟩
    · exact Or.inl (hxy.trans hyz)
    · exact Or.inl (hyz ▸ hxy)
  · rcases hyz with hyz | ⟨hyz, hyz'⟩
    · exact Or.inl (hxy ▸ hyz)
    · exact Or.inr ⟨hxy.trans hyz, by omega⟩

theorem Link.le_total (x y : Link) : (x.le y || y.le x) = true := by
  rw [Bool.or_eq_true, Link.le_iff, Link.le_iff]
  rcases lt_trichotomy x.key y.key with hlt | hkey | hlt
  · exact Or.inl (Or.inl hlt)
  · rcases Nat.lt_or_ge x.low y.low with hlow | hlow
    · exact Or.inl (Or.inr ⟨hkey, Or.inl hlow⟩)
    · rcases Nat.lt_or_ge y.low x.low with hlow' | hlow'
      · exact Or.inr (Or.inr ⟨hkey.symm, Or.inl hlow'⟩)
      · rcases Nat.le_total x.high y.high with hhigh | hhigh
        · exact Or.inl (Or.inr ⟨hkey, by omega⟩)
        · exact Or.inr (Or.inr ⟨hkey.symm, by omega⟩)
  · exact Or.inr (Or.inl hlt)

theorem Link.pairwise_mergeSort (links : List Link) :
    (links.mergeSort Link.le).Pairwise fun x y => x.le y = true :=
  @List.pairwise_mergeSort _ Link.le
    (fun _ _ _ => Link.le_trans) Link.le_total links

theorem Link.precedes_of_le
    {x y : Link}
    (hle : x.le y = true)
    (hne : x.ends ≠ y.ends) :
    x.Precedes y := by
  rcases Link.le_iff.mp hle with hkey | ⟨hkey, hends⟩
  · exact Or.inl (utf8Bytes_lt_iff.mpr hkey)
  · have hpair : x.low = y.low → x.high ≠ y.high :=
      fun hlow hhigh => hne (Prod.ext hlow hhigh)
    exact Or.inr ⟨hkey, by omega⟩

theorem foldl_addEdge (links : List (Link × Nat)) (g : PlainGraph) :
    links.foldl (fun g (l, position) => g.addEdge l.low l.high position) g =
      { g with
        edges := g.edges ++ (links.map fun (l, position) =>
          (l.low, l.high, position)).toArray } := by
  induction links generalizing g with
  | nil => simp
  | cons link more ih =>
      rw [List.foldl_cons, ih]
      simp [PlainGraph.addEdge]

namespace Network

variable (s : Snapshot)

/-! ## Nodes -/

theorem sortedIds_perm : (sortedIds s).Perm (s.nodes.map Node.id) :=
  List.mergeSort_perm _ _

theorem sortedIds_ascending : (sortedIds s).Pairwise (· < ·) := by
  have hle : (sortedIds s).Pairwise fun x y => decide (x ≤ y) = true :=
    List.pairwise_mergeSort (fun x y z hxy hyz =>
      decide_eq_true ((of_decide_eq_true hxy).trans (of_decide_eq_true hyz)))
      (fun x y => by simpa using le_total x y) _
  have hne : (sortedIds s).Nodup := (sortedIds_perm s).nodup_iff.mpr s.ids_nodup
  exact (hle.and hne).imp fun hboth =>
    lt_of_le_of_ne (of_decide_eq_true hboth.1) hboth.2

theorem sortedIds_nodup : (sortedIds s).Nodup :=
  (sortedIds_ascending s).imp ne_of_lt

theorem graph_ofSnapshot :
    (ofSnapshot s).graph =
      { names := (sortedIds s).toArray
        edges := ((ofSnapshot s).links.toList.zipIdx.map fun (l, position) =>
          (l.low, l.high, position)).toArray } := by
  simp only [ofSnapshot]
  rw [foldl_addEdge, Roster.names_ofIds, Roster.edges_ofIds, Array.empty_append]

theorem ids_ofSnapshot : (ofSnapshot s).ids = (sortedIds s).toArray := by
  rw [ids, graph_ofSnapshot]

theorem size_ofSnapshot : (ofSnapshot s).size = (sortedIds s).length := by
  rw [size, PlainGraph.nodeCount, graph_ofSnapshot, List.size_toArray]

theorem numbers_ofSnapshot : Numbers (sortedIds s) (ofSnapshot s).numbers :=
  fun _ _ => Roster.lookup_numbers_ofIds (sortedIds_nodup s)

theorem getElem?_sortedIds_iff {v : Nat} {id : String} :
    (sortedIds s)[v]? = some id ↔
      v < (ofSnapshot s).size ∧ (ofSnapshot s).idOf v = id := by
  rw [size_ofSnapshot, idOf, ids_ofSnapshot, List.getElem?_eq_some_iff]
  constructor
  · rintro ⟨hlt, rfl⟩
    exact ⟨hlt, by simp [hlt]⟩
  · rintro ⟨hlt, rfl⟩
    exact ⟨hlt, by simp [hlt]⟩

/-! ## Links -/

theorem links_ofSnapshot :
    (ofSnapshot s).links.toList =
      (s.edges.foldl (Intake.take (ofSnapshot s).numbers)
          ⟨[], ⟨0, 0, 0⟩⟩).links.reverse.mergeSort Link.le :=
  rfl

theorem taken_ofSnapshot :
    ∃ t : Intake,
      Taken (sortedIds s) s.edges t ∧
      (ofSnapshot s).links.toList.Perm t.links ∧
      (ofSnapshot s).diagnostics = t.diagnostics := by
  refine ⟨_, Taken.foldl_take (sortedIds_ascending s)
    (numbers_ofSnapshot s) s.edges, ?_, rfl⟩
  rw [links_ofSnapshot]
  exact (List.mergeSort_perm _ _).trans (List.reverse_perm _)

theorem ends_nodup_ofSnapshot :
    ((ofSnapshot s).links.toList.map Link.ends).Nodup := by
  obtain ⟨t, htaken, hperm, -⟩ := taken_ofSnapshot s
  exact (hperm.map Link.ends).nodup_iff.mpr htaken.ends_nodup

theorem links_ascending_ofSnapshot :
    (ofSnapshot s).links.toList.Pairwise Link.Precedes := by
  have hle : (ofSnapshot s).links.toList.Pairwise fun x y => x.le y = true := by
    rw [links_ofSnapshot]
    exact Link.pairwise_mergeSort _
  have hne := List.pairwise_map.mp (ends_nodup_ofSnapshot s)
  exact (hle.and hne).imp fun hboth => Link.precedes_of_le hboth.1 hboth.2

theorem link_ofSnapshot {l : Link} (hl : l ∈ (ofSnapshot s).links) :
    l.low < l.high ∧
      l.high < (ofSnapshot s).size ∧
      l.key =
        (ofSnapshot s).idOf l.low ++ "|" ++ (ofSnapshot s).idOf l.high := by
  obtain ⟨t, htaken, hperm, -⟩ := taken_ofSnapshot s
  have hmem := hperm.mem_iff.mp (Array.mem_toList_iff.mpr hl)
  obtain ⟨x, y, hx, hy, hkey⟩ := htaken.key_eq l hmem
  obtain ⟨-, rfl⟩ := (getElem?_sortedIds_iff s).mp hx
  obtain ⟨hlt, rfl⟩ := (getElem?_sortedIds_iff s).mp hy
  exact ⟨htaken.low_lt_high l hmem, hlt, hkey⟩

theorem getElem?_ends {net : Network} {position a b : Nat} :
    net.ends[position]? = some (a, b) ↔
      ∃ l, net.links[position]? = some l ∧ l.low = a ∧ l.high = b := by
  simp [ends, Link.ends]

@[simp] theorem size_ends (net : Network) : net.ends.size = net.linkCount := by
  simp [ends, linkCount]

theorem simpleEnds_ofSnapshot :
    SimpleEnds (ofSnapshot s).size (ofSnapshot s).ends := by
  refine ⟨fun hget => ?_, fun hget => ?_, fun {p q pair} hp hq => ?_⟩
  · obtain ⟨l, hl, rfl, rfl⟩ := getElem?_ends.mp hget
    exact (link_ofSnapshot s (Array.mem_of_getElem? hl)).1
  · obtain ⟨l, hl, rfl, rfl⟩ := getElem?_ends.mp hget
    exact (link_ofSnapshot s (Array.mem_of_getElem? hl)).2.1
  · have hnodup : (ofSnapshot s).ends.toList.Nodup := by
      rw [ends, Array.toList_map]
      exact ends_nodup_ofSnapshot s
    rw [← Array.getElem?_toList] at hp hq
    obtain ⟨hlt, -⟩ := List.getElem?_eq_some_iff.mp hp
    exact (List.getElem?_inj hlt hnodup).mp (hp.trans hq.symm)

theorem activeLinks_of_nodup
    {net : Network} {active : List Nat}
    (hnodup : active.Nodup)
    (hlt : ∀ position ∈ active, position < net.linkCount) :
    ActiveLinks net.ends active :=
  ⟨hnodup, fun position hmem => by simpa using hlt position hmem⟩

theorem activeLinks_range (net : Network) :
    ActiveLinks net.ends (List.range net.linkCount) :=
  activeLinks_of_nodup List.nodup_range fun _ => List.mem_range.mp

theorem adjacency_ofSnapshot :
    (ofSnapshot s).adjacency =
      (ofSnapshot s).adjacencyOf (List.range (ofSnapshot s).linkCount) := by
  rw [adjacencyOf, size_ofSnapshot]
  simp only [ofSnapshot, ends, linkCount, List.map_toArray, List.size_toArray]

theorem size_adjacency_ofSnapshot :
    (ofSnapshot s).adjacency.size = (ofSnapshot s).size := by
  rw [adjacency_ofSnapshot, adjacencyOf, Adjacency.size_ofEnds]

theorem lt_size_adjacency_ofSnapshot (v : Fin (ofSnapshot s).size) :
    v.val < (ofSnapshot s).adjacency.size :=
  v.isLt.trans_eq (size_adjacency_ofSnapshot s).symm

theorem closed_adjacency_ofSnapshot : (ofSnapshot s).adjacency.Closed := by
  rw [adjacency_ofSnapshot]
  exact ((simpleEnds_ofSnapshot s).inRange (activeLinks_range _)).closed

theorem degree_ofSnapshot (v : Fin (ofSnapshot s).size) :
    (ofSnapshot s).adjacency.degree v.val =
      ((ofSnapshot s).wholeGraph.neighborSet v).ncard := by
  rw [adjacency_ofSnapshot]
  exact (simpleEnds_ofSnapshot s).degree_ofEnds
    (activeLinks_range (ofSnapshot s)) v

/-! ## The whole network -/

/-- A network is the canonical graph of a snapshot. -/
structure Canonical (net : Network) : Prop where
  /-- Nodes are numbered in the order of the bytes of their ids. -/
  ids_ascending : net.ids.toList.Pairwise fun x y => utf8Bytes x < utf8Bytes y
  ids_perm : net.ids.toList.Perm (s.nodes.map Node.id)
  indexOf?_eq_some_iff : ∀ id v,
    net.indexOf? id = some v ↔ v < net.size ∧ net.idOf v = id
  indexOf?_isSome_iff : ∀ id,
    (net.indexOf? id).isSome ↔ id ∈ s.nodes.map Node.id
  /-- Links are the unordered pairs of different ids that some edge joins. -/
  exists_link_iff : ∀ a b, a < b → b < net.size →
    ((∃ l ∈ net.links, l.low = a ∧ l.high = b) ↔
      ∃ e ∈ s.edges, e.joined = s(net.idOf a, net.idOf b))
  low_lt_high : ∀ l ∈ net.links, l.low < l.high ∧ l.high < net.size
  key_eq : ∀ l ∈ net.links, l.key = net.idOf l.low ++ "|" ++ net.idOf l.high
  ends_nodup : (net.links.toList.map Link.ends).Nodup
  links_ascending : net.links.toList.Pairwise Link.Precedes
  /-- The plain graph, the numbers of ids and the adjacency describe the same
  graph. -/
  graph_names : net.graph.names = net.ids
  graph_edges : net.graph.edges.toList =
    net.links.toList.zipIdx.map fun (l, position) => (l.low, l.high, position)
  numbers_perm : net.numbers.Perm net.ids.toList.zipIdx
  size_adjacency : net.adjacency.size = net.size
  mem_neighbors_iff : ∀ v w position,
    (w, position) ∈ net.adjacency.neighbors v ↔
      ∃ l, net.links[position]? = some l ∧ (l.ends = (v, w) ∨ l.ends = (w, v))
  neighbors_comm : ∀ v w position, (w, position) ∈ net.adjacency.neighbors v ↔
    (v, position) ∈ net.adjacency.neighbors w
  neighbors_irrefl : ∀ v position, (v, position) ∉ net.adjacency.neighbors v
  neighbors_ascending : ∀ v,
    (net.adjacency.neighbors v).toList.Pairwise fun x y => x.1 < y.1
  /-- Every edge is a link, or is counted in one class. -/
  dropped_eq : net.diagnostics.dropped =
    s.edges.countP fun e => !decide (e.Known (s.nodes.map Node.id))
  selfLoops_eq : net.diagnostics.selfLoops = s.edges.countP fun e =>
    decide (e.Known (s.nodes.map Node.id) ∧ e.source = e.target)
  duplicates_eq : net.diagnostics.duplicates =
    repeatCount (s.nodes.map Node.id) s.edges
  sum_eq : net.diagnostics.dropped + net.diagnostics.selfLoops +
      net.diagnostics.duplicates + net.linkCount = s.edges.length

theorem mem_neighbors_ofSnapshot_iff {v w position : Nat} :
    (w, position) ∈ (ofSnapshot s).adjacency.neighbors v ↔
      ∃ l, (ofSnapshot s).links[position]? = some l ∧
        (l.ends = (v, w) ∨ l.ends = (w, v)) := by
  have hends := simpleEnds_ofSnapshot s
  rw [adjacency_ofSnapshot, adjacencyOf, Adjacency.mem_neighbors_ofEnds,
    List.mem_range]
  constructor
  · rintro ⟨-, -, hget | hget⟩
    · obtain ⟨l, hl, rfl, rfl⟩ := getElem?_ends.mp hget
      exact ⟨l, hl, Or.inl rfl⟩
    · obtain ⟨l, hl, rfl, rfl⟩ := getElem?_ends.mp hget
      exact ⟨l, hl, Or.inr rfl⟩
  · rintro ⟨l, hl, hpair⟩
    have hlt : position < (ofSnapshot s).linkCount :=
      (Array.getElem?_eq_some_iff.mp hl).1
    obtain ⟨hlow, hhigh, -⟩ := link_ofSnapshot s (Array.mem_of_getElem? hl)
    rcases hpair with hpair | hpair
    · obtain ⟨rfl, rfl⟩ := Prod.mk.inj hpair
      exact ⟨hlow.trans hhigh, hlt,
        Or.inl (getElem?_ends.mpr ⟨l, hl, rfl, rfl⟩)⟩
    · obtain ⟨rfl, rfl⟩ := Prod.mk.inj hpair
      exact ⟨hhigh, hlt, Or.inr (getElem?_ends.mpr ⟨l, hl, rfl, rfl⟩)⟩

theorem known_congr
    {ids ids' : List String}
    (hperm : ids.Perm ids')
    (e : Edge) :
    e.Known ids ↔ e.Known ids' :=
  and_congr hperm.mem_iff hperm.mem_iff

theorem repeatCount_congr
    {ids ids' : List String}
    (hperm : ids.Perm ids')
    (edges : List Edge) :
    repeatCount ids edges = repeatCount ids' edges := by
  have hrepeats : Repeats ids edges = Repeats ids' edges := by
    funext position
    simp only [Repeats, Edge.Proper, known_congr hperm]
  rw [repeatCount, repeatCount, hrepeats]

/-- The network of a snapshot is its canonical graph. -/
theorem canonical_ofSnapshot : Canonical s (ofSnapshot s) := by
  have hperm := sortedIds_perm s
  have hends := simpleEnds_ofSnapshot s
  have hids : (ofSnapshot s).ids.toList = sortedIds s := by rw [ids_ofSnapshot]
  have hget : ∀ {v : Nat}, v < (ofSnapshot s).size →
      (sortedIds s)[v]? = some ((ofSnapshot s).idOf v) :=
    fun hlt => (getElem?_sortedIds_iff s).mpr ⟨hlt, rfl⟩
  obtain ⟨t, htaken, hlinks, hdiagnostics⟩ := taken_ofSnapshot s
  refine
    { ids_ascending := ?_
      ids_perm := ?_
      indexOf?_eq_some_iff := fun id v => ?_
      indexOf?_isSome_iff := fun id => ?_
      exists_link_iff := fun a b hab hb => ?_
      low_lt_high := fun l hl => ?_
      key_eq := fun l hl => (link_ofSnapshot s hl).2.2
      ends_nodup := ends_nodup_ofSnapshot s
      links_ascending := links_ascending_ofSnapshot s
      graph_names := rfl
      graph_edges := by rw [graph_ofSnapshot]
      numbers_perm := ?_
      size_adjacency := ?_
      mem_neighbors_iff := fun v w position => mem_neighbors_ofSnapshot_iff s
      neighbors_comm := fun v w position => ?_
      neighbors_irrefl := fun v position hmem => ?_
      neighbors_ascending := fun v => ?_
      dropped_eq := ?_
      selfLoops_eq := ?_
      duplicates_eq := ?_
      sum_eq := ?_ }
  · rw [hids]
    exact (sortedIds_ascending s).imp utf8Bytes_lt_iff.mpr
  · rw [hids]
    exact hperm
  · rw [indexOf?, numbers_ofSnapshot s, getElem?_sortedIds_iff]
  · rw [indexOf?, ← hperm.mem_iff, ← Option.ne_none_iff_isSome, ne_eq,
      (numbers_ofSnapshot s).lookup_eq_none_iff, not_not]
  · rw [← htaken.exists_link_iff hab (hget (hab.trans hb)) (hget hb),
      ← (hlinks.map Link.ends).mem_iff]
    simp [Link.ends]
  · obtain ⟨hlow, hhigh, -⟩ := link_ofSnapshot s hl
    exact ⟨hlow, hhigh⟩
  · rw [hids]
    change (Roster.ofIds (sortedIds s)).numbers.Perm _
    rw [Roster.numbers_ofIds]
    exact List.reverse_perm _
  · exact size_adjacency_ofSnapshot s
  · rw [mem_neighbors_ofSnapshot_iff, mem_neighbors_ofSnapshot_iff]
    exact exists_congr fun l => and_congr_right fun _ => or_comm
  · obtain ⟨l, hl, hpair⟩ := (mem_neighbors_ofSnapshot_iff s).mp hmem
    obtain ⟨hlow, -, -⟩ := link_ofSnapshot s (Array.mem_of_getElem? hl)
    obtain ⟨rfl, heq⟩ := Prod.mk.inj (hpair.elim id id)
    exact hlow.ne heq.symm
  · rw [adjacency_ofSnapshot]
    exact hends.neighbors_ascending (activeLinks_range _) v
  · rw [hdiagnostics, htaken.dropped_eq]
    exact List.countP_congr fun e _ => by simp [known_congr hperm]
  · rw [hdiagnostics, htaken.selfLoops_eq]
    exact List.countP_congr fun e _ => by simp [known_congr hperm]
  · rw [hdiagnostics, htaken.duplicates_eq, repeatCount_congr hperm]
  · have hlength : (ofSnapshot s).linkCount = t.links.length := hlinks.length_eq
    rw [hdiagnostics, hlength]
    exact htaken.sum_eq

end Network

end LinkAnalysis
