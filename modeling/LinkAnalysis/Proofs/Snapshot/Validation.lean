import LinkAnalysis.Proofs.Snapshot.Contract
import LinkAnalysis.Snapshot.Basic

/-!
# Validation

A list of nodes becomes a snapshot unless some id is empty or occurs twice; the
first node at which this shows is the reason of the refusal.  All ways to make a
snapshot lead through this check, and where a text is read the check comes last:
a text that is no document is refused as such, whatever its ids are.
-/

namespace LinkAnalysis

open Json (Tree)

/-! ## The first offence -/

/-- The node at this position has an empty id, or one that was seen before. -/
def OffendsAfter (seen : List String) (nodes : List Node) (i : Nat) : Prop :=
  ∃ node, nodes[i]? = some node ∧
    (node.id = "" ∨ node.id ∈ seen ∨ node.id ∈ (nodes.take i).map Node.id)

/-- The node at this position has an empty id, or that of an earlier node. -/
def Offends (nodes : List Node) (i : Nat) : Prop :=
  ∃ node, nodes[i]? = some node ∧
    (node.id = "" ∨ node.id ∈ (nodes.take i).map Node.id)

def offence (i : Nat) (node : Node) : Fault :=
  if node.id = "" then .emptyNodeId i else .duplicateNode node.id

theorem offendsAfter_zero
    {seen : List String} {node : Node} {more : List Node} :
    OffendsAfter seen (node :: more) 0 ↔ node.id = "" ∨ node.id ∈ seen := by
  simp [OffendsAfter]

theorem offendsAfter_succ
    {seen : List String} {node : Node} {more : List Node} {i : Nat} :
    OffendsAfter seen (node :: more) (i + 1) ↔
      OffendsAfter (node.id :: seen) more i := by
  simp [OffendsAfter, or_assoc, or_left_comm]

theorem offendsAfter_nil {nodes : List Node} {i : Nat} :
    OffendsAfter [] nodes i ↔ Offends nodes i := by
  simp [OffendsAfter, Offends]

theorem isLeast_succ_iff
    {S : Set Nat}
    (hzero : 0 ∉ S)
    {i : Nat} :
    IsLeast S (i + 1) ↔ IsLeast {j | j + 1 ∈ S} i := by
  refine and_congr Iff.rfl ⟨fun hmem j hj => Nat.le_of_succ_le_succ (hmem hj),
    fun hmem j hj => ?_⟩
  cases j with
  | zero => exact absurd hj hzero
  | succ j => exact Nat.succ_le_succ (hmem hj)

theorem firstOffence_cons_of_offends
    {seen : List String} {first : Node}
    (heither : first.id = "" ∨ first.id ∈ seen)
    (index : Nat) (more : List Node) :
    firstOffence seen index (first :: more) = some (offence index first) := by
  rw [firstOffence, offence]
  split_ifs with hempty hseen
  · rfl
  · rfl
  · exact absurd heither (not_or.mpr ⟨hempty, hseen⟩)

theorem firstOffence_cons_of_not_offends
    {seen : List String} {first : Node}
    (hallowed : ¬ (first.id = "" ∨ first.id ∈ seen))
    (index : Nat) (more : List Node) :
    firstOffence seen index (first :: more) =
      firstOffence (first.id :: seen) (index + 1) more := by
  rw [firstOffence, if_neg fun hempty => hallowed (Or.inl hempty),
    if_neg fun hseen => hallowed (Or.inr hseen)]

/-- The check stops at the least position with an offence. -/
theorem firstOffence_eq_some_iff
    {seen : List String} {index : Nat} {nodes : List Node} {fault : Fault} :
    firstOffence seen index nodes = some fault ↔ ∃ i node,
      IsLeast {j | OffendsAfter seen nodes j} i ∧
      nodes[i]? = some node ∧
      fault = offence (index + i) node := by
  induction nodes generalizing seen index with
  | nil => simp [firstOffence]
  | cons first more ih =>
      by_cases hfirst : first.id = "" ∨ first.id ∈ seen
      · have hleast : IsLeast {j | OffendsAfter seen (first :: more) j} 0 :=
          ⟨offendsAfter_zero.mpr hfirst, fun _ _ => Nat.zero_le _⟩
        rw [firstOffence_cons_of_offends hfirst, Option.some_inj]
        constructor
        · rintro rfl
          exact ⟨0, first, hleast, rfl, rfl⟩
        · rintro ⟨i, node, hi, hnode, rfl⟩
          obtain rfl := hi.unique hleast
          rw [Option.some_inj.mp hnode]
          rfl
      · have hzero : 0 ∉ {j | OffendsAfter seen (first :: more) j} :=
          fun hmem => hfirst (offendsAfter_zero.mp hmem)
        have hsucc : {j | j + 1 ∈ {j | OffendsAfter seen (first :: more) j}} =
            {j | OffendsAfter (first.id :: seen) more j} :=
          Set.ext fun _ => offendsAfter_succ
        have hshift : ∀ i, index + 1 + i = index + (i + 1) := fun i => by omega
        rw [firstOffence_cons_of_not_offends hfirst, ih]
        simp only [← hsucc, ← isLeast_succ_iff hzero, hshift]
        constructor
        · rintro ⟨i, node, hi, hnode, hfault⟩
          exact ⟨i + 1, node, hi, hnode, hfault⟩
        · rintro ⟨i, node, hi, hnode, hfault⟩
          cases i with
          | zero => exact absurd hi.1 hzero
          | succ i => exact ⟨i, node, hi, hnode, hfault⟩

/-! ## Lists -/

/-- What came of the making of a snapshot from these lists. -/
structure Validates (nodes : List Node) (edges : List Edge)
    (outcome : Except Fault Snapshot) : Prop where
  accepts_iff : (∃ s, outcome = .ok s) ↔
    (∀ node ∈ nodes, node.id ≠ "") ∧ (nodes.map Node.id).Nodup
  unchanged : ∀ s, outcome = .ok s → s.nodes = nodes ∧ s.edges = edges
  refuses_iff : ∀ fault, outcome = .error fault ↔ ∃ i node,
    IsLeast {j | Offends nodes j} i ∧
    nodes[i]? = some node ∧
    fault = offence i node

namespace Snapshot

theorem validates_ofLists (nodes : List Node) (edges : List Edge) :
    Validates nodes edges (ofLists nodes edges) := by
  have hrefuses : ∀ fault, firstOffence [] 0 nodes = some fault ↔ ∃ i node,
      IsLeast {j | Offends nodes j} i ∧
      nodes[i]? = some node ∧
      fault = offence i node := by
    intro fault
    simp only [firstOffence_eq_some_iff, offendsAfter_nil, Nat.zero_add]
  have haccepts : firstOffence [] 0 nodes = none ↔
      (∀ node ∈ nodes, node.id ≠ "") ∧ (nodes.map Node.id).Nodup :=
    ⟨fun hoffence => ⟨id_ne_empty_of_firstOffence hoffence,
        nodup_of_firstOffence hoffence⟩, fun hboth =>
      firstOffence_eq_none hboth.1 hboth.2 fun _ _ => List.not_mem_nil⟩
  unfold ofLists
  split
  case h_1 found hfound =>
    rw [hfound] at hrefuses haccepts
    exact
      { accepts_iff :=
          iff_of_false (by simp) fun hboth => nomatch haccepts.mpr hboth
        unchanged := fun s hok => nomatch hok
        refuses_iff := fun fault => by
          rw [← hrefuses fault, Except.error.injEq, Option.some_inj] }
  case h_2 hnone =>
    rw [hnone] at hrefuses haccepts
    exact
      { accepts_iff := iff_of_true ⟨_, rfl⟩ (haccepts.mp rfl)
        unchanged := fun s hok => by
          obtain rfl := Except.ok.inj hok
          exact ⟨rfl, rfl⟩
        refuses_iff := fun fault =>
          (iff_of_false (fun hok => nomatch hok)
            (fun hfalse => nomatch hfalse)).trans (hrefuses fault) }

end Snapshot

/-! ## Documents -/

/-- What came of the reading of something that may be a document of some nodes
and edges. -/
structure Judges (IsDocument : List Node → List Edge → Prop)
    (outcome : Except Fault Snapshot) : Prop where
  validates :
    ∀ nodes edges, IsDocument nodes edges → Validates nodes edges outcome
  invalid_iff : (∃ detail, outcome = .error (.invalidSnapshot detail)) ↔
    ¬ ∃ nodes edges, IsDocument nodes edges

theorem offence_ne_invalidSnapshot
    (i : Nat) (node : Node) (detail : String) :
    offence i node ≠ .invalidSnapshot detail := by
  rw [offence]
  split_ifs <;> simp

namespace Snapshot

theorem judges_ofReadLists
    {IsDocument : List Node → List Edge → Prop}
    {lists : Except Json.Misread (List Node × List Edge)}
    (hlists : ∀ nodes edges,
      lists = .ok (nodes, edges) ↔ IsDocument nodes edges) :
    Judges IsDocument (ofReadLists lists) := by
  cases lists with
  | error reason =>
      have hnone : ∀ nodes edges, ¬ IsDocument nodes edges :=
        fun nodes edges hdocument => nomatch (hlists nodes edges).mpr hdocument
      exact
        { validates := fun nodes edges hdocument =>
            absurd hdocument (hnone nodes edges)
          invalid_iff := iff_of_true ⟨_, rfl⟩ fun ⟨nodes, edges, hdocument⟩ =>
            hnone nodes edges hdocument }
  | ok lists =>
      obtain ⟨nodes, edges⟩ := lists
      have hvalidates := validates_ofLists nodes edges
      exact
        { validates := fun others ends hdocument => by
            obtain ⟨rfl, rfl⟩ :=
              Prod.mk.inj (Except.ok.inj ((hlists others ends).mpr hdocument))
            exact hvalidates
          invalid_iff := by
            refine iff_of_false ?_ fun hnone =>
              hnone ⟨nodes, edges, (hlists nodes edges).mp rfl⟩
            rintro ⟨detail, hdetail⟩
            obtain ⟨i, node, -, -, hfault⟩ :=
              (hvalidates.refuses_iff _).mp hdetail
            exact offence_ne_invalidSnapshot i node detail hfault.symm }

theorem judges_ofSymbols (text : List Text.Symbol) :
    Judges (fun nodes edges => Documents nodes edges text) (ofSymbols text) :=
  judges_ofReadLists fun _ _ => listsOfSymbols_eq_ok_iff

theorem judges_ofText (text : String) :
    Judges (fun nodes edges =>
      ∃ tree : Tree, tree.Spells text ∧ tree.Fits (documentForms nodes edges))
      (ofText text) := by
  have hjudges := judges_ofSymbols (Text.symbolsOfString text)
  simp only [Documents, Json.inscribes_symbolsOfString] at hjudges
  exact hjudges

/-- However a snapshot is made from a list of nodes and a list of edges, the
check finds the first offence and nothing else is wrong with the lists; a text
or a value that is no document of such lists is refused for that reason alone;
and every snapshot passes the check, as its nodes have distinct ids that are not
empty. -/
theorem validates_and_judges :
    (∀ nodes edges, Validates nodes edges (ofLists nodes edges)) ∧
      (∀ ids pairs, Validates (ids.map Node.bare)
        (pairs.map fun p => Edge.bare p.1 p.2) (ofPairs ids pairs)) ∧
      (∀ (s : Snapshot) ids pairs, Validates (s.nodes ++ ids.map Node.bare)
        (s.edges ++ pairs.map fun p => Edge.bare p.1 p.2)
        (s.extend ids pairs)) ∧
      (∀ tree : Tree, Judges (fun nodes edges =>
        tree.Fits (documentForms nodes edges)) (ofDraft tree.draft)) ∧
      (∀ text : String, Judges (fun nodes edges =>
        ∃ tree : Tree, tree.Spells text ∧ tree.Fits (documentForms nodes edges))
        (ofText text)) ∧
      (∀ bytes : ByteArray, Judges (fun nodes edges =>
        Documents nodes edges (Text.symbolsOfBytes bytes)) (ofBytes bytes)) ∧
      ∀ s : Snapshot,
        ofLists s.nodes s.edges = .ok s ∧
        (∀ node ∈ s.nodes, node.id ≠ "") ∧
        (s.nodes.map Node.id).Nodup :=
  ⟨validates_ofLists, fun _ _ => validates_ofLists _ _,
    fun _ _ _ => validates_ofLists _ _, fun _ => judges_ofReadLists fun _ _ =>
    listsOfDraft_eq_ok_iff, judges_ofText, fun _ => judges_ofSymbols _,
    fun s => ⟨ofLists_eq_ok s, s.id_ne_empty, s.ids_nodup⟩⟩

/-- An empty id early in a text gives way to a field that is missing at its
end. -/
example : ofText
  "\x7b\"nodes\":[\x7b\"id\":\"\"\x7d],\"edges\":[\x7b\"from\":\"\"\x7d]\x7d" =
  .error (.invalidSnapshot "missing field `to`") := by
  rfl

end Snapshot

end LinkAnalysis
