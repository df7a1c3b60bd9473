import LinkAnalysis.Proofs.Json.Fitting
import LinkAnalysis.Proofs.Json.Recognition
import LinkAnalysis.Proofs.Snapshot.Spelling

/-!
# Documents

A document is a JSON text of a list of nodes and a list of edges.  Whether a
text is one has nothing to do with the ids in it: everything that is
structurally wrong with a text, wherever it stands, shows before any id is
looked at, and nothing else does.
-/

namespace LinkAnalysis

open Json (Draft FieldForm Member Misread Tree readList)

/-- A list with a value of this form for each of these. -/
def rowsForm {γ : Type} (name : String) (forms : γ → List FieldForm)
    (values : List γ) : FieldForm :=
  ⟨[name], False, fun tree => ∃ items, tree = .list items ∧
    List.Forall₂ (fun value item => item.Fits (forms value)) values items⟩

namespace Snapshot

def documentForms (nodes : List Node) (edges : List Edge) : List FieldForm :=
  [rowsForm "nodes" Node.forms nodes, rowsForm "edges" Edge.forms edges]

/-- These symbols are a document of these nodes and edges. -/
def Documents (nodes : List Node) (edges : List Edge)
    (text : List Text.Symbol) : Prop :=
  ∃ tree : Tree, tree.Inscribes text ∧ tree.Fits (documentForms nodes edges)

end Snapshot

theorem readList_eq_ok_iff_rows
    {γ : Type} {read : Draft → Except Misread γ} {forms : γ → List FieldForm}
    (hread : ∀ (tree : Tree) (value : γ),
      read tree.draft = .ok value ↔ tree.Fits (forms value))
    (tree : Tree) (values : List γ) :
    readList read tree.draft = .ok values ↔ ∃ items,
      tree = .list items ∧
      List.Forall₂ (fun value item => item.Fits (forms value))
        values items := by
  cases tree with
  | list items =>
      have hrows :
          List.Forall₂ (fun item value => read item.draft = .ok value)
            items values ↔
          List.Forall₂ (fun value item => item.Fits (forms value))
            values items :=
        ⟨fun hforall =>
          hforall.flip.imp fun value item => (hread item value).mp,
        fun hforall =>
          hforall.flip.imp fun item value => (hread item value).mpr⟩
      rw [Tree.draft, Json.itemDrafts_eq_map, Json.readList_eq_ok_iff,
        List.forall₂_map_left_iff, hrows]
      simp
  | _ => simp [Tree.draft, readList]

theorem reads_rowsForm
    {γ : Type} {read : Draft → Except Misread γ} {forms : γ → List FieldForm}
    (hread : ∀ (tree : Tree) (value : γ), read tree.draft = .ok value ↔
      tree.Fits (forms value))
    {part : List γ → Snapshot.Part}
    (hpart : Function.Injective part)
    (name : String) (values : List γ) :
    (⟨name, none, none, fun d => (readList read d).map part⟩ : Member
        Snapshot.Part).Reads (rowsForm name forms values) (part values) where
  answersTo_iff label := by simp [Member.answersTo, rowsForm]
  absent_iff := by simp [rowsForm]
  read_iff tree := by
    refine Iff.trans ?_ (readList_eq_ok_iff_rows hread tree values)
    change (readList read tree.draft).map part = .ok (part values) ↔ _
    cases readList read tree.draft <;> simp [Except.map, hpart.eq_iff]

namespace Snapshot

theorem listsOfDraft_eq_ok_iff
    {tree : Tree} {nodes : List Node} {edges : List Edge} :
    listsOfDraft tree.draft = .ok (nodes, edges) ↔
      tree.Fits (documentForms nodes edges) := by
  have hnodes : Function.Injective Part.nodes :=
    fun _ _ heq => Part.nodes.inj heq
  have hedges : Function.Injective Part.edges :=
    fun _ _ heq => Part.edges.inj heq
  have hreads :
      List.Forall₂ (fun (member : Member Part) (content : FieldForm × Part) =>
      member.Reads content.1 content.2) fields
      [(rowsForm "nodes" Node.forms nodes, .nodes nodes),
        (rowsForm "edges" Edge.forms edges, .edges edges)] :=
    .cons (reads_rowsForm (fun _ _ => Node.ofDraft_eq_ok_iff) hnodes "nodes"
      nodes) (.cons (reads_rowsForm (fun _ _ => Edge.ofDraft_eq_ok_iff) hedges
        "edges" edges) .nil)
  have hparts : ∀ parts, listsOfParts parts = .ok (nodes, edges) ↔
      parts = [.nodes nodes, .edges edges] := by
    intro parts
    unfold listsOfParts
    split
    case h_1 => simp
    case h_2 hne => exact iff_of_false (by simp) fun hlists => hne _ _ hlists
  exact (bind_eq_ok_iff hparts).trans
    (Member.readRecord_eq_ok_iff_fits hreads fields_distinct)

theorem listsOfSymbols_eq_ok_iff
    {text : List Text.Symbol} {nodes : List Node} {edges : List Edge} :
    listsOfSymbols text = .ok (nodes, edges) ↔ Documents nodes edges text := by
  have hwhole : listsOfSymbols text = .ok (nodes, edges) ↔
      ∃ draft, Json.read text = ⟨draft, true⟩ ∧
        listsOfDraft draft = .ok (nodes, edges) := by
    rw [listsOfSymbols]
    obtain ⟨draft, whole⟩ := Json.read text
    cases hlists : listsOfDraft draft with
    | error e => simp [hlists]
    | ok lists => cases whole <;> simp [hlists]
  rw [hwhole]
  constructor
  · rintro ⟨draft, hread, hlists⟩
    obtain ⟨tree, htext, rfl⟩ := Json.read_eq_whole_iff.mp hread
    exact ⟨tree, htext, listsOfDraft_eq_ok_iff.mp hlists⟩
  · rintro ⟨tree, htext, hfits⟩
    exact ⟨tree.draft, Json.read_eq_whole_iff.mpr ⟨tree, htext, rfl⟩,
      listsOfDraft_eq_ok_iff.mpr hfits⟩

end Snapshot

end LinkAnalysis
