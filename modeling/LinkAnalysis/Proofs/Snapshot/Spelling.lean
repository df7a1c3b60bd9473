import LinkAnalysis.Proofs.Json.Fitting
import LinkAnalysis.Proofs.Json.Writing
import LinkAnalysis.Proofs.Text.Symbols
import LinkAnalysis.Snapshot.Writing

/-!
# Spellings of snapshots

A snapshot has many JSON texts: fields may stand in any order and among others,
the category may be called the type, empty labels and categories may be left
out, and every text has its spellings.  Each of them is read as the snapshot,
from characters and from bytes alike.  A text in which a record lacks a required
field or has a field twice is refused before any id is looked at.
-/

namespace LinkAnalysis

open Json (Blanks Draft FieldForm FieldRule Lexeme Member Misread Numeral
  Spelled Tree UnitSpelling Value Violates encodes_map_toNat itemTokens
  lexeme_quoted readList readString spelled_empty unitSpelling_escaped)

/-! ## The contract -/

def textForm (names : List String) (omissible : Prop)
    (content : String) : FieldForm :=
  ⟨names, omissible, fun tree => tree = .text (some content)⟩

/-- A list with a record of this form for each value. -/
def listForm {γ : Type} (name : String) (forms : γ → List FieldForm)
    (values : List γ) : FieldForm :=
  ⟨[name], False, fun tree => ∃ items, tree = .list items ∧
    List.Forall₂ (fun value item => item.IsRecordOf (forms value)) values items⟩

def Node.forms (n : Node) : List FieldForm :=
  [textForm ["id"] False n.id, textForm ["label"] (n.label = "") n.label,
    textForm ["category", "type"] (n.category = "") n.category]

def Edge.forms (e : Edge) : List FieldForm :=
  [textForm ["from"] False e.source, textForm ["to"] False e.target,
    textForm ["label"] (e.label = "") e.label,
    textForm ["category", "type"] (e.category = "") e.category]

namespace Snapshot

def forms (s : Snapshot) : List FieldForm :=
  [listForm "nodes" Node.forms s.nodes, listForm "edges" Edge.forms s.edges]

/-- A text is one of the JSON texts of a snapshot. -/
def SpelledBy (s : Snapshot) (text : String) : Prop :=
  ∃ tree : Tree, tree.IsRecordOf s.forms ∧ tree.Spells text

def nodeRules : List FieldRule :=
  [⟨["id"], true⟩, ⟨["label"], false⟩, ⟨["category", "type"], false⟩]

def edgeRules : List FieldRule :=
  [⟨["from"], true⟩, ⟨["to"], true⟩, ⟨["label"], false⟩,
    ⟨["category", "type"], false⟩]

def rules : List FieldRule := [⟨["nodes"], true⟩, ⟨["edges"], true⟩]

/-- The document, one of its nodes or one of its edges violates the rules of its
record. -/
inductive Breach : Tree → Prop
  | document {fields : List (Option String × Tree)}
      (hviolates : Violates rules fields) : Breach (.record fields)
  | node {fields inner : List (Option String × Tree)} {items : List Tree}
      (hitems : (some "nodes", .list items) ∈ fields)
      (hitem : .record inner ∈ items) (hviolates : Violates nodeRules inner) :
      Breach (.record fields)
  | edge {fields inner : List (Option String × Tree)} {items : List Tree}
      (hitems : (some "edges", .list items) ∈ fields)
      (hitem : .record inner ∈ items) (hviolates : Violates edgeRules inner) :
      Breach (.record fields)

end Snapshot

/-! ## Reading records -/

theorem readString_eq_ok_iff {tree : Tree} {content : String} :
    readString tree.draft = .ok content ↔ tree = .text (some content) := by
  cases tree with
  | text found => cases found <;> simp [Tree.draft, readString]
  | _ => simp [Tree.draft, readString]

theorem requiredString_reads (name content : String) :
    (requiredString name).Reads (textForm [name] False content) content where
  answersTo_iff label := by simp [requiredString, Member.answersTo, textForm]
  absent_iff := by simp [requiredString, textForm]
  read_iff _ := readString_eq_ok_iff

theorem optionalString_reads
    (name : String) (otherName : Option String) (content : String) :
    (optionalString name otherName).Reads
      (textForm (name :: otherName.toList) (content = "") content) content where
  answersTo_iff label := by
    simp only [optionalString, Member.answersTo, textForm, Bool.or_eq_true,
      beq_iff_eq, List.mem_cons, Option.mem_toList]
    exact or_congr Iff.rfl eq_comm
  absent_iff := by simp [optionalString, textForm, eq_comm]
  read_iff _ := readString_eq_ok_iff

theorem Node.fields_distinct : Member.Distinct Node.fields :=
  Member.distinct_of_pairwise
    (by simp [Node.fields, requiredString, optionalString, Member.answersTo])

theorem Edge.fields_distinct : Member.Distinct Edge.fields :=
  Member.distinct_of_pairwise
    (by simp [Edge.fields, requiredString, optionalString, Member.answersTo])

theorem Snapshot.fields_distinct : Member.Distinct Snapshot.fields :=
  Member.distinct_of_pairwise (by simp [Snapshot.fields, Member.answersTo])

theorem bind_eq_ok_iff
    {ε β γ : Type} {x : Except ε β} {f : β → Except ε γ} {b : β} {c : γ}
    (hfound : ∀ found, f found = .ok c ↔ found = b) :
    x.bind f = .ok c ↔ x = .ok b := by
  cases x with
  | error e => simp [Except.bind]
  | ok found => simp [Except.bind, hfound]

/-- A node is read from what fits its contract, and from nothing else. -/
theorem Node.ofDraft_eq_ok_iff {tree : Tree} {n : Node} :
    Node.ofDraft tree.draft = .ok n ↔ tree.Fits n.forms := by
  have hreads : List.Forall₂
      (fun (member : Member String) (content : FieldForm × String) =>
      member.Reads content.1 content.2) Node.fields
      [(textForm ["id"] False n.id, n.id),
          (textForm ["label"] (n.label = "") n.label, n.label), (textForm
            ["category", "type"] (n.category = "") n.category, n.category)] :=
    .cons (requiredString_reads "id" n.id)
      (.cons (optionalString_reads "label" none n.label)
        (.cons (optionalString_reads "category" (some "type") n.category) .nil))
  have hvalues : ∀ values,
      Node.ofValues values = .ok n ↔ values = [n.id, n.label, n.category] := by
    intro values
    unfold Node.ofValues
    split
    case h_1 =>
      cases n
      simp
    case h_2 hne =>
      exact iff_of_false (by simp) fun hresult => hne _ _ _ hresult
  exact (bind_eq_ok_iff hvalues).trans
    (Member.readRecord_eq_ok_iff_fits hreads Node.fields_distinct)

theorem Edge.ofDraft_eq_ok_iff {tree : Tree} {e : Edge} :
    Edge.ofDraft tree.draft = .ok e ↔ tree.Fits e.forms := by
  have hreads : List.Forall₂
      (fun (member : Member String) (content : FieldForm × String) =>
      member.Reads content.1 content.2) Edge.fields
      [(textForm ["from"] False e.source, e.source),
          (textForm ["to"] False e.target, e.target),
          (textForm ["label"] (e.label = "") e.label, e.label), (textForm
            ["category", "type"] (e.category = "") e.category, e.category)] :=
    .cons (requiredString_reads "from" e.source) (.cons (requiredString_reads
        "to" e.target) (.cons (optionalString_reads "label" none e.label) (.cons
          (optionalString_reads "category" (some "type") e.category) .nil)))
  have hvalues : ∀ values, Edge.ofValues values = .ok e ↔
      values = [e.source, e.target, e.label, e.category] := by
    intro values
    unfold Edge.ofValues
    split
    case h_1 =>
      cases e
      simp
    case h_2 hne =>
      exact iff_of_false (by simp) fun hresult => hne _ _ _ _ hresult
  exact (bind_eq_ok_iff hvalues).trans
    (Member.readRecord_eq_ok_iff_fits hreads Edge.fields_distinct)

/-- A list of records is read value by value. -/
theorem takes_listForm
    {γ : Type} {name : String} {forms : γ → List FieldForm}
    {read : Draft → Except Misread γ} {part : List γ → Snapshot.Part}
    (values : List γ)
    (hread : ∀ value (tree : Tree), tree.IsRecordOf (forms value) →
      read tree.draft = .ok value) :
    (⟨name, none, none, fun d => (readList read d).map part⟩ : Member
        Snapshot.Part).Takes (listForm name forms values) (part values) where
  answersTo_iff label := by simp [Member.answersTo, listForm]
  absent_eq homissible := homissible.elim
  read_eq tree hwrites := by
    obtain ⟨items, rfl, hitems⟩ := hwrites
    have hlist : readList read (Tree.list items).draft = .ok values := by
      rw [Tree.draft, Json.itemDrafts_eq_map, Json.readList_eq_ok_iff,
        List.forall₂_map_left_iff]
      exact hitems.flip.imp fun item value hitem => hread value item hitem
    change (readList read (Tree.list items).draft).map part = _
    rw [hlist]
    rfl

theorem requiredString_follows (name : String) :
    (requiredString name).Follows ⟨[name], true⟩ where
  answersTo_iff label := by simp [requiredString, Member.answersTo]
  absent_eq _ := rfl

theorem optionalString_follows (name : String) (otherName : Option String) :
    (optionalString name otherName).Follows
      ⟨name :: otherName.toList, false⟩ where
  answersTo_iff := (optionalString_reads name otherName "").answersTo_iff
  absent_eq hrequired := absurd hrequired Bool.false_ne_true

theorem listMember_follows
    {β : Type} (name : String) (read : Draft → Except Misread β) :
    (⟨name, none, none, read⟩ : Member β).Follows ⟨[name], true⟩ where
  answersTo_iff label := by simp [Member.answersTo]
  absent_eq _ := rfl

namespace Snapshot

theorem listsOfDraft_of_isRecordOf
    {s : Snapshot} {tree : Tree}
    (hrecord : tree.IsRecordOf s.forms) :
    listsOfDraft tree.draft = .ok (s.nodes, s.edges) := by
  have htakes :
      List.Forall₂ (fun (member : Member Part) (content : FieldForm × Part) =>
      member.Takes content.1 content.2) fields
      [(listForm "nodes" Node.forms s.nodes, .nodes s.nodes),
        (listForm "edges" Edge.forms s.edges, .edges s.edges)] :=
    .cons
      (takes_listForm s.nodes fun _ _ hrecord =>
        Node.ofDraft_eq_ok_iff.mpr (Or.inl hrecord))
      (.cons
        (takes_listForm s.edges fun _ _ hrecord =>
          Edge.ofDraft_eq_ok_iff.mpr (Or.inl hrecord))
        .nil)
  rw [listsOfDraft,
    Member.readRecord_of_isRecordOf fields_distinct htakes hrecord]
  rfl

/-! ## Breaches -/

theorem exists_ok_of_bind
    {ε β γ : Type} {x : Except ε β} {f : β → Except ε γ} {c : γ}
    (hbind : x.bind f = .ok c) :
    ∃ b, x = .ok b := by
  cases x with
  | error e => cases hbind
  | ok b => exact ⟨b, rfl⟩

theorem exists_ok_of_map
    {ε β γ : Type} {x : Except ε β} {f : β → γ} {c : γ}
    (hmap : x.map f = .ok c) :
    ∃ b, x = .ok b := by
  cases x with
  | error e => cases hmap
  | ok b => exact ⟨b, rfl⟩

/-- Among the records of a list that is read, none violates the rules. -/
theorem not_violates_of_readList
    {γ : Type} {read : Draft → Except Misread γ} {rules : List FieldRule}
    (hread : ∀ (entries : List (Option String × Tree)) (value : γ),
      read (Tree.record entries).draft = .ok value → ¬ Violates rules entries)
    {items : List Tree} {values : List γ}
    (hresult : readList read (Tree.list items).draft = .ok values)
    {inner : List (Option String × Tree)}
    (hitem : .record inner ∈ items) :
    ¬ Violates rules inner := by
  rw [Tree.draft, Json.itemDrafts_eq_map, Json.readList_eq_ok_iff,
    List.forall₂_map_left_iff] at hresult
  obtain ⟨i, hi⟩ := List.mem_iff_getElem?.mp hitem
  obtain ⟨hlt, heq⟩ := List.getElem?_eq_some_iff.mp hi
  have hvalue := (List.forall₂_iff_get.mp hresult).2 i hlt
    (by rw [← hresult.length_eq]; exact hlt)
  rw [List.get_eq_getElem, heq] at hvalue
  exact hread inner _ hvalue

theorem not_violates_of_ofDraft_node
    (entries : List (Option String × Tree)) (n : Node)
    (hdraft : Node.ofDraft (Tree.record entries).draft = .ok n) :
    ¬ Violates nodeRules entries := by
  have hfollows : List.Forall₂ Member.Follows Node.fields nodeRules :=
    .cons (requiredString_follows "id") (.cons (optionalString_follows "label"
        none) (.cons (optionalString_follows "category" (some "type")) .nil))
  rw [Node.ofDraft] at hdraft
  obtain ⟨values, hvalues⟩ := exists_ok_of_bind hdraft
  exact Member.not_violates_of_readRecord Node.fields_distinct hfollows hvalues

theorem not_violates_of_ofDraft_edge
    (entries : List (Option String × Tree)) (e : Edge)
    (hdraft : Edge.ofDraft (Tree.record entries).draft = .ok e) :
    ¬ Violates edgeRules entries := by
  have hfollows : List.Forall₂ Member.Follows Edge.fields edgeRules :=
    .cons (requiredString_follows "from") (.cons (requiredString_follows "to")
      (.cons (optionalString_follows "label" none)
        (.cons (optionalString_follows "category" (some "type")) .nil)))
  rw [Edge.ofDraft] at hdraft
  obtain ⟨values, hvalues⟩ := exists_ok_of_bind hdraft
  exact Member.not_violates_of_readRecord Edge.fields_distinct hfollows hvalues

theorem listsOfDraft_of_breach {tree : Tree} (hbreach : Breach tree) :
    ∃ e, listsOfDraft tree.draft = .error e := by
  cases hlists : listsOfDraft tree.draft with
  | error e => exact ⟨e, rfl⟩
  | ok lists =>
      exfalso
      rw [listsOfDraft] at hlists
      obtain ⟨parts, hparts⟩ := exists_ok_of_bind hlists
      cases hbreach with
      | document hviolates =>
          have hfollows : List.Forall₂ Member.Follows fields rules :=
            .cons (listMember_follows "nodes" _)
              (.cons (listMember_follows "edges" _) .nil)
          exact Member.not_violates_of_readRecord fields_distinct hfollows
            hparts hviolates
      | node hitems hitem hviolates =>
          obtain ⟨part, hpart⟩ :=
            Member.exists_read_of_readRecord fields_distinct hparts
              List.mem_cons_self hitems rfl
          obtain ⟨nodes, hnodes⟩ := exists_ok_of_map hpart
          exact not_violates_of_readList not_violates_of_ofDraft_node hnodes
            hitem hviolates
      | edge hitems hitem hviolates =>
          obtain ⟨part, hpart⟩ :=
            Member.exists_read_of_readRecord fields_distinct hparts
              (List.mem_cons_of_mem _ List.mem_cons_self) hitems rfl
          obtain ⟨edges, hedges⟩ := exists_ok_of_map hpart
          exact not_violates_of_readList not_violates_of_ofDraft_edge hedges
            hitem hviolates

/-! ## Whole texts -/

theorem firstOffence_eq_none
    {seen : List String} {index : Nat} {nodes : List Node}
    (hempty : ∀ node ∈ nodes, node.id ≠ "")
    (hnodup : (nodes.map Node.id).Nodup)
    (hseen : ∀ node ∈ nodes, node.id ∉ seen) :
    firstOffence seen index nodes = none := by
  induction nodes generalizing seen index with
  | nil => rfl
  | cons node nodes ih =>
      rw [List.forall_mem_cons] at hempty hseen
      rw [List.map_cons, List.nodup_cons] at hnodup
      rw [firstOffence, if_neg hempty.1, if_neg hseen.1]
      refine ih hempty.2 hnodup.2 fun other hother hmem => ?_
      rcases List.mem_cons.mp hmem with heq | hmem
      · exact hnodup.1 (heq ▸ List.mem_map_of_mem hother)
      · exact hseen.2 other hother hmem

theorem ofLists_eq_ok (s : Snapshot) : ofLists s.nodes s.edges = .ok s := by
  have hnone : firstOffence [] 0 s.nodes = none :=
    firstOffence_eq_none s.id_ne_empty s.ids_nodup fun _ _ => List.not_mem_nil
  unfold ofLists
  split
  case h_1 hoffence => rw [hnone] at hoffence; simp at hoffence
  case h_2 => rfl

theorem ofText_of_spells
    {tree : Tree} {text : String}
    (hspells : tree.Spells text) :
    ofText text = ofDraft tree.draft := by
  rw [ofText, ofSymbols, listsOfSymbols,
    Json.read_of_inscribes hspells.inscribes, ofDraft]
  cases listsOfDraft tree.draft <;> rfl

/-- A text and its bytes are read alike. -/
theorem ofBytes_toUTF8 (text : String) : ofBytes text.toUTF8 = ofText text := by
  rw [ofBytes, Text.symbolsOfBytes_toUTF8, ofText]

theorem ofText_of_spelledBy
    {s : Snapshot} {text : String}
    (hspelled : s.SpelledBy text) :
    ofText text = .ok s := by
  obtain ⟨tree, htree, htext⟩ := hspelled
  rw [ofText_of_spells htext, ofDraft, listsOfDraft_of_isRecordOf htree]
  exact ofLists_eq_ok s

theorem ofText_of_breach
    {tree : Tree} {text : String}
    (hbreach : Breach tree)
    (htext : tree.Spells text) :
    ∃ detail, ofText text = .error (.invalidSnapshot detail) := by
  obtain ⟨e, he⟩ := listsOfDraft_of_breach hbreach
  exact ⟨e.text, by rw [ofText_of_spells htext, ofDraft, he, ofReadLists]⟩

end Snapshot

/-! ## The written text -/

/-- The entry of a field that is always written. -/
def textEntry (name content : String) : Option String × Tree :=
  (some name, .text (some content))

theorem fieldWrites_text (name content : String) :
    Json.FieldWrites (name, .text content) (textEntry name content) :=
  ⟨rfl, Json.writes_text content⟩

theorem entries_textForm
    {names : List String} {omissible : Prop} {name : String}
    (hname : name ∈ names)
    (content : String) :
    (textForm names omissible content).Entries [textEntry name content] :=
  .present hname rfl

/-- The record of a node as it is written. -/
def Node.tree (n : Node) : Tree :=
  .record [textEntry "id" n.id, textEntry "label" n.label,
    textEntry "category" n.category]

def Edge.tree (e : Edge) : Tree :=
  .record [textEntry "from" e.source, textEntry "to" e.target,
    textEntry "label" e.label, textEntry "category" e.category]

theorem Node.writes_tree (n : Node) : n.toValue.Writes n.tree :=
  Json.writes_record (.cons (fieldWrites_text "id" n.id)
    (.cons (fieldWrites_text "label" n.label)
      (.cons (fieldWrites_text "category" n.category) .nil)))

theorem Edge.writes_tree (e : Edge) : e.toValue.Writes e.tree :=
  Json.writes_record (.cons (fieldWrites_text "from" e.source)
    (.cons (fieldWrites_text "to" e.target) (.cons (fieldWrites_text "label"
          e.label) (.cons (fieldWrites_text "category" e.category) .nil))))

theorem Node.isRecordOf_tree (n : Node) : n.tree.IsRecordOf n.forms :=
  Json.isRecordOf_flatten (.cons (entries_textForm List.mem_cons_self n.id)
    (.cons (entries_textForm List.mem_cons_self n.label)
      (.cons (entries_textForm List.mem_cons_self n.category) .nil)))

theorem Edge.isRecordOf_tree (e : Edge) : e.tree.IsRecordOf e.forms :=
  Json.isRecordOf_flatten (.cons (entries_textForm List.mem_cons_self e.source)
    (.cons (entries_textForm List.mem_cons_self e.target)
      (.cons (entries_textForm List.mem_cons_self e.label)
        (.cons (entries_textForm List.mem_cons_self e.category) .nil))))

namespace Snapshot

theorem entries_listForm
    {γ : Type} {forms : γ → List FieldForm} {write : γ → Tree}
    (hwrite : ∀ value, (write value).IsRecordOf (forms value))
    (name : String) (values : List γ) :
    (listForm name forms values).Entries
      [(some name, .list (values.map write))] :=
  .present List.mem_cons_self ⟨_, rfl, List.forall₂_map_right_iff.mpr
    (List.forall₂_same.mpr fun value _ => hwrite value)⟩

theorem fieldWrites_list
    {γ : Type} {toValue : γ → Value} {write : γ → Tree}
    (hwrite : ∀ value, (toValue value).Writes (write value))
    (name : String) (values : List γ) :
    Json.FieldWrites (name, .list (values.map toValue))
      (some name, .list (values.map write)) :=
  ⟨rfl, Json.writes_list (List.forall₂_map_left_iff.mpr
      (List.forall₂_map_right_iff.mpr (List.forall₂_same.mpr fun value _ =>
          hwrite value)))⟩

theorem spelledBy_toText (s : Snapshot) : s.SpelledBy s.toText := by
  refine ⟨.record [(some "nodes", .list (s.nodes.map Node.tree)),
    (some "edges", .list (s.edges.map Edge.tree))], ?_, Json.spells_toText ?_⟩
  · exact Json.isRecordOf_flatten
      (.cons (entries_listForm Node.isRecordOf_tree "nodes" s.nodes)
      (.cons (entries_listForm Edge.isRecordOf_tree "edges" s.edges) .nil))
  · exact Json.writes_record
      (.cons (fieldWrites_list Node.writes_tree "nodes" s.nodes)
      (.cons (fieldWrites_list Edge.writes_tree "edges" s.edges) .nil))

/-- The written text of a snapshot is one of its texts, each of its texts is
read as the snapshot, and a JSON text with a breach of the contract is refused
as such; bytes are read like characters. -/
theorem ofText_spellings :
    (∀ s : Snapshot, s.SpelledBy s.toText ∧ ofText s.toText = .ok s) ∧
      (∀ (s : Snapshot) (text : String), s.SpelledBy text →
        ofText text = .ok s ∧ ofBytes text.toUTF8 = .ok s) ∧
      ∀ (tree : Tree) (text : String), Breach tree → tree.Spells text →
        ∃ detail, ofText text = .error (.invalidSnapshot detail) ∧
          ofBytes text.toUTF8 = .error (.invalidSnapshot detail) := by
  refine ⟨fun s => ⟨s.spelledBy_toText, ofText_of_spelledBy s.spelledBy_toText⟩,
    fun s text hspelled => ⟨ofText_of_spelledBy hspelled, ?_⟩,
    fun tree text hbreach htext => ?_⟩
  · rw [ofBytes_toUTF8]
    exact ofText_of_spelledBy hspelled
  · obtain ⟨detail, hdetail⟩ := ofText_of_breach hbreach htext
    exact ⟨detail, hdetail, by rw [ofBytes_toUTF8, hdetail]⟩

/-- A small case: one node without label and category. -/
def lonelySnapshot : Snapshot where
  nodes := [⟨"a", "", ""⟩]
  edges := []
  id_ne_empty := by decide
  ids_nodup := by decide

def lonelyNodeTree : Tree :=
  .record [(some "type", .text (some "")), (some "id", .text (some "a"))]

/-- The edges come first, a field is unknown, the label is left out and the
category is the type. -/
def lonelyTree : Tree :=
  .record [(some "edges", .list []), (some "at", .number "1e5"),
    (some "nodes", .list [lonelyNodeTree])]

def lonelyText : String :=
  "\x7b \"edges\":[],\"at\":1e5 ,\"nodes\":[\x7b\"type\":\"\",\"\\u0069d\":\"a\"\x7d]\x7d"

theorem isRecordOf_lonelyTree : lonelyTree.IsRecordOf lonelySnapshot.forms := by
  have hnode : lonelyNodeTree.IsRecordOf (Node.forms ⟨"a", "", ""⟩) :=
    ⟨[[textEntry "id" "a"], [], [textEntry "type" ""]], [],
      _, .cons (entries_textForm List.mem_cons_self "a") (.cons (.omitted rfl)
        (.cons (entries_textForm (List.mem_cons_of_mem _ List.mem_cons_self) "")
          .nil)), fun _ hmem => absurd hmem List.not_mem_nil,
      List.Perm.swap _ _ _, rfl⟩
  refine ⟨[[(some "nodes", .list [lonelyNodeTree])],
    [(some "edges", .list [])]], [(some "at", .number "1e5")],
    _, .cons (.present List.mem_cons_self ⟨_, rfl, .cons hnode .nil⟩)
    (.cons (.present List.mem_cons_self ⟨_, rfl, .nil⟩) .nil),
    fun entry hentry => ?_, ?_, rfl⟩
  · rw [List.mem_singleton.mp hentry]
    exact ⟨"at", rfl, by simp [forms, listForm]⟩
  · exact List.perm_append_singleton (some "nodes", Tree.list [lonelyNodeTree])
      [(some "edges", .list []), (some "at", .number "1e5")]

theorem spells_lonelyTree : lonelyTree.Spells lonelyText := by
  have hid : Lexeme (.text (some "id"))
      ['"', '\\', 'u', '0', '0', '6', '9', 'd', '"'] := by
    have hhex : UnitSpelling (((0 * 16 + 0) * 16 + 6) * 16 + 9)
        ['\\', 'u', '0', '0', '6', '9'] :=
      .hex (by decide) (by decide) (by decide) (by decide)
    exact .text (encodes_map_toNat "id".toList)
      (.cons hhex (.cons (unitSpelling_escaped 'd') .nil))
  have hnumeral : Numeral ([] ++ ['1'] ++ [] ++ ['e', '5']) :=
    .intro (Or.inl rfl) (Or.inr (by decide)) (Or.inl rfl)
      (Or.inr ⟨'e', by decide, [], by decide, ['5'], by decide, rfl⟩)
  have hblank : Blanks [' '] := by decide
  have hnode : Spelled (itemTokens [] ++ [.closeRecord]) [']', '\x7d'] :=
    .cons_lexeme .closeList (.cons_lexeme .closeRecord spelled_empty)
  have hid := Spelled.cons_lexeme hid (.cons_lexeme .colon
    (.cons_lexeme (lexeme_quoted "a") (.cons_lexeme .closeRecord hnode)))
  have htype :=
    Spelled.cons_lexeme .openList (.cons_lexeme .openRecord
      (.cons_lexeme (lexeme_quoted "type") (.cons_lexeme .colon
          (.cons_lexeme (lexeme_quoted "") (.cons_lexeme .comma hid)))))
  have hat := Spelled.cons_lexeme (lexeme_quoted "at") (.cons_lexeme .colon
    (.cons_lexeme (.number hnumeral) (.cons hblank .comma
      (.cons_lexeme (lexeme_quoted "nodes") (.cons_lexeme .colon htype)))))
  exact .cons_lexeme .openRecord (.cons hblank
    (lexeme_quoted "edges") (.cons_lexeme .colon (.cons_lexeme .openList
        (.cons_lexeme .closeList (.cons_lexeme .comma hat)))))

/-- Another case: a node with an empty id that has its category twice, under two
names. -/
def doubleFields : List (String × Value) :=
  [("nodes", .list [.record [("id", .text ""), ("category", .text ""),
        ("type", .text "")]]), ("edges", .list [])]

def doubleNode : List (Option String × Tree) :=
  [textEntry "id" "", textEntry "category" "", textEntry "type" ""]

def doubleTree : Tree :=
  .record [(some "nodes", .list [.record doubleNode]), (some "edges", .list [])]

theorem breach_doubleTree : Breach doubleTree :=
  .node List.mem_cons_self List.mem_cons_self
    ⟨⟨["category", "type"], false⟩, by simp [nodeRules], Or.inr (by decide)⟩

theorem spells_doubleTree :
    doubleTree.Spells (Value.record doubleFields).toText :=
  Json.spells_toText (Json.writes_record
    (.cons
      ⟨rfl, Json.writes_list (.cons
        (Json.writes_record
          (.cons (fieldWrites_text "id" "")
            (.cons (fieldWrites_text "category" "")
              (.cons (fieldWrites_text "type" "") .nil))))
        .nil)⟩
      (.cons ⟨rfl, Json.writes_list .nil⟩ .nil)))

theorem ofText_spellings_lonelyText :
    (lonelySnapshot.SpelledBy lonelyText ∧
        ofText lonelyText = .ok lonelySnapshot ∧
        ofBytes lonelyText.toUTF8 = .ok lonelySnapshot) ∧
      Breach doubleTree ∧
      doubleTree.Spells (Value.record doubleFields).toText ∧
      ∃ detail, ofText (Value.record doubleFields).toText =
        .error (.invalidSnapshot detail) := by
  have hspelled : lonelySnapshot.SpelledBy lonelyText :=
    ⟨lonelyTree, isRecordOf_lonelyTree, spells_lonelyTree⟩
  obtain ⟨detail, hrefused, -⟩ := ofText_spellings.2.2 doubleTree
    (Value.record doubleFields).toText breach_doubleTree spells_doubleTree
  exact ⟨⟨hspelled, ofText_spellings.2.1 lonelySnapshot lonelyText hspelled⟩,
    breach_doubleTree, spells_doubleTree, detail, hrefused⟩

end Snapshot

end LinkAnalysis
