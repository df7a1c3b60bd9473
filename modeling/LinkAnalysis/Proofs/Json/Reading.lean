import LinkAnalysis.Proofs.Json.Scanning

/-!
# Reading

A text that spells a tree is read as this tree, with every container closed and
nothing left behind.
-/

namespace LinkAnalysis.Json

open Text (Symbol)

/-! ## Numbers stand before marks -/

theorem separate_cons
    {t : Token} {tokens : List Token}
    (ht : t.isNumeral = false)
    (hseparate : Separate tokens) :
    Separate (t :: tokens) := by
  refine List.isChain_cons.mpr ⟨fun next _ hnumeral => ?_, hseparate⟩
  rw [ht] at hnumeral
  exact absurd hnumeral Bool.false_ne_true

theorem head?_itemTokens (items : List Tree) (rest : List Token) :
    ∀ t ∈ (itemTokens items ++ rest).head?, t.isMark = true := by
  cases items <;> simp [itemTokens, Token.isMark]

theorem head?_fieldTokens
    (fields : List (Option String × Tree)) (rest : List Token) :
    ∀ t ∈ (fieldTokens fields ++ rest).head?, t.isMark = true := by
  cases fields <;> simp [fieldTokens, Token.isMark]

mutual

theorem separate_tokens
    (tree : Tree) (rest : List Token)
    (hmark : ∀ t ∈ rest.head?, t.isMark = true)
    (hrest : Separate rest) :
    Separate (tree.tokens ++ rest) :=
  match tree with
  | .null => separate_cons rfl hrest
  | .flag _ => separate_cons rfl hrest
  | .number _ => List.isChain_cons.mpr ⟨fun t ht _ => hmark t ht, hrest⟩
  | .text _ => separate_cons rfl hrest
  | .list [] => separate_cons rfl (separate_cons rfl hrest)
  | .list (item :: more) => by
      rw [Tree.tokens, List.cons_append, List.append_assoc]
      exact separate_cons rfl (separate_tokens item _
        (head?_itemTokens more rest) (separate_itemTokens more hrest))
  | .record [] => separate_cons rfl (separate_cons rfl hrest)
  | .record ((_, value) :: more) => by
      rw [Tree.tokens, List.cons_append, List.cons_append, List.cons_append,
        List.append_assoc]
      exact separate_cons rfl
        (separate_cons rfl (separate_cons rfl (separate_tokens value _
            (head?_fieldTokens more rest) (separate_fieldTokens more hrest))))

theorem separate_itemTokens
    (items : List Tree) {rest : List Token}
    (hrest : Separate rest) :
    Separate (itemTokens items ++ rest) :=
  match items with
  | [] => separate_cons rfl hrest
  | item :: more => by
      rw [itemTokens, List.cons_append, List.append_assoc]
      exact separate_cons rfl (separate_tokens item _
        (head?_itemTokens more rest) (separate_itemTokens more hrest))

theorem separate_fieldTokens
    (fields : List (Option String × Tree)) {rest : List Token}
    (hrest : Separate rest) :
    Separate (fieldTokens fields ++ rest) :=
  match fields with
  | [] => separate_cons rfl hrest
  | (_, value) :: more => by
      rw [fieldTokens, List.cons_append, List.cons_append, List.cons_append,
        List.append_assoc]
      exact separate_cons rfl
        (separate_cons rfl (separate_cons rfl (separate_tokens value _
            (head?_fieldTokens more rest) (separate_fieldTokens more hrest))))

end

/-- The scanner hands out the tokens of the tree that a text means. -/
theorem tokens_of_inscribes
    {tree : Tree} {text : List Symbol}
    (hinscribes : tree.Inscribes text) :
    Json.tokens text = tree.tokens := by
  have hseparate := separate_tokens tree [] (by simp) List.isChain_nil
  rw [List.append_nil] at hseparate
  exact Scanner.scan_inscribed [] hinscribes hseparate

/-! ## From tokens to drafts -/

mutual

def Tree.draft : Tree → Draft
  | .null => .null
  | .flag value => .flag value
  | .number numeral => .number numeral
  | .text content => .text content
  | .list items => .list (itemDrafts items) true
  | .record fields => .record (fieldDrafts fields) true

def itemDrafts : List Tree → List Draft
  | [] => []
  | item :: more => item.draft :: itemDrafts more

def fieldDrafts : List (Option String × Tree) → List (Option String × Draft)
  | [] => []
  | (name, value) :: more => (name, value.draft) :: fieldDrafts more

end

theorem itemDrafts_eq_map (items : List Tree) :
    itemDrafts items = items.map Tree.draft := by
  induction items with
  | nil => rfl
  | cons item more ih => rw [itemDrafts, ih, List.map_cons]

theorem fieldDrafts_eq_map (fields : List (Option String × Tree)) :
    fieldDrafts fields = fields.map fun entry => (entry.1, entry.2.draft) := by
  induction fields with
  | nil => rfl
  | cons entry more ih => rw [fieldDrafts, ih, List.map_cons]

namespace Stage

/-- The first token of a value is taken in the same way wherever a value may
stand. -/
theorem step_first
    (tree : Tree) (rest : List Token) (around : List Frame) :
    (tree.tokens ++ rest).foldl step (.listStart around) =
      (tree.tokens ++ rest).foldl step (.value (.list [] :: around)) := by
  cases tree with
  | list items => cases items <;> rfl
  | record fields => cases fields <;> rfl
  | _ => rfl

mutual

theorem foldl_step_tokens
    (tree : Tree) (rest : List Token) (around : List Frame) :
    (tree.tokens ++ rest).foldl step (.value around) =
      rest.foldl step (.after tree.draft around) :=
  match tree with
  | .null => rfl
  | .flag _ => rfl
  | .number _ => rfl
  | .text _ => rfl
  | .list [] => rfl
  | .list (item :: more) => by
      rw [Tree.tokens, List.cons_append, List.append_assoc, List.foldl_cons]
      change (item.tokens ++ (itemTokens more ++ rest)).foldl step
        (.listStart around) = _
      rw [step_first, foldl_step_tokens item, foldl_step_itemTokens more]
      rfl
  | .record [] => rfl
  | .record ((title, child) :: more) => by
      rw [Tree.tokens, List.cons_append, List.cons_append, List.cons_append,
        List.append_assoc, List.foldl_cons, List.foldl_cons, List.foldl_cons]
      change (child.tokens ++ (fieldTokens more ++ rest)).foldl step
        (.value (.record [] title :: around)) = _
      rw [foldl_step_tokens child, foldl_step_fieldTokens more]
      rfl

theorem foldl_step_itemTokens
    (items : List Tree) (rest : List Token) (value : Draft)
    (before : List Draft) (around : List Frame) :
    (itemTokens items ++ rest).foldl step
        (.after value (.list before :: around)) =
      rest.foldl step (.after
        (.list ((value :: before).reverse ++ itemDrafts items) true) around) :=
  match items with
  | [] => by
      rw [itemDrafts, List.append_nil]
      rfl
  | item :: more => by
      rw [itemTokens, List.cons_append, List.append_assoc, List.foldl_cons]
      change (item.tokens ++ (itemTokens more ++ rest)).foldl step
        (.value (.list (value :: before) :: around)) = _
      rw [foldl_step_tokens item, foldl_step_itemTokens more, itemDrafts,
        List.reverse_cons, List.append_assoc]
      rfl

theorem foldl_step_fieldTokens
    (fields : List (Option String × Tree)) (rest : List Token) (value : Draft)
    (before : List (Option String × Draft)) (label : Option String)
    (around : List Frame) :
    (fieldTokens fields ++ rest).foldl step
        (.after value (.record before label :: around)) =
      rest.foldl step (.after (.record
        (((label, value) :: before).reverse ++ fieldDrafts fields) true)
        around) :=
  match fields with
  | [] => by
      rw [fieldDrafts, List.append_nil]
      rfl
  | (title, child) :: more => by
      rw [fieldTokens, List.cons_append, List.cons_append, List.cons_append,
        List.append_assoc, List.foldl_cons, List.foldl_cons, List.foldl_cons]
      change (child.tokens ++ (fieldTokens more ++ rest)).foldl step
        (.value (.record ((label, value) :: before) title :: around)) = _
      rw [foldl_step_tokens child, foldl_step_fieldTokens more, fieldDrafts,
        List.reverse_cons, List.append_assoc]
      rfl

end

end Stage

theorem read_of_inscribes
    {tree : Tree} {text : List Symbol}
    (hinscribes : tree.Inscribes text) :
    Json.read text = ⟨tree.draft, true⟩ := by
  have hfold := Stage.foldl_step_tokens tree [] []
  rw [List.append_nil] at hfold
  rw [Json.read, tokens_of_inscribes hinscribes, hfold]
  rfl

end LinkAnalysis.Json
