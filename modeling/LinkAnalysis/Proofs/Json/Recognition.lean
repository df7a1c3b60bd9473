import LinkAnalysis.Proofs.Json.Inscription

/-!
# Recognition

A text that is read as a whole is JSON.  At every point the stage of the reader
says of what trees the tokens so far are made: of those in the containers that
are still open, and of the one that was read last.
-/

namespace LinkAnalysis.Json

open Text (Symbol)

/-! ## Tokens of open containers -/

/-- The tokens of an item with the mark behind it. -/
def itemWith (mark : Token) (item : Tree) : List Token := item.tokens ++ [mark]

/-- The tokens of a field with the mark behind it. -/
def fieldWith (mark : Token) (entry : Option String × Tree) : List Token :=
  Token.text entry.1 :: Token.colon :: itemWith mark entry.2

/-- The tokens of a list up to these items, each with the comma behind it. -/
def openItems (items : List Tree) : List Token :=
  .openList :: items.flatMap (itemWith .comma)

def openFields (fields : List (Option String × Tree)) : List Token :=
  .openRecord :: fields.flatMap (fieldWith .comma)

theorem openItems_concat (items : List Tree) (last : Tree) :
    openItems (items ++ [last]) = openItems items ++ itemWith .comma last := by
  simp [openItems]

theorem openFields_concat
    (fields : List (Option String × Tree)) (last : Option String × Tree) :
    openFields (fields ++ [last]) =
      openFields fields ++ fieldWith .comma last := by
  simp [openFields]

theorem itemDrafts_concat (items : List Tree) (last : Tree) :
    (itemDrafts (items ++ [last])).reverse =
      last.draft :: (itemDrafts items).reverse := by
  simp [itemDrafts_eq_map]

theorem fieldDrafts_concat
    (fields : List (Option String × Tree)) (last : Option String × Tree) :
    (fieldDrafts (fields ++ [last])).reverse =
      (last.1, last.2.draft) :: (fieldDrafts fields).reverse := by
  simp [fieldDrafts_eq_map]

theorem tokens_append_itemTokens_concat
    (first last : Tree) (items : List Tree) :
    first.tokens ++ itemTokens (items ++ [last]) =
      (first :: items).flatMap (itemWith .comma) ++
        itemWith .closeList last := by
  induction items generalizing first with
  | nil => simp [itemTokens, itemWith]
  | cons item items ih =>
      rw [List.cons_append, itemTokens, ih]
      simp [itemWith]

/-- A list is closed behind its last item. -/
theorem tokens_list_concat (items : List Tree) (last : Tree) :
    (Tree.list (items ++ [last])).tokens =
      openItems items ++ itemWith .closeList last := by
  cases items with
  | nil => simp [Tree.tokens, itemTokens, openItems, itemWith]
  | cons item items =>
      rw [List.cons_append, Tree.tokens, tokens_append_itemTokens_concat]
      rfl

theorem tokens_append_fieldTokens_concat
    (first last : Option String × Tree) (fields : List (Option String × Tree)) :
    Token.text first.1 :: Token.colon ::
        (first.2.tokens ++ fieldTokens (fields ++ [last])) =
      (first :: fields).flatMap (fieldWith .comma) ++
        fieldWith .closeRecord last := by
  induction fields generalizing first with
  | nil => simp [fieldTokens, fieldWith, itemWith]
  | cons entry fields ih =>
      rw [List.cons_append, fieldTokens, ih]
      simp [fieldWith, itemWith]

theorem tokens_record_concat
    (fields : List (Option String × Tree)) (last : Option String × Tree) :
    (Tree.record (fields ++ [last])).tokens =
      openFields fields ++ fieldWith .closeRecord last := by
  cases fields with
  | nil => simp [Tree.tokens, fieldTokens, openFields, fieldWith, itemWith]
  | cons entry fields =>
      rw [List.cons_append, Tree.tokens, tokens_append_fieldTokens_concat]
      rfl

/-! ## The stage of the reader -/

/-- The tokens of the containers around the present point, with what is complete
in them. -/
inductive Around : List Frame → List Token → Prop
  | nil : Around [] []
  | list (items : List Tree) {around : List Frame} {tokens : List Token}
      (hholds : Around around tokens) :
      Around (.list (itemDrafts items).reverse :: around)
        (tokens ++ openItems items)
  | record (fields : List (Option String × Tree)) (name : Option String)
      {around : List Frame} {tokens : List Token}
      (hholds : Around around tokens) :
      Around (.record (fieldDrafts fields).reverse name :: around)
        (tokens ++ (openFields fields ++ [.text name, .colon]))

/-- The tokens with which the reader is at this stage. -/
inductive Reaches : Stage → List Token → Prop
  | value {around : List Frame} {tokens : List Token}
      (haround : Around around tokens) : Reaches (.value around) tokens
  | listStart {around : List Frame} {tokens : List Token}
      (haround : Around around tokens) :
      Reaches (.listStart around) (tokens ++ [.openList])
  | recordStart {around : List Frame} {tokens : List Token}
      (haround : Around around tokens) :
      Reaches (.recordStart around) (tokens ++ [.openRecord])
  | name (fields : List (Option String × Tree)) {around : List Frame}
      {tokens : List Token} (haround : Around around tokens) :
      Reaches (.name (fieldDrafts fields).reverse around)
        (tokens ++ openFields fields)
  | colon (fields : List (Option String × Tree)) (label : Option String)
      {around : List Frame} {tokens : List Token}
      (haround : Around around tokens) :
      Reaches (.colon (fieldDrafts fields).reverse label around)
        (tokens ++ (openFields fields ++ [.text label]))
  | after (tree : Tree) {around : List Frame} {tokens : List Token}
      (haround : Around around tokens) :
      Reaches (.after tree.draft around) (tokens ++ tree.tokens)
  | stuck {draft : Draft} {tokens : List Token} : Reaches (.stuck draft) tokens

theorem reaches_startValue
    {around : List Frame} {tokens : List Token}
    (haround : Around around tokens)
    (otherwise : Stage) (token : Token) :
    Reaches (Stage.startValue around otherwise token) (tokens ++ [token]) := by
  cases token with
  | null => exact .after .null haround
  | flag value => exact .after (.flag value) haround
  | number numeral => exact .after (.number numeral) haround
  | text content => exact .after (.text content) haround
  | openList => exact .listStart haround
  | openRecord => exact .recordStart haround
  | _ => exact .stuck

/-- Behind the start of a list, what does not close it is taken as the start of
its first item. -/
theorem step_listStart
    {token : Token}
    (hclose : token ≠ .closeList)
    (around : List Frame) :
    (Stage.listStart around).step token =
      Stage.startValue (.list [] :: around) (.listStart around) token := by
  cases token <;> first | rfl | exact absurd rfl hclose

section Values

variable {around : List Frame} {tokens : List Token}
  (haround : Around around tokens) (token : Token)

include haround

theorem reaches_step_listStart :
    Reaches ((Stage.listStart around).step token)
      (tokens ++ [.openList] ++ [token]) := by
  by_cases hclose : token = .closeList
  · rw [hclose, List.append_assoc]
    exact .after (.list []) haround
  · rw [step_listStart hclose]
    exact reaches_startValue (.list [] haround) _ token

theorem reaches_step_item (items : List Tree) (tree : Tree) :
    Reaches ((Stage.after tree.draft
        (.list (itemDrafts items).reverse :: around)).step token)
      (tokens ++ (openItems items ++ itemWith token tree)) := by
  cases token with
  | comma =>
      have hvalue := Reaches.value (.list (items ++ [tree]) haround)
      rw [itemDrafts_concat, openItems_concat] at hvalue
      exact hvalue
  | closeList =>
      have hafter := Reaches.after (.list (items ++ [tree])) haround
      rw [Tree.draft, tokens_list_concat, ← List.reverse_reverse (itemDrafts _),
        itemDrafts_concat] at hafter
      exact hafter
  | _ => exact .stuck

theorem reaches_step_field
    (fields : List (Option String × Tree)) (name : Option String)
    (tree : Tree) :
    Reaches ((Stage.after tree.draft
        (.record (fieldDrafts fields).reverse name :: around)).step token)
      (tokens ++ (openFields fields ++ fieldWith token (name, tree))) := by
  cases token with
  | comma =>
      have hname := Reaches.name (fields ++ [(name, tree)]) haround
      rw [fieldDrafts_concat, openFields_concat] at hname
      exact hname
  | closeRecord =>
      have hafter := Reaches.after (.record (fields ++ [(name, tree)])) haround
      rw [Tree.draft, tokens_record_concat,
        ← List.reverse_reverse (fieldDrafts _), fieldDrafts_concat] at hafter
      exact hafter
  | _ => exact .stuck

end Values

/-- One step of the reader. -/
theorem Reaches.step
    {stage : Stage} {tokens : List Token}
    (hreaches : Reaches stage tokens)
    (token : Token) :
    Reaches (stage.step token) (tokens ++ [token]) := by
  cases hreaches with
  | value haround => exact reaches_startValue haround _ token
  | listStart haround => exact reaches_step_listStart haround token
  | recordStart haround =>
      rw [List.append_assoc]
      cases token with
      | closeRecord => exact .after (.record []) haround
      | text content => exact .colon [] content haround
      | _ => exact .stuck
  | name fields haround =>
      rw [List.append_assoc]
      cases token with
      | text content => exact .colon fields content haround
      | _ => exact .stuck
  | colon fields label haround =>
      rw [List.append_assoc, List.append_assoc]
      cases token with
      | colon => exact .value (.record fields label haround)
      | _ => exact .stuck
  | after tree haround =>
      cases haround with
      | nil => exact .stuck
      | @list items _ tokens haround =>
          have htokens : tokens ++ openItems items ++ tree.tokens ++ [token] =
              tokens ++ (openItems items ++ itemWith token tree) := by
            simp [itemWith]
          rw [htokens]
          exact reaches_step_item haround token items tree
      | @record fields name _ tokens haround =>
          have htokens :
              tokens ++ (openFields fields ++ [Token.text name, Token.colon]) ++
                  tree.tokens ++ [token] =
                tokens ++
                  (openFields fields ++ fieldWith token (name, tree)) := by
            simp [fieldWith, itemWith]
          rw [htokens]
          exact reaches_step_field haround token fields name tree
  | stuck => exact .stuck

theorem Reaches.foldl_step
    {stage : Stage} {tokens : List Token}
    (hreaches : Reaches stage tokens)
    (rest : List Token) :
    Reaches (rest.foldl Stage.step stage) (tokens ++ rest) := by
  induction rest generalizing stage tokens with
  | nil => rwa [List.append_nil]
  | cons token rest ih =>
      rw [← List.singleton_append, ← List.append_assoc]
      exact ih (hreaches.step token)

/-- Where the reader has a whole value at the end, the tokens are those of its
tree. -/
theorem Reaches.exists_tree
    {stage : Stage} {tokens : List Token}
    (hreaches : Reaches stage tokens)
    {draft : Draft}
    (hfinish : stage.finish = ⟨draft, true⟩) :
    ∃ tree : Tree, tree.tokens = tokens ∧ tree.draft = draft := by
  cases hreaches with
  | after tree haround =>
      cases haround with
      | nil =>
          exact ⟨tree, (List.nil_append _).symm, (Reading.mk.inj hfinish).1⟩
      | _ => simp [Stage.finish] at hfinish
  | _ => simp [Stage.finish] at hfinish

/-! ## Whole texts -/

mutual

theorem stray_notMem_tokens (tree : Tree) : Token.stray ∉ tree.tokens :=
  match tree with
  | .null => by simp [Tree.tokens]
  | .flag _ => by simp [Tree.tokens]
  | .number _ => by simp [Tree.tokens]
  | .text _ => by simp [Tree.tokens]
  | .list [] => by simp [Tree.tokens]
  | .list (item :: more) => by
      simp [Tree.tokens, stray_notMem_tokens item, stray_notMem_itemTokens more]
  | .record [] => by simp [Tree.tokens]
  | .record ((_, value) :: more) => by
      simp [Tree.tokens, stray_notMem_tokens value,
        stray_notMem_fieldTokens more]

theorem stray_notMem_itemTokens (items : List Tree) :
    Token.stray ∉ itemTokens items :=
  match items with
  | [] => by simp [itemTokens]
  | item :: more =>
      by simp [itemTokens, stray_notMem_tokens item,
        stray_notMem_itemTokens more]

theorem stray_notMem_fieldTokens (fields : List (Option String × Tree)) :
    Token.stray ∉ fieldTokens fields :=
  match fields with
  | [] => by simp [fieldTokens]
  | (_, value) :: more => by
      simp [fieldTokens, stray_notMem_tokens value,
        stray_notMem_fieldTokens more]

end

/-- A text is read as a whole exactly if it is JSON, and then as what it
means. -/
theorem read_eq_whole_iff {text : List Symbol} {draft : Draft} :
    Json.read text = ⟨draft, true⟩ ↔
      ∃ tree : Tree, tree.Inscribes text ∧ tree.draft = draft := by
  constructor
  · intro hread
    have hreaches :
        Reaches ((tokens text).foldl Stage.step (.value [])) (tokens text) :=
      (Reaches.value .nil).foldl_step (tokens text)
    obtain ⟨tree, htokens, hdraft⟩ := hreaches.exists_tree hread
    have hinscribed := inscribed_tokens (htokens ▸ stray_notMem_tokens tree)
    rw [← htokens] at hinscribed
    exact ⟨tree, hinscribed, hdraft⟩
  · rintro ⟨tree, htext, rfl⟩
    exact read_of_inscribes htext

end LinkAnalysis.Json
