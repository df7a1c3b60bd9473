import LinkAnalysis.Json.Value
import LinkAnalysis.Proofs.Json.Grammar

/-!
# Writing

The compact text of a value is one of the spellings of its tree.
-/

namespace LinkAnalysis.Json

/-! ## Strings -/

theorem digitChar_mem_hexDigits {d : Nat} (hlt : d < 16) :
    (Nat.digitChar d, d) ∈ hexDigits := by
  have hall : ∀ d < 16, (Nat.digitChar d, d) ∈ hexDigits := by decide
  exact hall d hlt

theorem unitSpelling_escaped (c : Char) : UnitSpelling c.toNat (escaped c) := by
  unfold escaped
  split
  case h_8 hquote hescape _ _ _ _ _ =>
    split
    case isTrue hcontrol =>
      have hspelling :=
        UnitSpelling.hex (digitChar_mem_hexDigits (d := 0) (by decide))
          (digitChar_mem_hexDigits (d := 0) (by decide))
          (digitChar_mem_hexDigits (d := c.toNat / 16) (by omega))
          (digitChar_mem_hexDigits (d := c.toNat % 16) (by omega))
      have hvalue :
          ((0 * 16 + 0) * 16 + c.toNat / 16) * 16 + c.toNat % 16 = c.toNat := by
        omega
      rwa [hvalue] at hspelling
    case isFalse hcontrol => exact .plain (not_lt.mp hcontrol) hquote hescape
  all_goals exact .short (by decide)

theorem unitSpellings_escaped (chars : List Char) :
    UnitSpellings (chars.map Char.toNat) (chars.flatMap escaped) := by
  induction chars with
  | nil => exact .nil
  | cons c chars ih => exact .cons (unitSpelling_escaped c) ih

theorem encodes_map_toNat (chars : List Char) :
    Encodes chars (chars.map Char.toNat) := by
  induction chars with
  | nil => exact .nil
  | cons c chars ih => exact .single c ih

theorem lexeme_quoted (content : String) :
    Lexeme (.text (some content)) (quoted content) :=
  .text (encodes_map_toNat content.toList)
    (unitSpellings_escaped content.toList)

/-! ## Lists of tokens -/

theorem blanks_nil : Blanks [] := fun _ hc => absurd hc List.not_mem_nil

theorem spelled_empty : Spelled [] [] := .nil blanks_nil

theorem Spelled.blanks_append
    {blanks l : List Char} {tokens : List Token}
    (hblanks : Blanks blanks)
    (hspelled : Spelled tokens l) :
    Spelled tokens (blanks ++ l) := by
  cases hspelled with
  | nil hmore =>
      exact .nil fun c hc => (List.mem_append.mp hc).elim (hblanks c) (hmore c)
  | cons hmore hlexeme hrest =>
      rw [← List.append_assoc]
      exact .cons (fun c hc =>
        (List.mem_append.mp hc).elim (hblanks c) (hmore c)) hlexeme hrest

theorem Spelled.append
    {tokens more : List Token} {l rest : List Char}
    (hspelled : Spelled tokens l)
    (hmore : Spelled more rest) :
    Spelled (tokens ++ more) (l ++ rest) := by
  induction hspelled with
  | nil hblanks => exact hmore.blanks_append hblanks
  | cons hblanks hlexeme _ ih =>
      rw [List.append_assoc, List.append_assoc]
      exact .cons hblanks hlexeme ih

theorem Spelled.cons_lexeme
    {token : Token} {tokens : List Token} {l rest : List Char}
    (hlexeme : Lexeme token l)
    (hrest : Spelled tokens rest) :
    Spelled (token :: tokens) (l ++ rest) :=
  .cons blanks_nil hlexeme hrest

/-! ## Values -/

/-- The compact text of a value spells this tree. -/
def Value.Writes (v : Value) (tree : Tree) : Prop :=
  Spelled tree.tokens v.compact

theorem writes_text (content : String) :
    (Value.text content).Writes (.text (some content)) := by
  have hspelled := Spelled.cons_lexeme (lexeme_quoted content) spelled_empty
  rwa [List.append_nil] at hspelled

theorem spelled_compactItems
    {values : List Value} {items : List Tree}
    (hforall : List.Forall₂ Value.Writes values items) :
    Spelled (itemTokens items) (compactItems values) := by
  induction hforall with
  | nil => exact .cons_lexeme .closeList spelled_empty
  | cons hitem _ ih => exact .cons_lexeme .comma (hitem.append ih)

theorem writes_list
    {values : List Value} {items : List Tree}
    (hforall : List.Forall₂ Value.Writes values items) :
    (Value.list values).Writes (.list items) := by
  cases hforall with
  | nil => exact .cons_lexeme .openList (.cons_lexeme .closeList spelled_empty)
  | cons hitem hmore =>
      exact .cons_lexeme .openList (hitem.append (spelled_compactItems hmore))

/-- A field is written with its name. -/
def FieldWrites (field : String × Value)
    (entry : Option String × Tree) : Prop :=
  entry.1 = some field.1 ∧ field.2.Writes entry.2

theorem spelled_compactFields
    {fields : List (String × Value)} {entries : List (Option String × Tree)}
    (hforall : List.Forall₂ FieldWrites fields entries) :
    Spelled (fieldTokens entries) (compactFields fields) := by
  induction hforall with
  | nil => exact .cons_lexeme .closeRecord spelled_empty
  | @cons field entry fields entries hfield _ ih =>
      obtain ⟨name, value⟩ := field
      obtain ⟨_, tree⟩ := entry
      obtain ⟨rfl, hvalue⟩ := hfield
      exact .cons_lexeme .comma (.cons_lexeme (lexeme_quoted name)
        (.cons_lexeme .colon (hvalue.append ih)))

theorem writes_record
    {fields : List (String × Value)} {entries : List (Option String × Tree)}
    (hforall : List.Forall₂ FieldWrites fields entries) :
    (Value.record fields).Writes (.record entries) := by
  cases hforall with
  | nil =>
      exact .cons_lexeme .openRecord (.cons_lexeme .closeRecord spelled_empty)
  | @cons field entry fields entries hfield hmore =>
      obtain ⟨name, value⟩ := field
      obtain ⟨_, tree⟩ := entry
      obtain ⟨rfl, hvalue⟩ := hfield
      exact .cons_lexeme .openRecord (.cons_lexeme (lexeme_quoted name)
        (.cons_lexeme .colon (hvalue.append (spelled_compactFields hmore))))

theorem spells_toText
    {v : Value} {tree : Tree}
    (hwrites : v.Writes tree) :
    tree.Spells v.toText := by
  rw [Tree.Spells, Value.toText, String.toList_ofList]
  exact hwrites

end LinkAnalysis.Json
