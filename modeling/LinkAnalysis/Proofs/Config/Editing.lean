import LinkAnalysis.Proofs.Config.Fields

/-!
# Editing configuration documents

A document is edited by writing fields of it.  What is written is what the
document says from then on, and what it says of the other fields stays as it
was.
-/

namespace LinkAnalysis

theorem lookup_filter_ne
    {β : Type} {name other : String}
    (hne : other ≠ name)
    (fields : List (String × β)) :
    (fields.filter fun f => f.1 != name).lookup other =
      fields.lookup other := by
  induction fields with
  | nil => rfl
  | cons f fields ih =>
      obtain ⟨first, value⟩ := f
      by_cases hfirst : first = name
      · subst hfirst
        rw [List.filter_cons_of_neg (by simp), ih, List.lookup_cons,
          beq_false_of_ne hne]
      · rw [List.filter_cons_of_pos (by simpa using hfirst), List.lookup_cons,
          List.lookup_cons, ih]

namespace Setting

/-! ## Tables -/

/-- Write a value under a name in a table. -/
def put : Setting → String → Setting → Setting
  | table fields, name, value =>
    table ((name, value) :: fields.filter fun f => f.1 != name)
  | s, _, _ => s

/-- What stands under a name in a table, an empty table if nothing does. -/
def part (name : String) : Setting → Setting
  | table fields => (fields.lookup name).getD (.table [])
  | s => s

def IsTable (s : Setting) : Prop := ∃ fields, s = table fields

section Tables

variable {β : Type} {read : Setting → Option β} {default : β} {position : Nat}
  {name other : String} {value s : Setting}

theorem IsTable.put
    (htable : s.IsTable)
    (name : String) (value : Setting) :
    (s.put name value).IsTable := by
  obtain ⟨fields, rfl⟩ := htable
  exact ⟨_, rfl⟩

theorem field_put (htable : s.IsTable) :
    field read name position default (s.put name value) = read value := by
  obtain ⟨fields, rfl⟩ := htable
  simp [put, field]

theorem field_put_ne (hne : other ≠ name) :
    field read other position default (s.put name value) =
      field read other position default s := by
  cases s with
  | table fields =>
      simp only [put, field, List.lookup_cons, beq_false_of_ne hne,
        lookup_filter_ne hne]
  | _ => rfl

theorem part_put (htable : s.IsTable) :
    (s.put name value).part name = value := by
  obtain ⟨fields, rfl⟩ := htable
  simp [put, part]

theorem part_put_ne (hne : other ≠ name) :
    (s.put name value).part other = s.part other := by
  cases s with
  | table fields =>
      simp only [put, part, List.lookup_cons, beq_false_of_ne hne,
        lookup_filter_ne hne]
  | _ => rfl

end Tables

/-! ## Fields -/

/-- A document whose sections are tables. -/
structure Tabular (d : Setting) : Prop where
  isTable : d.IsTable
  isTable_part : ∀ e : ConfigField, (d.part e.home.name).IsTable

/-- Write a value into the field of a document. -/
def write (d : Setting) (e : ConfigField) (value : Setting) : Setting :=
  d.put e.home.name ((d.part e.home.name).put e.spot.name value)

variable {d value : Setting} {e e' : ConfigField}

theorem IsTable.states_eq (htable : d.IsTable) (e : ConfigField) :
    d.states e = (d.part e.home.name).stated e := by
  obtain ⟨parts, rfl⟩ := htable
  simp only [states, field, part]
  cases parts.lookup e.home.name <;> rfl

theorem Tabular.write
    (htabular : d.Tabular)
    (e : ConfigField) (value : Setting) :
    (d.write e value).Tabular where
  isTable := htabular.isTable.put _ _
  isTable_part e' := by
    rw [Setting.write]
    by_cases hhome : e'.home.name = e.home.name
    · rw [hhome, part_put htabular.isTable]
      exact (htabular.isTable_part e).put _ _
    · rw [part_put_ne hhome]
      exact htabular.isTable_part e'

theorem ConfigField.eq_of_names
    (hhome : e.home.name = e'.home.name)
    (hspot : e.spot.name = e'.spot.name) :
    e = e' := by
  revert e e'
  decide

theorem Tabular.states_write
    (htabular : d.Tabular)
    (e e' : ConfigField) (value : Setting) :
    (d.write e value).states e' =
      if e' = e then e.read value else d.states e' := by
  rw [(htabular.write e value).isTable.states_eq, htabular.isTable.states_eq,
    Setting.write]
  by_cases hhome : e'.home.name = e.home.name
  · rw [hhome, part_put htabular.isTable]
    by_cases hspot : e'.spot.name = e.spot.name
    · obtain rfl := ConfigField.eq_of_names hhome hspot
      rw [if_pos rfl, stated, field_put (htabular.isTable_part e')]
    · rw [if_neg fun heq => hspot (congrArg (·.spot.name) heq), stated,
        field_put_ne hspot, stated]
  · rw [if_neg fun heq => hhome (congrArg (·.home.name) heq), part_put_ne hhome]

end Setting

/-! ## Amounts -/

def Amount.toSetting : Amount → Setting
  | count n => .integer n
  | score x => .decimal x

/-- Whether an amount can stand in a field. -/
def Amount.Fits (e : ConfigField) : Amount → Prop
  | count n => e.isScore = false ∧ n < wordSize
  | score _ => e.isScore = true

theorem Amount.Fits.read_toSetting
    {e : ConfigField} {a : Amount}
    (hfits : a.Fits e) :
    e.read a.toSetting = some a := by
  cases a with
  | count n =>
      obtain ⟨hkind, hlt⟩ := hfits
      simp [ConfigField.read, hkind, toSetting, Setting.count?, hlt]
  | score x =>
      have hkind : e.isScore = true := hfits
      simp [ConfigField.read, hkind, toSetting, Setting.score?]

namespace Setting

/-- Write into a document what is said of some fields. -/
def amend (said : ConfigField → Option Amount) (fields : List ConfigField)
    (d : Setting) : Setting :=
  fields.foldl (fun d e =>
    ((said e).map fun a => d.write e a.toSetting).getD d) d

variable {said : ConfigField → Option Amount}

theorem Tabular.states_amend
    {d : Setting}
    (htabular : d.Tabular)
    (hfits : ∀ e a, said e = some a → a.Fits e)
    (fields : List ConfigField) (e : ConfigField) :
    (d.amend said fields).states e =
      if e ∈ fields then (said e).or (d.states e) else d.states e := by
  induction fields generalizing d with
  | nil => rfl
  | cons first fields ih =>
      rw [amend, List.foldl_cons, ← amend]
      cases hsaid : said first with
      | none =>
          rw [Option.map_none, Option.getD_none, ih htabular]
          by_cases he : e = first
          · subst he
            simp [hsaid]
          · simp [he]
      | some a =>
          rw [Option.map_some, Option.getD_some, ih (htabular.write _ _),
            htabular.states_write, (hfits first a hsaid).read_toSetting]
          by_cases he : e = first
          · subst he
            simp [hsaid]
          · simp [he]

end Setting

end LinkAnalysis
