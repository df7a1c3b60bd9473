import LinkAnalysis.Json.Record
import Mathlib.Tactic

/-!
# Records with known fields

Whether a record is read, and as what, depends for every known field on the
entries that answer to it and on nothing else: there may be one such entry, or
none where the field may be left out.  In particular the order of entries does
not matter, and entries with other names do not.
-/

namespace LinkAnalysis.Json

namespace Member

variable {β : Type} {fields : List (Member β)}

/-- The entries of a record that answer to a field. -/
def answers (field : Member β) (entries : List (Option String × Draft)) :
    List (Option String × Draft) :=
  entries.filter fun entry => entry.1.any field.answersTo

/-- A field whose slot holds this so far will have this value at the end of its
record. -/
def Settles (field : Member β) (entries : List (Option String × Draft))
    (slot : Option β) (value : β) : Prop :=
  match slot, field.answers entries with
  | some found, [] => found = value
  | none, [] => field.absent = some value
  | none, [entry] => field.read entry.2 = .ok value
  | _, _ => False

/-- No two fields answer to the same name. -/
def Distinct (fields : List (Member β)) : Prop :=
  ∀ {i j : Nat} {field other : Member β} {label : String},
    fields[i]? = some field → fields[j]? = some other →
      field.answersTo label = true → other.answersTo label = true → i = j

theorem distinct_of_pairwise
    (hpairwise : fields.Pairwise fun field other =>
      ∀ label, field.answersTo label = true → ¬ other.answersTo label = true) :
    Distinct fields := by
  intro i j field other label hfield hother hlabel hlabel'
  obtain ⟨hi, rfl⟩ := List.getElem?_eq_some_iff.mp hfield
  obtain ⟨hj, rfl⟩ := List.getElem?_eq_some_iff.mp hother
  rcases lt_trichotomy i j with hlt | heq | hlt
  · exact absurd hlabel'
      (List.pairwise_iff_getElem.mp hpairwise i j hi hj hlt label hlabel)
  · exact heq
  · exact absurd hlabel
      (List.pairwise_iff_getElem.mp hpairwise j i hj hi hlt label hlabel')

theorem answers_cons_of_answersTo
    {field : Member β} {label : String}
    (hanswers : field.answersTo label = true)
    (draft : Draft) (entries : List (Option String × Draft)) :
    field.answers ((some label, draft) :: entries) =
      (some label, draft) :: field.answers entries :=
  List.filter_cons_of_pos hanswers

theorem answers_cons_of_not_answersTo
    {field : Member β} {label : String}
    (hsilent : ¬ field.answersTo label = true)
    (draft : Draft) (entries : List (Option String × Draft)) :
    field.answers ((some label, draft) :: entries) = field.answers entries :=
  List.filter_cons_of_neg hsilent

theorem settles_none_iff
    {field : Member β} {entries : List (Option String × Draft)} {value : β} :
    field.Settles entries none value ↔
      field.answers entries = [] ∧ field.absent = some value ∨
        ∃ entry, field.answers entries = [entry] ∧
          field.read entry.2 = .ok value := by
  unfold Settles
  cases field.answers entries with
  | nil => simp
  | cons entry more => cases more <;> simp

theorem settles_nil
    {field : Member β} {slot : Option β} {value : β} :
    field.Settles [] slot value ↔ slot.or field.absent = some value := by
  cases slot <;> simp [Settles, answers]

section Answered

variable {field : Member β} {label : String}
  (hanswers : field.answersTo label = true)

include hanswers

theorem settles_cons_of_read
    {draft : Draft} {b : β}
    (hread : field.read draft = .ok b)
    {entries : List (Option String × Draft)} {value : β} :
    field.Settles ((some label, draft) :: entries) none value ↔
      field.Settles entries (some b) value := by
  unfold Settles
  rw [answers_cons_of_answersTo hanswers]
  cases field.answers entries <;> simp [hread]

theorem not_settles_cons_of_error
    {draft : Draft} {e : Misread}
    (hread : field.read draft = .error e)
    {entries : List (Option String × Draft)} {value : β} :
    ¬ field.Settles ((some label, draft) :: entries) none value := by
  unfold Settles
  rw [answers_cons_of_answersTo hanswers]
  cases field.answers entries <;> simp [hread]

theorem not_settles_cons_of_found
    {draft : Draft} {b : β} {entries : List (Option String × Draft)}
    {value : β} :
    ¬ field.Settles ((some label, draft) :: entries) (some b) value := by
  unfold Settles
  rw [answers_cons_of_answersTo hanswers]
  simp

end Answered

/-- These are the values of all fields at the end of the record. -/
structure AllSettle (fields : List (Member β))
    (entries : List (Option String × Draft)) (slots : List (Option β))
    (values : List β) : Prop where
  length_eq : values.length = fields.length
  settles : ∀ {i : Nat} {field : Member β} {slot : Option β} {value : β},
    fields[i]? = some field → slots[i]? = some slot → values[i]? = some value →
      field.Settles entries slot value

theorem allSettle_cons_iff
    {field : Member β} {entries : List (Option String × Draft)}
    {slot : Option β} {slots : List (Option β)} {values : List β} :
    AllSettle (field :: fields) entries (slot :: slots) values ↔ ∃ value more,
      values = value :: more ∧
      field.Settles entries slot value ∧
      AllSettle fields entries slots more := by
  constructor
  · intro hsettle
    obtain ⟨value, more, rfl⟩ :=
      List.exists_cons_of_length_eq_add_one hsettle.length_eq
    refine ⟨value, more, rfl, hsettle.settles (i := 0) rfl rfl rfl,
      by simpa using hsettle.length_eq, ?_⟩
    exact fun {i} {_ _ _} hfield hslot hvalue =>
      hsettle.settles (i := i + 1) hfield hslot hvalue
  · rintro ⟨value, more, rfl, hfirst, hmore⟩
    refine ⟨by
      simp [hmore.length_eq], fun {i} {_ _ _} hfield hslot hvalue => ?_⟩
    cases i with
    | zero =>
        simp only [List.getElem?_cons_zero,
          Option.some_inj] at hfield hslot hvalue
        subst hfield hslot hvalue
        exact hfirst
    | succ i => exact hmore.settles hfield hslot hvalue

/-- The values of all fields do not settle if one field does not. -/
theorem not_allSettle_of_not_settles
    {entries : List (Option String × Draft)} {slots : List (Option β)} {i : Nat}
    {field : Member β} {slot : Option β}
    (hfield : fields[i]? = some field)
    (hslot : slots[i]? = some slot)
    (hunsettled : ∀ value, ¬ field.Settles entries slot value)
    (values : List β) :
    ¬ AllSettle fields entries slots values := by
  intro hall
  have hi : i < values.length := by
    rw [hall.length_eq]
    exact (List.getElem?_eq_some_iff.mp hfield).1
  exact hunsettled _ (hall.settles hfield hslot (List.getElem?_eq_getElem hi))

theorem settle_cons_eq_ok_iff
    {field : Member β} {slot : Option β} {slots : List (Option β)}
    {values : List β} :
    settle (field :: fields) (slot :: slots) = .ok values ↔ ∃ value more,
      values = value :: more ∧
      slot.or field.absent = some value ∧
      settle fields slots = .ok more := by
  rw [settle]
  cases slot.or field.absent with
  | none => simp
  | some value =>
      cases settle fields slots with
      | error e => simp [Except.map]
      | ok more => simp [Except.map, eq_comm]

theorem settle_eq_ok_iff
    {slots : List (Option β)}
    (hlength : slots.length = fields.length)
    {values : List β} :
    settle fields slots = .ok values ↔ AllSettle fields [] slots values := by
  induction fields generalizing slots values with
  | nil =>
      obtain rfl := List.eq_nil_of_length_eq_zero hlength
      constructor
      · intro hsettle
        obtain rfl : [] = values := Except.ok.inj hsettle
        exact ⟨rfl, fun hfield => by simp at hfield⟩
      · intro hsettle
        rw [List.eq_nil_of_length_eq_zero hsettle.length_eq]
        rfl
  | cons field fields ih =>
      obtain ⟨slot, slots, rfl⟩ := List.exists_cons_of_length_eq_add_one hlength
      have hlength' : slots.length = fields.length := by simpa using hlength
      simp only [settle_cons_eq_ok_iff, allSettle_cons_iff, settles_nil,
        ih hlength']

theorem allSettle_congr
    {entries entries' : List (Option String × Draft)}
    (hanswers : ∀ field ∈ fields,
      field.answers entries = field.answers entries')
    {slots : List (Option β)} {values : List β} :
    AllSettle fields entries slots values ↔
      AllSettle fields entries' slots values := by
  have hone : ∀ {entries entries' : List (Option String × Draft)},
      (∀ field ∈ fields, field.answers entries = field.answers entries') →
        AllSettle fields entries slots values →
        AllSettle fields entries' slots values := by
    intro entries entries' hanswers hall
    refine ⟨hall.length_eq, fun hfield hslot hvalue => ?_⟩
    have hsettles := hall.settles hfield hslot hvalue
    unfold Settles at hsettles ⊢
    rwa [hanswers _ (List.mem_of_getElem? hfield)] at hsettles
  exact ⟨hone hanswers, hone fun field hmem => (hanswers field hmem).symm⟩

/-- An answer fills the slot of its field. -/
theorem allSettle_set_iff
    (hdistinct : Distinct fields)
    {i : Nat} {field : Member β} {label : String} {draft : Draft} {b : β}
    (hfield : fields[i]? = some field)
    (hanswers : field.answersTo label = true)
    (hread : field.read draft = .ok b)
    {entries : List (Option String × Draft)} {slots : List (Option β)}
    (hslot : slots[i]? = some none)
    {values : List β} :
    AllSettle fields entries (slots.set i (some b)) values ↔
      AllSettle fields ((some label, draft) :: entries) slots values := by
  have hlt : i < slots.length := (List.getElem?_eq_some_iff.mp hslot).1
  have hother : ∀ {j : Nat} {other : Member β},
      j ≠ i → fields[j]? = some other → ¬ other.answersTo label = true :=
    fun hne hget hlabel => hne (hdistinct hget hfield hlabel hanswers)
  constructor
  · intro hsettle
    refine ⟨hsettle.length_eq,
      fun {j other slot value} hget hslot' hvalue => ?_⟩
    by_cases hji : j = i
    · subst j
      obtain rfl := Option.some_inj.mp (hfield.symm.trans hget)
      obtain rfl := Option.some_inj.mp (hslot.symm.trans hslot')
      rw [settles_cons_of_read hanswers hread]
      exact hsettle.settles hfield (List.getElem?_set_self hlt) hvalue
    · have hsettles := hsettle.settles hget
        ((List.getElem?_set_ne (Ne.symm hji)).trans hslot') hvalue
      unfold Settles at hsettles ⊢
      rwa [answers_cons_of_not_answersTo (hother hji hget)]
  · intro hsettle
    refine ⟨hsettle.length_eq,
      fun {j other slot value} hget hslot' hvalue => ?_⟩
    by_cases hji : j = i
    · subst j
      obtain rfl := Option.some_inj.mp (hfield.symm.trans hget)
      obtain rfl :=
        Option.some_inj.mp ((List.getElem?_set_self hlt).symm.trans hslot')
      rw [← settles_cons_of_read hanswers hread]
      exact hsettle.settles hfield hslot hvalue
    · have hsettles := hsettle.settles hget
        ((List.getElem?_set_ne (Ne.symm hji)).symm.trans hslot') hvalue
      unfold Settles at hsettles ⊢
      rwa [answers_cons_of_not_answersTo (hother hji hget)] at hsettles

theorem ofNamed_eq_ok_iff
    (hdistinct : Distinct fields)
    {entries : List (Option String × Draft)} {slots : List (Option β)}
    (hlength : slots.length = fields.length)
    {values : List β} :
    ofNamed fields true entries slots = .ok values ↔
      (∀ entry ∈ entries, entry.1.isSome = true) ∧
        AllSettle fields entries slots values := by
  induction entries generalizing slots with
  | nil => simp [ofNamed, settle_eq_ok_iff hlength]
  | cons entry entries ih =>
      obtain ⟨name, draft⟩ := entry
      cases name with
      | none => simp [ofNamed]
      | some label =>
          rw [List.forall_mem_cons, and_assoc, Option.isSome_some,
            and_iff_right rfl, ofNamed]
          cases hfind : fields.findIdx? (·.answersTo label) with
          | none =>
              rw [List.findIdx?_eq_none_iff] at hfind
              have hsame : ∀ field ∈ fields, field.answers
                    ((some label, draft) :: entries) = field.answers entries :=
                fun field hmem =>
                  answers_cons_of_not_answersTo (by simp [hfind field hmem]) _ _
              rw [allSettle_congr hsame]
              exact ih hlength
          | some i =>
              obtain ⟨hlt, hanswers, -⟩ :=
                List.findIdx?_eq_some_iff_getElem.mp hfind
              have hfield : fields[i]? = some fields[i] :=
                List.getElem?_eq_getElem hlt
              have hget : slots[i]? = some slots[i] :=
                List.getElem?_eq_getElem (by omega)
              generalize fields[i] = field at hfield hanswers
              generalize slots[i] = slot at hget
              simp only [hfield, hget]
              cases slot with
              | some b =>
                  refine iff_of_false (by simp) fun hboth => ?_
                  exact not_allSettle_of_not_settles hfield hget
                    (fun _ => not_settles_cons_of_found hanswers) values hboth.2
              | none =>
                  cases hread : field.read draft with
                  | error e =>
                      simp only [hread]
                      refine iff_of_false (by simp) fun hboth => ?_
                      exact not_allSettle_of_not_settles hfield hget (fun _ =>
                        not_settles_cons_of_error hanswers hread) values hboth.2
                  | ok b =>
                      simp only [hread]
                      rw [ih (by simpa using hlength),
                        allSettle_set_iff hdistinct hfield hanswers hread hget]

/-- What a closed record is read as depends on the answers to each field. -/
theorem readRecord_eq_ok_iff
    (hdistinct : Distinct fields)
    {entries : List (Option String × Draft)} {values : List β} :
    readRecord fields (.record entries true) = .ok values ↔
      (∀ entry ∈ entries, entry.1.isSome = true) ∧
        AllSettle fields entries (fields.map fun _ => none) values :=
  ofNamed_eq_ok_iff hdistinct (List.length_map _)

end Member

/-! ## Lists -/

theorem mapM_eq_ok_iff
    {α β ε : Type} {f : α → Except ε β} {items : List α} {values : List β} :
    items.mapM f = .ok values ↔
      List.Forall₂ (fun item value => f item = .ok value) items values := by
  induction items generalizing values with
  | nil =>
      rw [List.mapM_nil, List.forall₂_nil_left_iff]
      exact ⟨fun hok => (Except.ok.inj hok).symm,
        fun hvalues => congrArg Except.ok hvalues.symm⟩
  | cons item items ih =>
      rw [List.mapM_cons, List.forall₂_cons_left_iff]
      cases hitem : f item with
      | error e =>
          refine iff_of_false (fun hok => by cases hok) ?_
          rintro ⟨value, more, hvalue, -, -⟩
          simp at hvalue
      | ok b =>
          cases hmore : items.mapM f with
          | error e =>
              refine iff_of_false (fun hok => by cases hok) ?_
              rintro ⟨value, more, -, hall, -⟩
              rw [← ih, hmore] at hall
              cases hall
          | ok bs =>
              constructor
              · intro hok
                exact ⟨b, bs, rfl, ih.mp hmore, (Except.ok.inj hok).symm⟩
              · rintro ⟨value, more, hvalue, hall, rfl⟩
                rw [← ih, hmore] at hall
                obtain rfl := Except.ok.inj hvalue
                obtain rfl := Except.ok.inj hall
                rfl

theorem readList_eq_ok_iff
    {β : Type} {item : Draft → Except Misread β} {drafts : List Draft}
    {values : List β} :
    readList item (.list drafts true) = .ok values ↔ List.Forall₂
      (fun draft value => item draft = .ok value) drafts values := by
  rw [← mapM_eq_ok_iff, readList]
  cases drafts.mapM item <;> simp

end LinkAnalysis.Json
