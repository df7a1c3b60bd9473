import LinkAnalysis.Proofs.Json.Form
import Mathlib

/-!
# Fitting a contract

Besides a record of its fields, a contract is met by a list of their values in
the order of the declaration, of which the last may be left out where the fields
may.  A reader that takes exactly the forms of its fields takes exactly what
fits the contract, and takes it as the values in question.
-/

namespace LinkAnalysis.Json

/-- The values of the fields of a contract, in the order of their
declaration. -/
inductive IsListOf : List FieldForm → List Tree → Prop
  | nil : IsListOf [] []
  | present {form : FieldForm} {forms : List FieldForm} {item : Tree}
      {items : List Tree} (hitem : form.Writes item)
      (hmore : IsListOf forms items) : IsListOf (form :: forms) (item :: items)
  | omitted {form : FieldForm} {forms : List FieldForm}
      (homissible : form.omissible) (hmore : IsListOf forms []) :
      IsListOf (form :: forms) []

theorem isListOf_cons_nil_iff {form : FieldForm} {forms : List FieldForm} :
    IsListOf (form :: forms) [] ↔ form.omissible ∧ IsListOf forms [] := by
  refine ⟨fun hlist => ?_, fun hboth => .omitted hboth.1 hboth.2⟩
  cases hlist with
  | omitted homissible hmore => exact ⟨homissible, hmore⟩

theorem isListOf_cons_cons_iff
    {form : FieldForm} {forms : List FieldForm} {item : Tree}
    {items : List Tree} :
    IsListOf (form :: forms) (item :: items) ↔
      form.Writes item ∧ IsListOf forms items := by
  refine ⟨fun hlist => ?_, fun hboth => .present hboth.1 hboth.2⟩
  cases hlist with
  | present hitem hmore => exact ⟨hitem, hmore⟩

/-- A record of these fields, or a list of their values. -/
def Tree.Fits (tree : Tree) (forms : List FieldForm) : Prop :=
  tree.IsRecordOf forms ∨ ∃ items, tree = .list items ∧ IsListOf forms items

theorem filter_disjoint_perm
    {α ι : Type} {p : ι → α → Bool} {l : List α} {keys : List ι}
    (hpairwise : keys.Pairwise fun i j => ∀ a, p i a = true → ¬ p j a = true) :
    l.Perm ((keys.map fun i => l.filter (p i)).flatten ++
      l.filter fun a => keys.all fun i => !p i a) := by
  induction keys generalizing l with
  | nil => simp
  | cons i keys ih =>
      obtain ⟨hfirst, hmore⟩ := List.pairwise_cons.mp hpairwise
      have hrest := ih (l := l.filter fun a => !p i a) hmore
      have hparts :
          (keys.map fun j => (l.filter fun a => !p i a).filter (p j)) =
            keys.map fun j => l.filter (p j) := by
        refine List.map_congr_left fun j hj => ?_
        rw [List.filter_filter]
        refine List.filter_congr fun a _ => ?_
        cases hi : p i a with
        | false => simp
        | true => simpa using hfirst j hj a hi
      have hothers :
          ((l.filter fun a => !p i a).filter fun a => keys.all fun j =>
              !p j a) = l.filter fun a => (i :: keys).all fun j => !p j a := by
        rw [List.filter_filter]
        exact List.filter_congr fun a _ => by rw [List.all_cons, Bool.and_comm]
      rw [hparts, hothers] at hrest
      rw [List.map_cons, List.flatten_cons, List.append_assoc]
      exact (List.filter_append_perm (p i) l).symm.trans (hrest.append_left _)

namespace Member

variable {β : Type}

/-- A reader of a field takes as this value the forms of the field, and nothing
else. -/
structure Reads (member : Member β) (form : FieldForm) (value : β) : Prop where
  answersTo_iff : ∀ label, member.answersTo label = true ↔ label ∈ form.names
  absent_iff : member.absent = some value ↔ form.omissible
  read_iff : ∀ tree : Tree,
    member.read tree.draft = .ok value ↔ form.Writes tree

theorem Reads.takes
    {member : Member β} {form : FieldForm} {value : β}
    (hreads : member.Reads form value) :
    member.Takes form value where
  answersTo_iff := hreads.answersTo_iff
  absent_eq := hreads.absent_iff.mpr
  read_eq tree := (hreads.read_iff tree).mpr

theorem pairwise_of_distinct
    {members : List (Member β)}
    (hdistinct : Distinct members) :
    members.Pairwise fun member other => ∀ label,
      member.answersTo label = true → ¬ other.answersTo label = true := by
  refine List.pairwise_iff_getElem.mpr
    fun i j hi hj hlt label hmember hother => ?_
  exact hlt.ne (hdistinct (List.getElem?_eq_getElem hi)
    (List.getElem?_eq_getElem hj) hmember hother)

/-! ## Records -/

/-- The entries of a record that bear a name of this field. -/
def entriesOf (member : Member β) (entries : List (Option String × Tree)) :
    List (Option String × Tree) :=
  entries.filter fun entry => entry.1.any member.answersTo

theorem settles_iff_entries
    {member : Member β} {form : FieldForm} {value : β}
    (hreads : member.Reads form value)
    {entries : List (Option String × Tree)} :
    member.Settles (fieldDrafts entries) none value ↔
      form.Entries (member.entriesOf entries) := by
  refine ⟨fun hsettles => ?_,
    fun hform => settles_of_entries hreads.takes hform (List.Perm.refl _)⟩
  rw [settles_none_iff, answers_fieldDrafts] at hsettles
  change fieldDrafts (member.entriesOf entries) = [] ∧ _ ∨
    ∃ entry, fieldDrafts (member.entriesOf entries) = [entry] ∧ _ at hsettles
  rw [fieldDrafts_eq_map] at hsettles
  rcases hsettles with ⟨hnone, habsent⟩ | ⟨entry, hone, hread⟩
  · rw [List.map_eq_nil_iff.mp hnone]
    exact .omitted (hreads.absent_iff.mp habsent)
  · obtain ⟨⟨name, tree⟩, hentries, rfl⟩ := List.map_eq_singleton_iff.mp hone
    have hname : name.any member.answersTo = true := by
      have hmem : (name, tree) ∈ member.entriesOf entries := by
        rw [hentries]
        exact List.mem_singleton_self _
      exact (List.mem_filter.mp hmem).2
    obtain ⟨label, rfl, hlabel⟩ := (Option.any_eq_true _ _).mp hname
    rw [hentries]
    exact .present ((hreads.answersTo_iff label).mp hlabel)
      ((hreads.read_iff tree).mp hread)

theorem map_cons_eq_ok_iff
    {b value : β} {more : List β} {read : Except Misread (List β)} :
    read.map (b :: ·) = .ok (value :: more) ↔ b = value ∧ read = .ok more := by
  cases read <;> simp [Except.map]

section Contents

variable {members : List (Member β)}
  {contents : List (FieldForm × β)} (hreads : List.Forall₂
  (fun member content => member.Reads content.1 content.2) members contents)

include hreads

theorem allSettle_iff_entries {entries : List (Option String × Tree)} :
    AllSettle members (fieldDrafts entries) (members.map fun _ => none)
        (contents.map Prod.snd) ↔
      List.Forall₂ FieldForm.Entries (contents.map Prod.fst)
        (members.map fun member => member.entriesOf entries) := by
  induction hreads with
  | nil =>
      exact ⟨fun _ => .nil, fun _ => ⟨rfl, fun hfield => by simp at hfield⟩⟩
  | @cons member content members contents hmember _ ih =>
      simp only [List.map_cons, allSettle_cons_iff, List.forall₂_cons]
      rw [← ih, ← settles_iff_entries hmember]
      constructor
      · rintro ⟨value, more, hvalues, hfirst, hmore⟩
        obtain ⟨rfl, rfl⟩ := List.cons.inj hvalues
        exact ⟨hfirst, hmore⟩
      · rintro ⟨hfirst, hmore⟩
        exact ⟨_, _, rfl, hfirst, hmore⟩

theorem foreign_iff {label : String} :
    (members.all fun member => !member.answersTo label) = true ↔
      ∀ form ∈ contents.map Prod.fst, label ∉ form.names := by
  induction hreads with
  | nil => simp
  | cons hmember _ ih =>
      rw [List.all_cons, Bool.and_eq_true, ih, List.map_cons,
        List.forall_mem_cons, Bool.not_eq_true', ← hmember.answersTo_iff,
        Bool.not_eq_true]

theorem isRecordOf_of_readRecord
    (hdistinct : Distinct members)
    {entries : List (Option String × Tree)}
    (hread : readRecord members (Tree.record entries).draft =
      .ok (contents.map Prod.snd)) :
    (Tree.record entries).IsRecordOf (contents.map Prod.fst) := by
  rw [Tree.draft, readRecord_eq_ok_iff hdistinct,
    allSettle_iff_entries hreads] at hread
  obtain ⟨hnamed, hparts⟩ := hread
  refine ⟨_, entries.filter fun entry => members.all fun member =>
    !entry.1.any member.answersTo, entries, hparts, fun entry hentry => ?_,
    filter_disjoint_perm ?_, rfl⟩
  · obtain ⟨hmem, hforeign⟩ := List.mem_filter.mp hentry
    have hdraft : (entry.1, entry.2.draft) ∈ fieldDrafts entries := by
      rw [fieldDrafts_eq_map]
      exact List.mem_map.mpr ⟨entry, hmem, rfl⟩
    obtain ⟨label, hlabel⟩ := Option.isSome_iff_exists.mp (hnamed _ hdraft)
    simp only [show entry.1 = some label from hlabel,
      Option.any_some] at hforeign
    exact ⟨label, hlabel, (foreign_iff hreads).mp hforeign⟩
  · refine (pairwise_of_distinct hdistinct).imp
      fun {member other} hne entry hmember => ?_
    obtain ⟨label, hlabel, hanswers⟩ := (Option.any_eq_true _ _).mp hmember
    rw [hlabel]
    exact hne label hanswers

theorem ofListed_eq_ok_iff {items : List Tree} :
    ofListed true members (itemDrafts items) = .ok (contents.map Prod.snd) ↔
      IsListOf (contents.map Prod.fst) items := by
  induction hreads generalizing items with
  | nil =>
      cases items with
      | nil => exact ⟨fun _ => .nil, fun _ => rfl⟩
      | cons item items =>
          exact iff_of_false (by simp [ofListed, itemDrafts]) (fun hlist =>
            nomatch hlist)
  | @cons member content members contents hmember _ ih =>
      cases items with
      | nil =>
          rw [List.map_cons, List.map_cons, isListOf_cons_nil_iff,
            ← hmember.absent_iff, ← ih]
          cases habsent : member.absent with
          | none => simp [ofListed, itemDrafts, habsent]
          | some b => simp [ofListed, itemDrafts, habsent, map_cons_eq_ok_iff]
      | cons item items =>
          rw [List.map_cons, List.map_cons, isListOf_cons_cons_iff,
            ← hmember.read_iff, ← ih]
          cases hread : member.read item.draft with
          | error e => simp [ofListed, itemDrafts, hread]
          | ok b => simp [ofListed, itemDrafts, hread, map_cons_eq_ok_iff]

/-- What is read as these values is what fits the contract. -/
theorem readRecord_eq_ok_iff_fits (hdistinct : Distinct members) {tree : Tree} :
    readRecord members tree.draft = .ok (contents.map Prod.snd) ↔
      tree.Fits (contents.map Prod.fst) := by
  constructor
  · intro hread
    cases tree with
    | list items =>
        exact Or.inr ⟨items, rfl, (ofListed_eq_ok_iff hreads).mp hread⟩
    | record entries =>
        exact Or.inl (isRecordOf_of_readRecord hreads hdistinct hread)
    | _ => cases hread
  · rintro (hrecord | ⟨items, rfl, hitems⟩)
    · exact readRecord_of_isRecordOf hdistinct (hreads.imp fun _ _ hpair =>
        hpair.takes) hrecord
    · exact (ofListed_eq_ok_iff hreads).mpr hitems

end Contents

end Member

end LinkAnalysis.Json
