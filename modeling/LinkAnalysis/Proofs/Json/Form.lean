import LinkAnalysis.Proofs.Json.Reading
import LinkAnalysis.Proofs.Json.Record

/-!
# Forms of records

A contract says for each field of a record under which names it may be written,
what its value looks like, and whether it may be left out.  A record is of this
form if it has these fields in any order, among fields of other names.  A reader
that agrees with the contract field by field reads every such record, and
refuses each record that lacks a required field or has a field twice.
-/

namespace LinkAnalysis.Json

/-- How one field may be written. -/
structure FieldForm where
  names : List String
  /-- Whether the field may be left out. -/
  omissible : Prop
  Writes : Tree → Prop

/-- The entries of a field: one under one of its names, or none. -/
inductive FieldForm.Entries (form : FieldForm) :
    List (Option String × Tree) → Prop
  | present {name : String} {tree : Tree} (hname : name ∈ form.names)
      (htree : form.Writes tree) : Entries form [(some name, tree)]
  | omitted (homissible : form.omissible) : Entries form []

theorem FieldForm.Entries.exists_name
    {form : FieldForm} {part : List (Option String × Tree)}
    (hentries : form.Entries part) :
    ∀ entry ∈ part, ∃ name ∈ form.names, entry.1 = some name := by
  cases hentries with
  | present hname _ =>
      intro entry hentry
      rw [List.mem_singleton.mp hentry]
      exact ⟨_, hname, rfl⟩
  | omitted _ => exact fun entry hentry => absurd hentry List.not_mem_nil

/-- A record with these fields in any order, among fields of other names. -/
def Tree.IsRecordOf (tree : Tree) (forms : List FieldForm) : Prop :=
  ∃ parts others entries,
    List.Forall₂ FieldForm.Entries forms parts ∧
    (∀ entry ∈ others, ∃ name, entry.1 = some name ∧
      ∀ form ∈ forms, name ∉ form.names) ∧
    entries.Perm (parts.flatten ++ others) ∧
    tree = .record entries

/-- The entries of the fields one after the other make up a record. -/
theorem isRecordOf_flatten
    {forms : List FieldForm} {parts : List (List (Option String × Tree))}
    (hforall : List.Forall₂ FieldForm.Entries forms parts) :
    (Tree.record parts.flatten).IsRecordOf forms :=
  ⟨parts, [], parts.flatten, hforall, fun _ hentry => absurd hentry
    List.not_mem_nil, List.Perm.of_eq (List.append_nil _).symm, rfl⟩

/-- The names of a field, and whether it is required. -/
structure FieldRule where
  names : List String
  required : Bool

def FieldRule.bears (rule : FieldRule) (entry : Option String × Tree) : Bool :=
  entry.1.any (rule.names.contains ·)

/-- A record lacks a required field, or has a field twice, be it under two
names. -/
def Violates (rules : List FieldRule)
    (entries : List (Option String × Tree)) : Prop :=
  ∃ rule ∈ rules,
    rule.required = true ∧ entries.countP rule.bears = 0 ∨
    2 ≤ entries.countP rule.bears

namespace Member

variable {β : Type}

/-! ## Records of the right form -/

/-- A reader of a field takes every form of the field as this value. -/
structure Takes (member : Member β) (form : FieldForm) (value : β) : Prop where
  answersTo_iff : ∀ label, member.answersTo label = true ↔ label ∈ form.names
  absent_eq : form.omissible → member.absent = some value
  read_eq : ∀ tree, form.Writes tree → member.read tree.draft = .ok value

theorem answers_fieldDrafts
    (member : Member β) (entries : List (Option String × Tree)) :
    member.answers (fieldDrafts entries) = fieldDrafts
      (entries.filter fun entry => entry.1.any member.answersTo) := by
  rw [fieldDrafts_eq_map, fieldDrafts_eq_map, answers, List.filter_map]
  rfl

/-- Where entries of one part only are wanted, a filter finds this part. -/
theorem filter_flatten_eq
    {γ : Type} {p : γ → Bool} {parts : List (List γ)} {i : Nat} {part : List γ}
    (hpart : parts[i]? = some part)
    (hall : ∀ x ∈ part, p x = true)
    (hnone :
      ∀ j other, j ≠ i → parts[j]? = some other → ∀ x ∈ other, ¬ p x = true) :
    parts.flatten.filter p = part := by
  induction parts generalizing i with
  | nil => simp at hpart
  | cons first parts ih =>
      rw [List.flatten_cons, List.filter_append]
      cases i with
      | zero =>
          obtain rfl : first = part := Option.some_inj.mp hpart
          have hrest : parts.flatten.filter p = [] := by
            refine List.filter_eq_nil_iff.mpr fun x hx => ?_
            obtain ⟨other, hother, hx⟩ := List.mem_flatten.mp hx
            obtain ⟨j, hj⟩ := List.mem_iff_getElem?.mp hother
            exact hnone (j + 1) other (Nat.succ_ne_zero j) hj x hx
          rw [List.filter_eq_self.mpr hall, hrest, List.append_nil]
      | succ i =>
          have hfirst : first.filter p = [] :=
            List.filter_eq_nil_iff.mpr (hnone 0 first
              (Nat.succ_ne_zero i).symm rfl)
          rw [hfirst, List.nil_append]
          exact ih hpart fun j other hne hj => hnone (j + 1) other (by omega) hj

theorem settles_of_entries
    {member : Member β} {form : FieldForm} {value : β}
    (htakes : member.Takes form value)
    {part : List (Option String × Tree)}
    (hpart : form.Entries part)
    {entries : List (Option String × Tree)}
    (hperm :
      (entries.filter fun entry => entry.1.any member.answersTo).Perm part) :
    member.Settles (fieldDrafts entries) none value := by
  rw [settles_none_iff, answers_fieldDrafts]
  cases hpart with
  | present _ htree =>
      rw [List.perm_singleton.mp hperm]
      exact Or.inr ⟨_, rfl, htakes.read_eq _ htree⟩
  | omitted homissible =>
      rw [List.perm_nil.mp hperm]
      exact Or.inl ⟨rfl, htakes.absent_eq homissible⟩

section Parts

variable {members : List (Member β)} {contents : List (FieldForm × β)} {parts :
  List (List (Option String × Tree))} (htakes : List.Forall₂
  (fun member content => member.Takes content.1 content.2) members contents)
  (hparts : List.Forall₂ FieldForm.Entries (contents.map Prod.fst) parts)

include htakes hparts

/-- At each position there are a member, a content and a part of the entries. -/
theorem exists_place {i : Nat} (hi : i < contents.length) :
    ∃ member content part,
      members[i]? = some member ∧
      contents[i]? = some content ∧
      parts[i]? = some part ∧
      member.Takes content.1 content.2 ∧
      content.1.Entries part := by
  have hmember : i < members.length := by rw [htakes.length_eq]; exact hi
  have hpart : i < parts.length := by
    rw [← hparts.length_eq, List.length_map]; exact hi
  have hentries :=
    (List.forall₂_iff_get.mp hparts).2 i (by simpa using hi) hpart
  refine ⟨members[i], contents[i], parts[i], List.getElem?_eq_getElem hmember,
    List.getElem?_eq_getElem hi, List.getElem?_eq_getElem hpart,
    (List.forall₂_iff_get.mp htakes).2 i hmember hi, ?_⟩
  simpa using hentries

theorem exists_answersTo_of_mem_part
    {i : Nat} {part : List (Option String × Tree)}
    (hpart : parts[i]? = some part)
    {entry : Option String × Tree}
    (hentry : entry ∈ part) :
    ∃ member name,
      members[i]? = some member ∧
      entry.1 = some name ∧
      member.answersTo name = true := by
  have hi : i < contents.length := by
    rw [← List.length_map (f := Prod.fst), hparts.length_eq]
    exact (List.getElem?_eq_some_iff.mp hpart).1
  obtain ⟨member, content, part', hmember, -, hpart', htakes', hentries⟩ :=
    exists_place htakes hparts hi
  obtain rfl := Option.some_inj.mp (hpart.symm.trans hpart')
  obtain ⟨name, hname, heq⟩ := hentries.exists_name entry hentry
  exact ⟨member, name, hmember, heq, (htakes'.answersTo_iff name).mpr hname⟩

/-- Of the entries in all parts, those of one part answer to its member. -/
theorem filter_answersTo_flatten
    (hdistinct : Distinct members)
    {i : Nat} {member : Member β}
    (hmember : members[i]? = some member)
    {part : List (Option String × Tree)}
    (hpart : parts[i]? = some part) :
    parts.flatten.filter (fun entry => entry.1.any member.answersTo) =
      part := by
  refine filter_flatten_eq hpart
    (fun entry hentry => ?_) fun j other hne hj entry hentry => ?_
  · obtain ⟨found, name, hfound, heq, hanswers⟩ :=
      exists_answersTo_of_mem_part htakes hparts hpart hentry
    obtain rfl := Option.some_inj.mp (hmember.symm.trans hfound)
    rw [heq]
    exact hanswers
  · obtain ⟨found, name, hfound, heq, hanswers⟩ :=
      exists_answersTo_of_mem_part htakes hparts hj hentry
    rw [heq, Option.any_some]
    exact fun hboth => hne (hdistinct hfound hmember hanswers hboth)

end Parts

/-- A record of a form is read as the values that the readers of its fields take
the form for. -/
theorem readRecord_of_isRecordOf
    {members : List (Member β)}
    (hdistinct : Distinct members)
    {contents : List (FieldForm × β)}
    (htakes : List.Forall₂
      (fun member content => member.Takes content.1 content.2) members contents)
    {tree : Tree}
    (hrecord : tree.IsRecordOf (contents.map Prod.fst)) :
    readRecord members tree.draft = .ok (contents.map Prod.snd) := by
  obtain ⟨parts, others, entries, hparts, hothers, hperm, rfl⟩ := hrecord
  rw [Tree.draft, readRecord_eq_ok_iff hdistinct]
  refine ⟨?_, ⟨?_, fun {i member slot value} hmember hslot hvalue => ?_⟩⟩
  · rw [fieldDrafts_eq_map, List.forall_mem_map]
    intro entry hentry
    rcases List.mem_append.mp (hperm.mem_iff.mp hentry) with hknown | hother
    · obtain ⟨part, hpart, hentry⟩ := List.mem_flatten.mp hknown
      obtain ⟨i, hi⟩ := List.mem_iff_getElem?.mp hpart
      obtain ⟨-, name, -, heq, -⟩ :=
        exists_answersTo_of_mem_part htakes hparts hi hentry
      rw [heq]
      rfl
    · obtain ⟨name, heq, -⟩ := hothers entry hother
      rw [heq]
      rfl
  · rw [List.length_map, htakes.length_eq]
  · have hi : i < contents.length := by
      rw [← htakes.length_eq]
      exact (List.getElem?_eq_some_iff.mp hmember).1
    obtain ⟨member', content, part, hmember', hcontent, hpart, htakes',
        hentries⟩ :=
      exists_place htakes hparts hi
    obtain rfl := Option.some_inj.mp (hmember.symm.trans hmember')
    rw [List.getElem?_map, hcontent, Option.map_some, Option.some_inj] at hvalue
    rw [List.getElem?_map, hmember, Option.map_some, Option.some_inj] at hslot
    subst hvalue hslot
    refine settles_of_entries htakes' hentries
      ((hperm.filter _).trans (List.Perm.of_eq ?_))
    have hforeign :
        others.filter (fun entry => entry.1.any member.answersTo) = [] := by
      refine List.filter_eq_nil_iff.mpr fun entry hentry => ?_
      obtain ⟨name, heq, hname⟩ := hothers entry hentry
      rw [heq, Option.any_some, htakes'.answersTo_iff]
      exact hname _ (List.mem_map_of_mem (List.mem_of_getElem? hcontent))
    rw [List.filter_append, hforeign, List.append_nil]
    exact filter_answersTo_flatten htakes hparts hdistinct hmember hpart

/-! ## Records that violate their rules -/

/-- A reader of a field knows its names, and whether it is required. -/
structure Follows (member : Member β) (rule : FieldRule) : Prop where
  answersTo_iff : ∀ label, member.answersTo label = true ↔ label ∈ rule.names
  absent_eq : rule.required = true → member.absent = none

theorem countP_bears
    {member : Member β} {rule : FieldRule}
    (hfollows : member.Follows rule)
    (entries : List (Option String × Tree)) :
    entries.countP rule.bears =
      (member.answers (fieldDrafts entries)).length := by
  have hsame : rule.bears = fun entry => entry.1.any member.answersTo := by
    funext entry
    obtain ⟨name, tree⟩ := entry
    cases name with
    | none => rfl
    | some name =>
        rw [Bool.eq_iff_iff, FieldRule.bears, Option.any_some, Option.any_some,
          List.contains_iff_mem, hfollows.answersTo_iff]
  rw [answers_fieldDrafts, fieldDrafts_eq_map, List.length_map,
    List.countP_eq_length_filter, hsame]

theorem settles_of_readRecord
    {members : List (Member β)}
    (hdistinct : Distinct members)
    {entries : List (Option String × Tree)} {values : List β}
    (hread : readRecord members (Tree.record entries).draft = .ok values)
    {i : Nat} {member : Member β}
    (hmember : members[i]? = some member) :
    ∃ value, member.Settles (fieldDrafts entries) none value := by
  obtain ⟨-, hlength, hsettles⟩ := (readRecord_eq_ok_iff hdistinct).mp hread
  have hlt := (List.getElem?_eq_some_iff.mp hmember).1
  refine ⟨values[i], hsettles hmember ?_ (List.getElem?_eq_getElem (by omega))⟩
  rw [List.getElem?_map, hmember, Option.map_some]

theorem not_violates_of_readRecord
    {members : List (Member β)}
    (hdistinct : Distinct members)
    {rules : List FieldRule}
    (hrules : List.Forall₂ Follows members rules)
    {entries : List (Option String × Tree)} {values : List β}
    (hread : readRecord members (Tree.record entries).draft = .ok values) :
    ¬ Violates rules entries := by
  rintro ⟨rule, hrule, hviolates⟩
  obtain ⟨i, hi⟩ := List.mem_iff_getElem?.mp hrule
  obtain ⟨hlt, rfl⟩ := List.getElem?_eq_some_iff.mp hi
  have hlt' : i < members.length := by rw [hrules.length_eq]; exact hlt
  have hfollows : members[i].Follows rules[i] :=
    (List.forall₂_iff_get.mp hrules).2 i hlt' hlt
  obtain ⟨value, hsettles⟩ :=
    settles_of_readRecord hdistinct hread (List.getElem?_eq_getElem hlt')
  rw [countP_bears hfollows] at hviolates
  rcases settles_none_iff.mp hsettles with ⟨hnone, habsent⟩ | ⟨entry, hone, -⟩
  · rw [hnone] at hviolates
    rcases hviolates with ⟨hrequired, -⟩ | htwo
    · rw [hfollows.absent_eq hrequired] at habsent
      simp at habsent
    · simp at htwo
  · rw [hone] at hviolates
    simp at hviolates

/-- In a record that is read, what answers to a field is read too. -/
theorem exists_read_of_readRecord
    {members : List (Member β)}
    (hdistinct : Distinct members)
    {entries : List (Option String × Tree)} {values : List β}
    (hresult : readRecord members (Tree.record entries).draft = .ok values)
    {member : Member β}
    (hmember : member ∈ members)
    {name : String} {tree : Tree}
    (hentry : (some name, tree) ∈ entries)
    (hname : member.answersTo name = true) :
    ∃ value, member.read tree.draft = .ok value := by
  obtain ⟨i, hi⟩ := List.mem_iff_getElem?.mp hmember
  obtain ⟨value, hsettles⟩ := settles_of_readRecord hdistinct hresult hi
  have hanswer :
      (some name, tree.draft) ∈ member.answers (fieldDrafts entries) := by
    rw [answers, fieldDrafts_eq_map]
    exact List.mem_filter.mpr
      ⟨List.mem_map_of_mem (f := fun entry : Option String × Tree =>
      (entry.1, entry.2.draft)) hentry, hname⟩
  rcases settles_none_iff.mp hsettles with ⟨hnone, -⟩ | ⟨entry, hone, hread⟩
  · rw [hnone] at hanswer
    exact absurd hanswer List.not_mem_nil
  · rw [hone, List.mem_singleton] at hanswer
    rw [← hanswer] at hread
    exact ⟨value, hread⟩

end Member

end LinkAnalysis.Json
