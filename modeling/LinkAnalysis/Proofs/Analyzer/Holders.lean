import LinkAnalysis.Analyzer.Bench
import Mathlib.Tactic

/-!
# Holders of tokens

Analyzers share tokens, and tokens can also be kept apart from all analyzers.
Who holds which token follows from what was done alone: a copy holds the token
of its original, a new analyzer or a renewed one holds a token that nobody held
before.  This record of holders is kept here beside the bench.
-/

namespace LinkAnalysis

/-! ## Tokens -/

namespace Registry

theorem signal_fresh (r : Registry) (t : Token) :
    r.fresh.2.signal t = r.signal t := by
  simp only [fresh, signal, List.getD_eq_getElem?_getD]
  rcases Nat.lt_trichotomy t.number r.signals.length with hlt | heq | hgt
  · rw [List.getElem?_append_left hlt]
  · rw [heq, List.getElem?_concat_length, List.getElem?_eq_none le_rfl]
    rfl
  · rw [List.getElem?_eq_none (by simpa using hgt),
      List.getElem?_eq_none hgt.le]

theorem isCancelled_fresh (r : Registry) (t : Token) :
    r.fresh.2.isCancelled t = r.isCancelled t := by
  rw [isCancelled, signal_fresh, isCancelled]

theorem signal_cancel_of_ne
    (r : Registry) {t u : Token}
    (hne : u ≠ t) :
    (r.cancel t).signal u = r.signal u := by
  have hnumber : t.number ≠ u.number := by
    intro heq
    cases t
    cases u
    exact hne (congrArg Token.mk heq.symm)
  simp only [cancel, signal, List.getD_eq_getElem?_getD,
    List.getElem?_set_ne hnumber]

theorem isCancelled_cancel
    (r : Registry) {t : Token}
    (ht : t.number < r.signals.length)
    (u : Token) :
    (r.cancel t).isCancelled u = true ↔ r.isCancelled u = true ∨ t = u := by
  by_cases heq : t = u
  · subst u
    simp [isCancelled, cancel, signal, ht]
  · rw [isCancelled, signal_cancel_of_ne r (Ne.symm heq), ← isCancelled]
    simp [heq]

theorem check_signal_eq_error_iff (r : Registry) (t : Token) :
    (r.signal t).check = .error .cancelled ↔ r.isCancelled t = true := by
  rw [isCancelled]
  cases r.signal t <;> simp [Signal.check]

end Registry

/-! ## Desks -/

/-- A bench together with handles: tokens that are kept apart from all
analyzers. -/
structure Desk (α : Type) where
  bench : Bench α
  handles : List Token

inductive Deed (α : Type) where
  | act (action : Action α)
  /-- Make a token and keep it. -/
  | make
  /-- Keep the token of an analyzer. -/
  | keep (i : Nat)
  /-- Give an analyzer a kept token. -/
  | give (i holder : Nat)
  /-- Cancel a kept token. -/
  | cancel (holder : Nat)

/-- Who holds which token.  Tokens are counted in the order in which they are
made. -/
structure Tenure where
  made : Nat
  analyzers : List Nat
  handles : List Nat

/-! ## Holders -/

section

variable {α : Type}

/-- A desk is as the record of holders says, and just these tokens are
cancelled. -/
structure Desk.Agrees (d : Desk α) (t : Tenure)
    (cancelled : Nat → Prop) : Prop where
  made_eq : d.bench.registry.signals.length = t.made
  analyzers_eq : d.bench.analyzers.map (fun a => a.token.number) = t.analyzers
  handles_eq : d.handles.map Token.number = t.handles
  analyzers_lt : ∀ k ∈ t.analyzers, k < t.made
  handles_lt : ∀ k ∈ t.handles, k < t.made
  isCancelled_iff : ∀ k, d.bench.registry.isCancelled ⟨k⟩ = true ↔ cancelled k

namespace Desk.Agrees

variable {d : Desk α} {t : Tenure} {cancelled : Nat → Prop}

theorem analyzer (hagrees : d.Agrees t cancelled) (i : Nat) :
    t.analyzers[i]? = (d.bench.analyzers[i]?).map fun a => a.token.number := by
  rw [← hagrees.analyzers_eq, List.getElem?_map]

theorem handle (hagrees : d.Agrees t cancelled) (i : Nat) :
    t.handles[i]? = (d.handles[i]?).map Token.number := by
  rw [← hagrees.handles_eq, List.getElem?_map]

theorem token_lt_of_analyzer
    (hagrees : d.Agrees t cancelled)
    {i : Nat} {a : Analyzer α}
    (ha : d.bench.analyzers[i]? = some a) :
    a.token.number < t.made := by
  apply hagrees.analyzers_lt
  apply List.mem_of_getElem?
  rw [hagrees.analyzer i, ha, Option.map_some]

theorem token_lt_of_handle
    (hagrees : d.Agrees t cancelled)
    {i : Nat} {token : Token}
    (htoken : d.handles[i]? = some token) :
    token.number < t.made := by
  apply hagrees.handles_lt
  apply List.mem_of_getElem?
  rw [hagrees.handle i, htoken, Option.map_some]

/-- A token is made that nobody holds yet. -/
theorem makeToken (hagrees : d.Agrees t cancelled) :
    ({ d with bench := { d.bench with registry := d.bench.registry.fresh.2 } } :
        Desk α).Agrees { t with made := t.made + 1 } cancelled where
  made_eq := by simp [Registry.fresh, hagrees.made_eq]
  analyzers_eq := hagrees.analyzers_eq
  handles_eq := hagrees.handles_eq
  analyzers_lt k hk := Nat.lt_succ_of_lt (hagrees.analyzers_lt k hk)
  handles_lt k hk := Nat.lt_succ_of_lt (hagrees.handles_lt k hk)
  isCancelled_iff k := by
    rw [Registry.isCancelled_fresh, hagrees.isCancelled_iff]

theorem addAnalyzer
    (hagrees : d.Agrees t cancelled)
    {a : Analyzer α}
    (ha : a.token.number < t.made) :
    ({ d with bench := { d.bench with analyzers :=
          d.bench.analyzers ++ [a] } } : Desk α).Agrees
      { t with analyzers := t.analyzers ++ [a.token.number] } cancelled where
  made_eq := hagrees.made_eq
  analyzers_eq := by simp [hagrees.analyzers_eq]
  handles_eq := hagrees.handles_eq
  analyzers_lt k hk := by
    rcases List.mem_append.mp hk with hk | hk
    · exact hagrees.analyzers_lt k hk
    · rwa [List.mem_singleton.mp hk]
  handles_lt := hagrees.handles_lt
  isCancelled_iff := hagrees.isCancelled_iff

theorem setAnalyzer
    (hagrees : d.Agrees t cancelled)
    (i : Nat) {a : Analyzer α}
    (ha : a.token.number < t.made) :
    ({ d with
        bench := { d.bench with analyzers := d.bench.analyzers.set i a } } :
      Desk α).Agrees
      { t with analyzers := t.analyzers.set i a.token.number } cancelled where
  made_eq := hagrees.made_eq
  analyzers_eq := by rw [List.map_set, hagrees.analyzers_eq]
  handles_eq := hagrees.handles_eq
  analyzers_lt k hk := by
    rcases List.mem_or_eq_of_mem_set hk with hk | hk
    · exact hagrees.analyzers_lt k hk
    · rwa [hk]
  handles_lt := hagrees.handles_lt
  isCancelled_iff := hagrees.isCancelled_iff

theorem addHandle
    (hagrees : d.Agrees t cancelled)
    {token : Token}
    (htoken : token.number < t.made) :
    ({ d with handles := d.handles ++ [token] } : Desk α).Agrees
      { t with handles := t.handles ++ [token.number] } cancelled where
  made_eq := hagrees.made_eq
  analyzers_eq := hagrees.analyzers_eq
  handles_eq := by simp [hagrees.handles_eq]
  analyzers_lt := hagrees.analyzers_lt
  handles_lt k hk := by
    rcases List.mem_append.mp hk with hk | hk
    · exact hagrees.handles_lt k hk
    · rwa [List.mem_singleton.mp hk]
  isCancelled_iff := hagrees.isCancelled_iff

theorem cancelToken
    (hagrees : d.Agrees t cancelled)
    {token : Token}
    (htoken : token.number < t.made) :
    ({ d with
        bench := { d.bench with registry := d.bench.registry.cancel token } } :
      Desk α).Agrees t fun k => cancelled k ∨ token.number = k where
  made_eq := by simp [Registry.cancel, hagrees.made_eq]
  analyzers_eq := hagrees.analyzers_eq
  handles_eq := hagrees.handles_eq
  analyzers_lt := hagrees.analyzers_lt
  handles_lt := hagrees.handles_lt
  isCancelled_iff k := by
    rw [Registry.isCancelled_cancel _ (by rwa [hagrees.made_eq]),
      hagrees.isCancelled_iff]
    exact or_congr_right ⟨fun heq => congrArg Token.number heq,
      fun heq => congrArg Token.mk heq⟩

theorem congr
    {cancelled' : Nat → Prop}
    (hagrees : d.Agrees t cancelled)
    (hiff : ∀ k, cancelled k ↔ cancelled' k) :
    d.Agrees t cancelled' :=
  { hagrees with isCancelled_iff :=
    fun k => (hagrees.isCancelled_iff k).trans (hiff k) }

end Desk.Agrees

end

/-! ## Deeds -/

section

variable {α : Type} [Score α]

namespace Desk

def start : Desk α := ⟨Bench.start, []⟩

/-- Do something at a desk.  What names an analyzer or a handle that does not
exist changes nothing. -/
def after (d : Desk α) : Deed α → Desk α
  | .act action => { d with bench := d.bench.act action }
  | .make =>
    let (token, r) := d.bench.registry.fresh
    ⟨{ d.bench with registry := r }, d.handles ++ [token]⟩
  | .keep i =>
    match d.bench.analyzers[i]? with
    | some a => { d with handles := d.handles ++ [a.token] }
    | none => d
  | .give i holder =>
    match d.bench.analyzers[i]?, d.handles[holder]? with
    | some a, some token =>
      { d with
        bench :=
          { d.bench with analyzers :=
            d.bench.analyzers.set i (a.listeningTo token) } }
    | _, _ => d
  | .cancel holder =>
    match d.handles[holder]? with
    | some token =>
      { d with bench :=
        { d.bench with registry := d.bench.registry.cancel token } }
    | none => d

def ofDeeds (deeds : List (Deed α)) : Desk α := deeds.foldl after start

theorem ofDeeds_concat (deeds : List (Deed α)) (deed : Deed α) :
    ofDeeds (deeds ++ [deed]) = (ofDeeds deeds).after deed := by
  rw [ofDeeds, List.foldl_concat, ofDeeds]

end Desk

namespace Tenure

/-- One analyzer, which holds the first token. -/
def start : Tenure := ⟨1, [0], []⟩

/-- Who holds which token after a deed.  Only what is made holds a token that
nobody held before. -/
def after (t : Tenure) : Deed α → Tenure
  | .act (.create config) =>
    match config.validate with
    | .ok () =>
      { t with made := t.made + 1, analyzers := t.analyzers ++ [t.made] }
    | .error _ => t
  | .act (.replace i config) =>
    match config.validate with
    | .ok () =>
      { t with made := t.made + 1, analyzers := t.analyzers.set i t.made }
    | .error _ => t
  | .act (.copy i) =>
    match t.analyzers[i]? with
    | some k => { t with analyzers := t.analyzers ++ [k] }
    | none => t
  | .act (.renew i) =>
    match t.analyzers[i]? with
    | some _ =>
      { t with made := t.made + 1, analyzers := t.analyzers.set i t.made }
    | none => t
  | .act (.share i j) =>
    match t.analyzers[i]?, t.analyzers[j]? with
    | some _, some k => { t with analyzers := t.analyzers.set i k }
    | _, _ => t
  | .act (.cancel _) => t
  | .act (.ask _ _ _) => t
  | .make => { t with made := t.made + 1, handles := t.handles ++ [t.made] }
  | .keep i =>
    match t.analyzers[i]? with
    | some k => { t with handles := t.handles ++ [k] }
    | none => t
  | .give i holder =>
    match t.analyzers[i]?, t.handles[holder]? with
    | some _, some k => { t with analyzers := t.analyzers.set i k }
    | _, _ => t
  | .cancel _ => t

def ofDeeds (deeds : List (Deed α)) : Tenure := deeds.foldl after start

theorem ofDeeds_concat (deeds : List (Deed α)) (deed : Deed α) :
    ofDeeds (deeds ++ [deed]) = (ofDeeds deeds).after deed := by
  rw [ofDeeds, List.foldl_concat, ofDeeds]

end Tenure

/-- The token that a deed cancels, given who holds which token. -/
def Deed.cancelled? (t : Tenure) : Deed α → Option Nat
  | .act (.cancel i) => t.analyzers[i]?
  | .cancel holder => t.handles[holder]?
  | _ => none

/-- One of these deeds cancelled the token, through an analyzer or a handle that
held it then. -/
def CancelledBy (deeds : List (Deed α)) (k : Nat) : Prop :=
  ∃ n, ∃ deed : Deed α,
    deeds[n]? = some deed ∧
    deed.cancelled? (Tenure.ofDeeds (deeds.take n)) = some k

theorem cancelledBy_concat
    {deeds : List (Deed α)} {deed : Deed α} {k : Nat} :
    CancelledBy (deeds ++ [deed]) k ↔ CancelledBy deeds k ∨
      deed.cancelled? (Tenure.ofDeeds deeds) = some k := by
  constructor
  · intro hcancelled
    obtain ⟨n, last, hget, hcancel⟩ := hcancelled
    rcases Nat.lt_or_ge n deeds.length with hlt | hge
    · rw [List.getElem?_append_left hlt] at hget
      rw [List.take_append_of_le_length hlt.le] at hcancel
      exact Or.inl ⟨n, last, hget, hcancel⟩
    · have hlength : n < (deeds ++ [deed]).length :=
        (List.getElem?_eq_some_iff.mp hget).1
      have heq : n = deeds.length := by
        rw [List.length_append, List.length_singleton] at hlength
        omega
      subst n
      rw [List.getElem?_concat_length, Option.some_inj] at hget
      subst last
      rw [List.take_left] at hcancel
      exact Or.inr hcancel
  · intro heither
    cases heither with
    | inl hcancelled =>
        obtain ⟨n, earlier, hget, hcancel⟩ := hcancelled
        have hlt := (List.getElem?_eq_some_iff.mp hget).1
        refine ⟨n, earlier, ?_, ?_⟩
        · rw [List.getElem?_append_left hlt, hget]
        · rw [List.take_append_of_le_length hlt.le, hcancel]
    | inr hcancelled =>
        refine ⟨deeds.length, deed, List.getElem?_concat_length, ?_⟩
        rw [List.take_left, hcancelled]

theorem not_cancelledBy_nil (k : Nat) :
    ¬ CancelledBy ([] : List (Deed α)) k := by
  intro hcancelled
  obtain ⟨n, deed, hget, -⟩ := hcancelled
  simp at hget

/-! ## Runs -/

namespace Desk.Agrees

variable {d : Desk α} {t : Tenure} {cancelled : Nat → Prop}

/-- What the record says of an action holds of the action. -/
theorem act (hagrees : d.Agrees t cancelled) (action : Action α) :
    (d.after (.act action)).Agrees (t.after (.act action)) fun k =>
      cancelled k ∨ (Deed.act action).cancelled? t = some k := by
  have hmade := hagrees.makeToken
  have hfresh : (d.bench.registry.fresh.1).number < t.made + 1 := by
    rw [Registry.fresh, hagrees.made_eq]
    exact Nat.lt_succ_self _
  have hnumber : (d.bench.registry.fresh.1).number = t.made := hagrees.made_eq
  cases action with
  | create config =>
      simp only [Desk.after, Bench.act, Bench.create, Analyzer.create,
        Tenure.after, Deed.cancelled?, reduceCtorEq, or_false]
      cases config.validate with
      | error fault => exact hagrees
      | ok _ =>
          have hadded :=
            hmade.addAnalyzer (a := ⟨config, d.bench.registry.fresh.1⟩) hfresh
          rw [hnumber] at hadded
          exact hadded
  | replace i config =>
      simp only [Desk.after, Bench.act, Bench.replace, Analyzer.create,
        Tenure.after, Deed.cancelled?, reduceCtorEq, or_false]
      cases config.validate with
      | error fault => exact hagrees
      | ok _ =>
          have hset :=
            hmade.setAnalyzer i (a := ⟨config, d.bench.registry.fresh.1⟩) hfresh
          rw [hnumber] at hset
          exact hset
  | copy i =>
      simp only [Desk.after, Bench.act, Bench.copy, Tenure.after,
        hagrees.analyzer i, Deed.cancelled?, reduceCtorEq, or_false]
      cases ha : d.bench.analyzers[i]? with
      | none => exact hagrees
      | some a => exact hagrees.addAnalyzer (hagrees.token_lt_of_analyzer ha)
  | renew i =>
      simp only [Desk.after, Bench.act, Bench.renew, Tenure.after,
        hagrees.analyzer i, Deed.cancelled?, reduceCtorEq, or_false]
      cases ha : d.bench.analyzers[i]? with
      | none => exact hagrees
      | some a =>
          have hset := hmade.setAnalyzer i (a :=
            a.listeningTo d.bench.registry.fresh.1) hfresh
          simp only [Analyzer.listeningTo, hnumber] at hset
          exact hset
  | share i j =>
      simp only [Desk.after, Bench.act, Bench.share,
        Tenure.after, hagrees.analyzer i, hagrees.analyzer j, Deed.cancelled?,
        reduceCtorEq, or_false]
      cases ha : d.bench.analyzers[i]? with
      | none => exact hagrees
      | some a =>
          cases hb : d.bench.analyzers[j]? with
          | none => exact hagrees
          | some b =>
              have hlt := hagrees.token_lt_of_analyzer hb
              exact hagrees.setAnalyzer i (a := a.listeningTo b.token) hlt
  | cancel i =>
      simp only [Desk.after, Bench.act, Bench.cancel, Tenure.after,
        hagrees.analyzer i, Deed.cancelled?]
      cases ha : d.bench.analyzers[i]? with
      | none => exact hagrees.congr fun k => by simp
      | some a =>
          apply (hagrees.cancelToken (hagrees.token_lt_of_analyzer ha)).congr
          intro k
          rw [Option.map_some, Option.some_inj]
  | ask i q s => exact hagrees.congr fun k => by simp [Deed.cancelled?]

/-- What the record says of a deed holds of the deed. -/
theorem after (hagrees : d.Agrees t cancelled) (deed : Deed α) :
    (d.after deed).Agrees (t.after deed) fun k =>
      cancelled k ∨ deed.cancelled? t = some k := by
  cases deed with
  | act action => exact hagrees.act action
  | make =>
      have hfresh : (d.bench.registry.fresh.1).number < t.made + 1 := by
        rw [Registry.fresh, hagrees.made_eq]
        exact Nat.lt_succ_self _
      have hadded := hagrees.makeToken.addHandle hfresh
      have hnumber : (d.bench.registry.fresh.1).number = t.made :=
        hagrees.made_eq
      rw [hnumber] at hadded
      exact hadded.congr fun k => by simp [Deed.cancelled?]
  | keep i =>
      simp only [Desk.after, Tenure.after, hagrees.analyzer i, Deed.cancelled?,
        reduceCtorEq, or_false]
      cases ha : d.bench.analyzers[i]? with
      | none => exact hagrees
      | some a => exact hagrees.addHandle (hagrees.token_lt_of_analyzer ha)
  | give i j =>
      simp only [Desk.after, Tenure.after, hagrees.analyzer i, hagrees.handle j,
        Deed.cancelled?, reduceCtorEq, or_false]
      cases ha : d.bench.analyzers[i]? with
      | none => exact hagrees
      | some a =>
          cases ht : d.handles[j]? with
          | none => exact hagrees
          | some token =>
              have hlt := hagrees.token_lt_of_handle ht
              exact hagrees.setAnalyzer i (a := a.listeningTo token) hlt
  | cancel j =>
      simp only [Desk.after, Tenure.after, hagrees.handle j, Deed.cancelled?]
      cases ht : d.handles[j]? with
      | none => exact hagrees.congr fun k => by simp
      | some token =>
          apply (hagrees.cancelToken (hagrees.token_lt_of_handle ht)).congr
          intro k
          rw [Option.map_some, Option.some_inj]

end Desk.Agrees

theorem Desk.agrees_start :
    (Desk.start : Desk α).Agrees Tenure.start fun _ => False where
  made_eq := rfl
  analyzers_eq := rfl
  handles_eq := rfl
  analyzers_lt := by simp [Tenure.start]
  handles_lt := by simp [Tenure.start]
  isCancelled_iff k := by
    have hempty :
        (Desk.start : Desk α).bench.registry = Registry.empty.fresh.2 := rfl
    rw [hempty, Registry.isCancelled_fresh]
    simp [Registry.isCancelled, Registry.signal, Registry.empty]

/-- After any deeds a desk is as the record of holders says, and those tokens
are cancelled that one of the deeds cancelled. -/
theorem Desk.agrees_ofDeeds (deeds : List (Deed α)) :
    (Desk.ofDeeds deeds).Agrees (Tenure.ofDeeds deeds) (CancelledBy deeds) := by
  induction deeds using List.reverseRecOn with
  | nil =>
      apply Desk.agrees_start.congr
      intro k
      simp [not_cancelledBy_nil]
  | append_singleton deeds deed ih =>
      rw [Desk.ofDeeds_concat, Tenure.ofDeeds_concat]
      exact (ih.after deed).congr fun k => cancelledBy_concat.symm

theorem CancelledBy.append
    {deeds : List (Deed α)} {k : Nat}
    (hcancelled : CancelledBy deeds k)
    (more : List (Deed α)) :
    CancelledBy (deeds ++ more) k := by
  induction more using List.reverseRecOn with
  | nil => rwa [List.append_nil]
  | append_singleton more deed ih =>
      rw [← List.append_assoc]
      exact cancelledBy_concat.mpr (Or.inl ih)

end

end LinkAnalysis
