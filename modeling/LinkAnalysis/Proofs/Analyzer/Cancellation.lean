import LinkAnalysis.Proofs.Analyzer.Holders

/-!
# Shared cancellation

A token is cancelled exactly if one of its holders was asked to cancel it, and
it stays cancelled.  Nothing else changes the state of a token, and no analyzer
changes the configuration of another: every configuration at a desk has passed
validation.
-/

namespace LinkAnalysis

section

variable {α : Type} [Score α]

/-! ## Configurations -/

/-- What a deed can do to the analyzers at a desk. -/
inductive Desk.Arranges (d : Desk α) (deed : Deed α) : List (Analyzer α) → Prop
  | same : Arranges d deed d.bench.analyzers
  | copy {a : Analyzer α} (ha : a ∈ d.bench.analyzers) :
      Arranges d deed (d.bench.analyzers ++ [a])
  | create {a : Analyzer α} (hvalid : a.config.validate = .ok ()) :
      Arranges d deed (d.bench.analyzers ++ [a])
  | replace {i : Nat} {a : Analyzer α} (hvalid : a.config.validate = .ok ())
      (hdeed : deed = .act (.replace i a.config)) :
      Arranges d deed (d.bench.analyzers.set i a)
  | listen {i : Nat} {a : Analyzer α} {token : Token}
      (ha : d.bench.analyzers[i]? = some a) :
      Arranges d deed (d.bench.analyzers.set i (a.listeningTo token))

theorem Desk.arranges_act (d : Desk α) (action : Action α) :
    d.Arranges (.act action) (d.bench.act action).analyzers := by
  cases action with
  | create config =>
      simp only [Bench.act, Bench.create, Analyzer.create]
      cases hvalid : config.validate with
      | error fault => exact .same
      | ok _ => exact .create hvalid
  | replace i config =>
      simp only [Bench.act, Bench.replace, Analyzer.create]
      cases hvalid : config.validate with
      | error fault => exact .same
      | ok _ => exact .replace hvalid rfl
  | copy i =>
      simp only [Bench.act, Bench.copy]
      cases ha : d.bench.analyzers[i]? with
      | none => exact .same
      | some a => exact .copy (List.mem_of_getElem? ha)
  | renew i =>
      simp only [Bench.act, Bench.renew]
      cases ha : d.bench.analyzers[i]? with
      | none => exact .same
      | some a => exact .listen ha
  | share i j =>
      simp only [Bench.act, Bench.share]
      cases ha : d.bench.analyzers[i]? with
      | none => exact .same
      | some a =>
          cases d.bench.analyzers[j]? with
          | none => exact .same
          | some b => exact .listen ha
  | cancel i =>
      simp only [Bench.act, Bench.cancel]
      cases d.bench.analyzers[i]? with
      | none => exact .same
      | some a => exact .same
  | ask i q s => exact .same

theorem Desk.arranges_after (d : Desk α) (deed : Deed α) :
    d.Arranges deed (d.after deed).bench.analyzers := by
  cases deed with
  | act action => exact d.arranges_act action
  | make => exact .same
  | keep i =>
      simp only [Desk.after]
      cases d.bench.analyzers[i]? with
      | none => exact .same
      | some a => exact .same
  | give i holder =>
      simp only [Desk.after]
      cases ha : d.bench.analyzers[i]? with
      | none => exact .same
      | some a =>
          cases d.handles[holder]? with
          | none => exact .same
          | some token => exact .listen ha
  | cancel holder =>
      simp only [Desk.after]
      cases d.handles[holder]? with
      | none => exact .same
      | some token => exact .same

/-- Only an analyzer that is replaced gets another configuration. -/
theorem Desk.Arranges.config_eq
    {d : Desk α} {deed : Deed α} {analyzers : List (Analyzer α)}
    (harranges : d.Arranges deed analyzers)
    {i : Nat} {a : Analyzer α}
    (ha : d.bench.analyzers[i]? = some a)
    (hdeed : ∀ config, deed ≠ .act (.replace i config)) :
    ∃ b, analyzers[i]? = some b ∧ b.config = a.config := by
  have hlt : i < d.bench.analyzers.length := (List.getElem?_eq_some_iff.mp ha).1
  cases harranges with
  | same => exact ⟨a, ha, rfl⟩
  | copy _ => exact ⟨a, (List.getElem?_append_left hlt).trans ha, rfl⟩
  | create _ => exact ⟨a, (List.getElem?_append_left hlt).trans ha, rfl⟩
  | @replace j b _ hreplace =>
      have hne : j ≠ i := by
        intro heq
        subst j
        exact hdeed b.config hreplace
      exact ⟨a, (List.getElem?_set_ne hne).trans ha, rfl⟩
  | @listen j b token hb =>
      by_cases heq : j = i
      · subst j
        obtain rfl := Option.some_inj.mp (hb.symm.trans ha)
        exact ⟨b.listeningTo token, List.getElem?_set_self hlt, rfl⟩
      · exact ⟨a, (List.getElem?_set_ne heq).trans ha, rfl⟩

theorem Desk.Arranges.validate_eq
    {d : Desk α} {deed : Deed α} {analyzers : List (Analyzer α)}
    (harranges : d.Arranges deed analyzers)
    (hvalid : ∀ a ∈ d.bench.analyzers, a.config.validate = .ok ()) :
    ∀ a ∈ analyzers, a.config.validate = .ok () := by
  intro a ha
  cases harranges with
  | same => exact hvalid a ha
  | copy hb =>
      rcases List.mem_append.mp ha with ha | ha
      · exact hvalid a ha
      · rw [List.mem_singleton.mp ha]
        exact hvalid _ hb
  | create hb =>
      rcases List.mem_append.mp ha with ha | ha
      · exact hvalid a ha
      · rwa [List.mem_singleton.mp ha]
  | replace hb _ =>
      rcases List.mem_or_eq_of_mem_set ha with ha | ha
      · exact hvalid a ha
      · rwa [ha]
  | @listen _ b _ hb =>
      rcases List.mem_or_eq_of_mem_set ha with ha | ha
      · exact hvalid a ha
      · rw [ha]
        exact hvalid b (List.mem_of_getElem? hb)

theorem Desk.validate_ofDeeds
    (hdefault : (Config.default : Config α).validate = .ok ())
    (deeds : List (Deed α)) :
    ∀ a ∈ (Desk.ofDeeds deeds).bench.analyzers, a.config.validate = .ok () := by
  induction deeds using List.reverseRecOn with
  | nil =>
      intro a ha
      rw [List.mem_singleton.mp ha]
      exact hdefault
  | append_singleton deeds deed ih =>
      rw [Desk.ofDeeds_concat]
      exact (Desk.arranges_after _ deed).validate_eq ih

/-- What can be seen at a desk reflects what was done there. -/
structure Desk.Reflects (d : Desk α) (deeds : List (Deed α)) : Prop where
  /-- The token of an analyzer is cancelled exactly if one of its holders was
  asked to. -/
  analyzer_iff : ∀ (i : Nat) a, d.bench.analyzers[i]? = some a → ∃ k,
    (Tenure.ofDeeds deeds).analyzers[i]? = some k ∧
    (d.bench.registry.isCancelled a.token = true ↔ CancelledBy deeds k) ∧
    ((d.bench.signalOf a).check = .error .cancelled ↔ CancelledBy deeds k)
  handle_iff : ∀ (holder : Nat) token, d.handles[holder]? = some token → ∃ k,
    (Tenure.ofDeeds deeds).handles[holder]? = some k ∧
    (d.bench.registry.isCancelled token = true ↔ CancelledBy deeds k) ∧
    ((d.bench.registry.signal token).check = .error .cancelled ↔
      CancelledBy deeds k)
  /-- A cancelled token stays cancelled. -/
  stays : ∀ token, d.bench.registry.isCancelled token = true →
    ∀ more : List (Deed α),
      (more.foldl Desk.after d).bench.registry.isCancelled token = true
  /-- Nothing but its cancellation changes the state of a token. -/
  kept : ∀ deed token,
    Deed.cancelled? (Tenure.ofDeeds deeds) deed ≠ some token.number →
      (d.after deed).bench.registry.isCancelled token =
        d.bench.registry.isCancelled token
  config_kept : ∀ deed (i : Nat) a, d.bench.analyzers[i]? = some a →
    (∀ config, deed ≠ .act (.replace i config)) →
    ∃ b, (d.after deed).bench.analyzers[i]? = some b ∧ b.config = a.config
  valid : ∀ a ∈ d.bench.analyzers, a.config.validate = .ok ()

theorem Desk.reflects_of_validate_default
    (hdefault : (Config.default : Config α).validate = .ok ())
    (deeds : List (Deed α)) :
    (Desk.ofDeeds deeds).Reflects deeds := by
  have hagrees := Desk.agrees_ofDeeds deeds
  refine
    { analyzer_iff := fun i a ha => ?_
      handle_iff := fun holder token htoken => ?_
      stays := fun token htoken more => ?_
      kept := fun deed token hdeed => ?_
      config_kept :=
        fun deed i a ha hdeed => (Desk.arranges_after _ deed).config_eq ha hdeed
      valid := Desk.validate_ofDeeds hdefault deeds }
  · have hiff := hagrees.isCancelled_iff a.token.number
    refine ⟨a.token.number, ?_, hiff, ?_⟩
    · rw [hagrees.analyzer i, ha, Option.map_some]
    · rw [Bench.signalOf, Registry.check_signal_eq_error_iff]
      exact hiff
  · have hiff := hagrees.isCancelled_iff token.number
    refine ⟨token.number, ?_, hiff, ?_⟩
    · rw [hagrees.handle holder, htoken, Option.map_some]
    · rw [Registry.check_signal_eq_error_iff]
      exact hiff
  · have hrun : more.foldl Desk.after (Desk.ofDeeds deeds) =
        Desk.ofDeeds (deeds ++ more) := by
      rw [Desk.ofDeeds, Desk.ofDeeds, List.foldl_append]
    rw [hrun]
    have hcancelled := (hagrees.isCancelled_iff token.number).mp htoken
    exact ((Desk.agrees_ofDeeds (deeds ++ more)).isCancelled_iff _).mpr
      (hcancelled.append more)
  · have hafter := (hagrees.after deed).isCancelled_iff token.number
    rw [Bool.eq_iff_iff]
    apply hafter.trans
    rw [or_iff_left hdeed]
    exact (hagrees.isCancelled_iff token.number).symm

end

/-- Whatever is done with analyzers and tokens, cancellation reaches exactly the
sharers of a token. -/
theorem Desk.reflects_ofDeeds (deeds : List (Deed Float)) :
    (Desk.ofDeeds deeds).Reflects deeds :=
  Desk.reflects_of_validate_default rfl deeds

end LinkAnalysis
