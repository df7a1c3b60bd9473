import LinkAnalysis.Config.Writing
import Mathlib.Data.Fintype.Defs
import Mathlib.Tactic

/-!
# The fields of a configuration

A document says a configuration exactly if it is made of sections and says, for
every field by itself, what the configuration holds there.  What it says of one
field has no influence on any other.
-/

namespace LinkAnalysis

/-! ## Fields and what they hold -/

inductive ConfigField where
  | minSize
  | maxCommunities
  | maxTarget
  | nodesPerCommunity
  | maxIterations
  | threshold
  | maxDepth
  | maxPaths
  | maxExpansions
  | degree
  | closeness
  | betweenness
  deriving DecidableEq, Repr

instance : Fintype ConfigField where
  elems := {.minSize, .maxCommunities, .maxTarget, .nodesPerCommunity,
    .maxIterations, .threshold,
    .maxDepth, .maxPaths, .maxExpansions, .degree, .closeness, .betweenness}
  complete e := by cases e <;> decide

inductive Amount where
  | count (n : Nat)
  | score (x : Float)
  deriving DecidableEq

def Config.amount (c : Config Float) : ConfigField → Amount
  | .minSize => .count c.community.minSize
  | .maxCommunities => .count c.community.maxCommunities
  | .maxTarget => .count c.community.maxTarget
  | .nodesPerCommunity => .count c.community.nodesPerCommunity
  | .maxIterations => .count c.community.maxIterations
  | .threshold => .score c.brokerThreshold
  | .maxDepth => .count c.paths.maxDepth
  | .maxPaths => .count c.paths.maxPaths
  | .maxExpansions => .count c.paths.maxExpansions
  | .degree => .score c.weights.degree
  | .closeness => .score c.weights.closeness
  | .betweenness => .score c.weights.betweenness

/-- Where a setting stands: under its name in a table, at its position in a
list. -/
structure Spot where
  name : String
  position : Nat

namespace ConfigField

/-- Where the section of a field stands in the document. -/
def home : ConfigField → Spot
  | minSize | maxCommunities | maxTarget | nodesPerCommunity | maxIterations =>
    ⟨"community", 0⟩
  | threshold => ⟨"brokers", 1⟩
  | maxDepth | maxPaths | maxExpansions => ⟨"paths", 2⟩
  | degree | closeness | betweenness => ⟨"centrality", 3⟩

/-- Where a field stands in its section. -/
def spot : ConfigField → Spot
  | minSize => ⟨"min_size", 0⟩
  | maxCommunities => ⟨"max_communities", 1⟩
  | maxTarget => ⟨"max_target", 2⟩
  | nodesPerCommunity => ⟨"nodes_per_community", 3⟩
  | maxIterations => ⟨"max_iterations", 4⟩
  | threshold => ⟨"threshold", 0⟩
  | maxDepth => ⟨"max_depth", 0⟩
  | maxPaths => ⟨"max_paths", 1⟩
  | maxExpansions => ⟨"max_expansions", 2⟩
  | degree => ⟨"degree", 0⟩
  | closeness => ⟨"closeness", 1⟩
  | betweenness => ⟨"betweenness", 2⟩

def isScore : ConfigField → Bool
  | threshold | degree | closeness | betweenness => true
  | _ => false

/-- The amount of a field, if a setting says one of the right kind. -/
def read (e : ConfigField) (s : Setting) : Option Amount :=
  if e.isScore then s.score?.map .score else s.count?.map .count

end ConfigField

namespace Setting

/-- What a section says of a field, by default if it leaves it out. -/
def stated (s : Setting) (e : ConfigField) : Option Amount :=
  field e.read e.spot.name e.spot.position (Config.default.amount e) s

/-- What a document says of a field, by default if it leaves out its section. -/
def states (d : Setting) (e : ConfigField) : Option Amount :=
  field (·.stated e) e.home.name e.home.position (Config.default.amount e) d

/-! ## One field -/

theorem field_map
    {β γ : Type} (f : β → γ) (read : Setting → Option β) (name : String)
    (position : Nat) (default : β) (s : Setting) :
    field (fun t => (read t).map f) name position (f default) s =
      (field read name position default s).map f := by
  cases s with
  | table fields =>
      simp only [field]
      cases fields.lookup name <;> rfl
  | list items =>
      simp only [field]
      cases items[position]? <;> rfl
  | _ => rfl

theorem stated_count_iff
    {s : Setting} {e : ConfigField} {d n : Nat}
    (hkind : e.isScore = false)
    (hdefault : Config.default.amount e = .count d) :
    s.stated e = some (.count n) ↔
      field count? e.spot.name e.spot.position d s = some n := by
  have hread : e.read = fun t => (count? t).map .count := by
    funext t
    simp [ConfigField.read, hkind]
  rw [stated, hdefault, hread, field_map]
  simp

theorem stated_score_iff
    {s : Setting} {e : ConfigField} {d x : Float}
    (hkind : e.isScore = true)
    (hdefault : Config.default.amount e = .score d) :
    s.stated e = some (.score x) ↔
      field score? e.spot.name e.spot.position d s = some x := by
  have hread : e.read = fun t => (score? t).map .score := by
    funext t
    simp [ConfigField.read, hkind]
  rw [stated, hdefault, hread, field_map]
  simp

/-- If a section is read from its fields, it is so where it stands in a
document. -/
theorem field_eq_some_iff
    {β : Type} {read : Setting → Option β} {default b : β}
    {fields : List ConfigField} {amount : ConfigField → Amount}
    (hfields : fields ≠ [])
    (hempty : read (.table []) = some default)
    (hread : ∀ t, read t = some b ↔ ∀ e ∈ fields, t.stated e = some (amount e))
    (name : String) (position : Nat) (d : Setting) :
    field read name position default d = some b ↔ ∀ e ∈ fields,
      field (·.stated e) name position (Config.default.amount e) d =
        some (amount e) := by
  have hdefault : some default = some b ↔
      ∀ e ∈ fields, some (Config.default.amount e) = some (amount e) :=
    hempty ▸ hread (.table [])
  cases d with
  | table parts =>
      simp only [field]
      cases parts.lookup name with
      | none => exact hdefault
      | some t => exact hread t
  | list items =>
      simp only [field]
      cases items[position]? with
      | none => exact hdefault
      | some t => exact hread t
  | _ =>
      obtain ⟨e, he⟩ := List.exists_mem_of_ne_nil fields hfields
      exact iff_of_false nofun fun heach => nomatch heach e he

end Setting

open Setting

/-! ## Sections -/

section Sections

variable (s : Setting) (c : Config Float)

theorem ofSetting?_community_iff :
    CommunityConfig.ofSetting? false s = some c.community ↔
      ∀ e ∈ [.minSize, .maxCommunities, .maxTarget, .nodesPerCommunity,
          .maxIterations],
        s.stated e = some (c.amount e) := by
  obtain ⟨⟨a, b, t, m, i⟩, -, -, -⟩ := c
  simp only [List.forall_mem_cons,
    Config.amount, stated_count_iff (e := .minSize) rfl rfl, stated_count_iff
    (e := .maxCommunities) rfl rfl, stated_count_iff (e := .maxTarget) rfl rfl,
    stated_count_iff (e := .nodesPerCommunity) rfl rfl,
    stated_count_iff (e := .maxIterations) rfl rfl]
  simp [CommunityConfig.ofSetting?, readSection, Option.bind_eq_some_iff,
    ConfigField.spot, Config.default]

theorem brokerThresholdOfSetting?_iff :
    brokerThresholdOfSetting? false s = some c.brokerThreshold ↔
      ∀ e ∈ [.threshold], s.stated e = some (c.amount e) := by
  simp only [List.forall_mem_cons, Config.amount,
    stated_score_iff (e := .threshold) rfl rfl]
  simp [brokerThresholdOfSetting?, readSection, ConfigField.spot,
    Config.default]

theorem ofSetting?_paths_iff :
    PathConfig.ofSetting? false s = some c.paths ↔
      ∀ e ∈ [.maxDepth, .maxPaths, .maxExpansions],
        s.stated e = some (c.amount e) := by
  obtain ⟨-, -, ⟨d, p, x⟩, -⟩ := c
  simp only [List.forall_mem_cons, Config.amount, stated_count_iff
    (e := .maxDepth) rfl rfl, stated_count_iff (e := .maxPaths) rfl rfl,
    stated_count_iff (e := .maxExpansions) rfl rfl]
  simp [PathConfig.ofSetting?, readSection, Option.bind_eq_some_iff,
    ConfigField.spot, Config.default]

theorem ofSetting?_weights_iff :
    Weights.ofSetting? false s = some c.weights ↔
      ∀ e ∈ [.degree, .closeness, .betweenness],
        s.stated e = some (c.amount e) := by
  obtain ⟨-, -, -, ⟨d, l, b⟩⟩ := c
  simp only [List.forall_mem_cons, Config.amount, stated_score_iff
    (e := .degree) rfl rfl, stated_score_iff (e := .closeness) rfl rfl,
    stated_score_iff (e := .betweenness) rfl rfl]
  simp [Weights.ofSetting?, readSection, Option.bind_eq_some_iff,
    ConfigField.spot, Config.default]

end Sections

/-- A document says a configuration if it says of every field what the
configuration holds there. -/
theorem Config.ofSetting?_eq_some_iff {d : Setting} {c : Config Float} :
    Config.ofSetting? false d = some c ↔
      ∀ e, d.states e = some (c.amount e) := by
  have hcommunity := field_eq_some_iff (by simp) (by rfl)
    (ofSetting?_community_iff · c) "community" 0 d
  have hbrokers := field_eq_some_iff (by simp) (by rfl)
    (brokerThresholdOfSetting?_iff · c) "brokers" 1 d
  have hpaths :=
    field_eq_some_iff (by simp) (by rfl) (ofSetting?_paths_iff · c) "paths" 2 d
  have hweights := field_eq_some_iff (by simp) (by rfl)
    (ofSetting?_weights_iff · c) "centrality" 3 d
  have hsections : Config.ofSetting? false d = some c ↔
      field (CommunityConfig.ofSetting? false) "community" 0
            CommunityConfig.default d = some c.community ∧
        field (brokerThresholdOfSetting? false) "brokers" 1 (tenths 3) d =
          some c.brokerThreshold ∧
        field (PathConfig.ofSetting? false) "paths" 2 PathConfig.default d =
          some c.paths ∧
        field (Weights.ofSetting? false) "centrality" 3 Weights.default d =
          some c.weights := by
    obtain ⟨community, threshold, paths, weights⟩ := c
    simp [Config.ofSetting?, readSection, Option.bind_eq_some_iff,
      Config.default]
  rw [hsections, hcommunity, hbrokers, hpaths, hweights]
  constructor
  · rintro ⟨hcommunity, hbrokers, hpaths, hweights⟩ e
    cases e with
    | minSize | maxCommunities | maxTarget | nodesPerCommunity
      | maxIterations =>
        exact hcommunity _ (by simp)
    | threshold => exact hbrokers _ (by simp)
    | maxDepth | maxPaths | maxExpansions => exact hpaths _ (by simp)
    | degree | closeness | betweenness => exact hweights _ (by simp)
  · intro hstates
    simp only [List.forall_mem_cons]
    exact ⟨⟨hstates .minSize, hstates .maxCommunities, hstates .maxTarget,
      hstates .nodesPerCommunity, hstates .maxIterations, nofun⟩,
      ⟨hstates .threshold, nofun⟩,
      ⟨hstates .maxDepth, hstates .maxPaths, hstates .maxExpansions, nofun⟩,
      hstates .degree, hstates .closeness, hstates .betweenness, nofun⟩

end LinkAnalysis
