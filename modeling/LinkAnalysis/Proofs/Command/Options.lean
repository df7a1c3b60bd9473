import LinkAnalysis.Proofs.Command.Outcome
import LinkAnalysis.Proofs.Config.Editing

/-!
# Options and configuration files

An option of a subcommand stands for a field of the configuration.  A run with
such options leaves behind what the run without them does under a configuration
file that says the same of these fields, and of all others what the first file
says.
-/

namespace LinkAnalysis.Command

namespace Subcommand

/-- What the options of a subcommand say of a field. -/
def override? : Subcommand → ConfigField → Option Amount
  | communities minSize _, .minSize => minSize.map .count
  | communities _ maxCommunities, .maxCommunities => maxCommunities.map .count
  | brokers threshold, .threshold => threshold.map .score
  | paths _ _ maxDepth _, .maxDepth => maxDepth.map .count
  | paths _ _ _ maxPaths, .maxPaths => maxPaths.map .count
  | _, _ => none

/-- The subcommand without the options that override the configuration. -/
def plain : Subcommand → Subcommand
  | communities _ _ => communities none none
  | brokers _ => brokers none
  | paths source target _ _ => paths source target none none
  | c => c

theorem amount_revised
    (c : Subcommand) (config : Config Float) (e : ConfigField) :
    (c.revised config).amount e = (c.override? e).getD (config.amount e) := by
  cases c with
  | communities minSize maxCommunities =>
      cases e <;> try rfl
      case minSize => cases minSize <;> rfl
      case maxCommunities => cases maxCommunities <;> rfl
  | brokers threshold =>
      cases e <;> try rfl
      case threshold => cases threshold <;> rfl
  | paths source target maxDepth maxPaths =>
      cases e <;> try rfl
      case maxDepth => cases maxDepth <;> rfl
      case maxPaths => cases maxPaths <;> rfl
  | _ => rfl

theorem revised_plain (c : Subcommand) (config : Config Float) :
    c.plain.revised config = config := by
  cases c <;> rfl

theorem query_plain (c : Subcommand) : c.plain.query = c.query := by
  cases c <;> rfl

theorem top_plain (c : Subcommand) : c.plain.top = c.top := by
  cases c <;> rfl

/-- The fields that options stand for. -/
def optionFields : List ConfigField :=
  [.minSize, .maxCommunities, .threshold, .maxDepth, .maxPaths]

theorem override?_of_not_mem
    (c : Subcommand) {e : ConfigField}
    (hnotMem : e ∉ optionFields) :
    c.override? e = none := by
  cases e <;> first | exact absurd (by decide) hnotMem | (cases c <;> rfl)

/-- Whether a document can say what the options say: its whole numbers have a
sign and 63 bits. -/
def IsExpressible (c : Subcommand) : Prop :=
  ∀ e n, c.override? e = some (.count n) → n < 2 ^ 63

theorem IsExpressible.fits
    {c : Subcommand}
    (hexpressible : c.IsExpressible)
    {e : ConfigField} {a : Amount}
    (ha : c.override? e = some a) :
    a.Fits e := by
  cases a with
  | count n =>
      refine ⟨?_, (hexpressible e n ha).trans (by decide)⟩
      cases c <;> cases e <;> first | rfl | simp [override?] at ha
  | score x => cases c <;> cases e <;> first | rfl | simp [override?] at ha

/-- Write the options of a subcommand into a document. -/
def edit (c : Subcommand) (d : Setting) : Setting :=
  d.amend c.override? optionFields

end Subcommand

/-- The document that a run takes its configuration from; without a file, an
empty one. -/
inductive Consults (env : Environment)
    (asked : Option String) : Setting → Prop where
  | default (hpath : configPath? env asked = none) :
      Consults env asked (.table [])
  | file {path content text d} (hpath : configPath? env asked = some path)
      (hopen : env.files path = .file content)
      (htext : String.fromUTF8? content = some text)
      (hread : Toml.ofText? text = some d) : Consults env asked d

theorem Consults.configures
    {env : Environment} {asked : Option String} {d : Setting}
    {config : Config Float}
    (hconsults : Consults env asked d)
    (hconfig : Config.ofSetting? false d = some config) :
    Configures env asked config := by
  cases hconsults with
  | default hpath =>
      obtain rfl : Config.default = config := Option.some.inj hconfig
      exact .default hpath
  | file hpath hopen htext hread =>
      exact .file hpath hopen htext
        (by rw [Config.ofToml?, hread, Option.bind_some, hconfig])

/-- A document says of the fields of the options what they say, and of all
others what another document says. -/
def Edits (c : Subcommand) (d d' : Setting) : Prop :=
  ∀ e, d'.states e = (c.override? e).or (d.states e)

theorem edits_edit
    {c : Subcommand} {d : Setting}
    (htabular : d.Tabular)
    (hc : c.IsExpressible) :
    Edits c d (c.edit d) := by
  intro e
  rw [Subcommand.edit, htabular.states_amend fun e a => hc.fits]
  by_cases he : e ∈ Subcommand.optionFields
  · rw [if_pos he]
  · rw [if_neg he, c.override?_of_not_mem he, Option.none_or]

theorem Edits.ofSetting?_eq
    {c : Subcommand} {d d' : Setting} {config : Config Float}
    (hedits : Edits c d d')
    (hconfig : Config.ofSetting? false d = some config) :
    Config.ofSetting? false d' = some (c.revised config) := by
  rw [Config.ofSetting?_eq_some_iff] at hconfig ⊢
  intro e
  rw [hedits e, hconfig e, c.amount_revised]
  cases c.override? e <;> rfl

/-- A command line without the options of another, which reads the same snapshot
and writes in the same mode. -/
structure WithoutOptions (env env' : Environment)
    (inv inv' : Invocation) : Prop where
  subcommand_eq : inv'.subcommand = inv.subcommand.plain
  snapshot_eq : inv'.snapshot = inv.snapshot
  file_eq : env'.files inv.snapshot = env.files inv.snapshot
  standardInput_eq : env'.standardInput = env.standardInput
  outputMode_eq : outputMode env' inv' = outputMode env inv

section Plain

variable {env env' : Environment} {inv inv' : Invocation} {d : Setting}
  {config : Config Float}

theorem WithoutOptions.loadSnapshot_eq
    (hwithout : WithoutOptions env env' inv inv') :
    loadSnapshot env' inv'.snapshot = loadSnapshot env inv.snapshot := by
  rw [hwithout.snapshot_eq, loadSnapshot, loadSnapshot, hwithout.file_eq,
    hwithout.standardInput_eq]

theorem WithoutOptions.conclusion_eq
    (hwithout : WithoutOptions env env' inv inv')
    (hconfig : Configures env inv.config config)
    (hvalid : config.flaw? = none)
    (hedited : Configures env' inv'.config (inv.subcommand.revised config)) :
    conclusion env' inv' = conclusion env inv := by
  cases hflaw : (inv.subcommand.revised config).flaw? with
  | some flaw =>
      have hfails := Concludes.invalidOption hconfig hvalid hflaw
      have hfails' := Concludes.invalidConfig hedited hflaw
      rw [hfails.conclusion_eq, hfails'.conclusion_eq]
  | none =>
      have hprepared : Prepares env inv config := ⟨hconfig, hvalid, hflaw⟩
      have hprepared' : Prepares env' inv' (inv.subcommand.revised config) := by
        refine ⟨hedited, hflaw, ?_⟩
        rw [hwithout.subcommand_eq, Subcommand.revised_plain]
        exact hflaw
      rw [hprepared.conclusion_eq, hprepared'.conclusion_eq, reportUnder,
        reportUnder, hwithout.loadSnapshot_eq, hwithout.subcommand_eq,
        Subcommand.revised_plain, Subcommand.query_plain, Subcommand.top_plain]

/-- Options come to the same as a file that is edited accordingly, whether or
not what they say is valid and the snapshot can be read.  To write them into the
document is to edit it so. -/
theorem run_eq_run_edited
    {args args' : List String}
    (hargs : readArguments args = .ok inv)
    (hargs' : readArguments args' = .ok inv')
    (hwithout : WithoutOptions env env' inv inv')
    (hd : Consults env inv.config d)
    (hconfig : Config.ofSetting? false d = some config)
    (hvalid : config.validate = .ok ()) :
    (∀ d', Consults env' inv'.config d' → Edits inv.subcommand d d' →
        run env args = run env' args') ∧
      (d.Tabular → inv.subcommand.IsExpressible →
        Edits inv.subcommand d (inv.subcommand.edit d)) := by
  refine ⟨fun d' hd' hedits => ?_, edits_edit⟩
  have hconclusion :=
    hwithout.conclusion_eq (hd.configures hconfig) (flaw_eq_none_of_validate
      hvalid) (hd'.configures (hedits.ofSetting?_eq hconfig))
  rw [run_eq hargs, run_eq hargs', hconclusion, hwithout.outputMode_eq]

end Plain

/-- A small case: two options override one field of a file and a default. -/
def baseText : String :=
  "[community]\nmin_size = 4\n\n[brokers]\nthreshold = 0.5\n"

def editedText : String :=
  "[brokers]\nthreshold = 0.5\n\n[community]\nmin_size = 1\nmax_communities = 3\n"

/-- A world in which one file stands at one path. -/
def oneFile (path text : String) : Environment where
  files other := if other = path then .file text.toUTF8 else .missing
  standardInput := .empty
  userConfig := none
  format := none
  terminal := false

def fewGroups (minSize maxCommunities : Option Nat) : Invocation :=
  ⟨none, false, some "c.toml", "-", .communities minSize maxCommunities⟩

theorem readArguments_fewGroups :
    readArguments ["communities", "-", "--config", "c.toml", "--min-size", "1",
            "--max", "3"] = .ok (fewGroups (some 1) (some 3)) ∧
      readArguments ["communities", "-", "--config", "c.toml"] =
        .ok (fewGroups none none) := by
  have hfront (rest : List String) : readSide commonArity true none .empty
      ("communities" :: rest) = .ok (⟨[], ["communities"]⟩, rest) := rfl
  have hbehind : readSide (arityBehind ["min-size", "max"]) false none .empty
        ["-", "--config", "c.toml", "--min-size", "1", "--max", "3"] =
      .ok (⟨[("max", "3"), ("min-size", "1"), ("config", "c.toml")], ["-"]⟩,
        []) := by
    decide +kernel
  have hbehind' : readSide (arityBehind ["min-size", "max"]) false none .empty
        ["-", "--config", "c.toml"] =
      .ok (⟨[("config", "c.toml")], ["-"]⟩, []) := by
    decide +kernel
  rw [readArguments_of_front (hfront _) rfl rfl,
    readArguments_of_front (hfront _) rfl rfl, readBehind, readBehind,
    hbehind, hbehind']
  exact ⟨rfl, rfl⟩

theorem consults_oneFile
    {text : String} {d : Setting}
    (htext : String.fromUTF8? text.toUTF8 = some text)
    (hread : Toml.ofText? text = some d) :
    Consults (oneFile "c.toml" text) (some "c.toml") d :=
  .file rfl (by simp [oneFile]) htext hread

theorem run_eq_run_edited_fewGroups :
    run (oneFile "c.toml" baseText) ["communities", "-", "--config", "c.toml",
          "--min-size", "1", "--max", "3"] =
      run (oneFile "c.toml" editedText)
        ["communities", "-", "--config", "c.toml"] := by
  obtain ⟨hargs, hargs'⟩ := readArguments_fewGroups
  have hbase : (Toml.ofText? baseText).isSome = true := by decide +kernel
  have hedited : (Toml.ofText? editedText).isSome = true := by decide +kernel
  obtain ⟨d, hd⟩ := Option.isSome_iff_exists.mp hbase
  obtain ⟨d', hd'⟩ := Option.isSome_iff_exists.mp hedited
  have hloads : ((Config.ofToml? baseText).any fun config =>
      config.flaw?.isNone) = true := by
    decide +kernel
  have hedits : ∀ e, (Toml.ofText? editedText).bind (·.states e) =
      ((fewGroups (some 1) (some 3)).subcommand.override? e).or
        ((Toml.ofText? baseText).bind (·.states e)) := by
    decide +kernel
  rw [Config.ofToml?, hd, Option.bind_some, Option.any_eq_true] at hloads
  obtain ⟨config, hconfig, hvalid⟩ := hloads
  rw [Option.isNone_iff_eq_none] at hvalid
  simp only [hd, hd', Option.bind_some] at hedits
  have hwithout :
      WithoutOptions (oneFile "c.toml" baseText) (oneFile "c.toml" editedText)
        (fewGroups (some 1) (some 3)) (fewGroups none none) :=
    ⟨rfl, rfl, rfl, rfl, rfl⟩
  have hsame :=
    run_eq_run_edited hargs hargs' hwithout (consults_oneFile
      (by decide +kernel) hd) hconfig (validate_of_flaw_eq_none hvalid)
  exact hsame.1 d' (consults_oneFile (by decide +kernel) hd') hedits

end LinkAnalysis.Command
