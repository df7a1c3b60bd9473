import LinkAnalysis.Proofs.Command.Printing
import LinkAnalysis.Proofs.Report.Outcome
import LinkAnalysis.Proofs.Snapshot.Spelling

/-!
# The outcome of a run

A run that fails prints a notice and no result; else it prints one report and no
notice.  What it comes to is settled before anything is printed: the
configuration is found before its values are looked at, they before the options
that override them, all of these before the snapshot, its text before its ids,
and its ids before the ends of a query.  The mode of the output has no part in
it.
-/

namespace LinkAnalysis.Command

/-! ## What a run finds -/

section Finds

variable (env : Environment)

/-- The configuration that a run starts from, not yet validated. -/
inductive Configures (asked : Option String) : Config Float → Prop where
  | default (hpath : configPath? env asked = none) :
      Configures asked Config.default
  | file {path content text config} (hpath : configPath? env asked = some path)
      (hopen : env.files path = .file content)
      (htext : String.fromUTF8? content = some text)
      (hread : Config.ofToml? text = some config) : Configures asked config

/-- Why there is no configuration to start from. -/
inductive ConfigFails (asked : Option String) : Failure → Prop where
  | unopened {path} (hpath : configPath? env asked = some path)
      (hopen : ∀ content, env.files path ≠ .file content) :
      ConfigFails asked ⟨.attempt ("Failed to read " ++ path) ::
          (env.files path).trouble?.toList.map .system⟩
  | undecoded {path content} (hpath : configPath? env asked = some path)
      (hopen : env.files path = .file content)
      (htext : String.fromUTF8? content = none) :
      ConfigFails asked ⟨[.attempt ("Failed to read " ++ path),
          .system "stream did not contain valid UTF-8"]⟩
  | unparsed {path content text} (hpath : configPath? env asked = some path)
      (hopen : env.files path = .file content)
      (htext : String.fromUTF8? content = some text)
      (hread : Config.ofToml? text = none) :
      ConfigFails asked ⟨[.attempt ("Failed to parse " ++ path)]⟩

/-- What a run reads its snapshot from, and how it speaks of it. -/
inductive Supplies (path : String) : String → ByteArray → Prop where
  | input (hinput : isStandardInput path = true) :
      Supplies path "from stdin" env.standardInput
  | file {content} (hinput : isStandardInput path = false)
      (hopen : env.files path = .file content) : Supplies path path content

def listsOfBytes (content : ByteArray) :
    Except Json.Misread (List Node × List Edge) :=
  Snapshot.listsOfSymbols (Text.symbolsOfBytes content)

/-- Why there is no snapshot. -/
inductive SnapshotFails (path : String) : Failure → Prop where
  | unopened (hinput : isStandardInput path = false)
      (hopen : ∀ content, env.files path ≠ .file content)
      (hdirectory : env.files path ≠ .directory) :
      SnapshotFails path ⟨.attempt ("Failed to open " ++ path) ::
          (env.files path).trouble?.toList.map .system⟩
  | directory (hinput : isStandardInput path = false)
      (hopen : env.files path = .directory) :
      SnapshotFails path ⟨[.attempt ("Failed to load snapshot " ++ path),
          .fault (.invalidSnapshot Json.Misread.malformed.text)]⟩
  | malformed {source content reason}
      (hsource : Supplies env path source content)
      (hlists : listsOfBytes content = .error reason) :
      SnapshotFails path ⟨[.attempt ("Failed to load snapshot " ++ source),
          .fault (.invalidSnapshot reason.text)]⟩
  | offends {source content nodes edges fault}
      (hsource : Supplies env path source content)
      (hlists : listsOfBytes content = .ok (nodes, edges))
      (hoffence : firstOffence [] 0 nodes = some fault) :
      SnapshotFails path
        ⟨[.attempt ("Failed to load snapshot " ++ source), .fault fault]⟩

/-- The snapshot of a run. -/
inductive Loads (path : String) : Snapshot → Prop where
  | lists {source content s} (hsource : Supplies env path source content)
      (hlists : listsOfBytes content = .ok (s.nodes, s.edges)) : Loads path s

variable {env}

theorem Configures.findConfig_eq
    {asked : Option String} {config : Config Float}
    (hconfigures : Configures env asked config) :
    findConfig env asked = .ok config := by
  cases hconfigures with
  | default hpath => simp only [findConfig, hpath]
  | file hpath hopen htext hread =>
      simp only [findConfig, hpath, readConfig, hopen, htext, hread]

theorem ConfigFails.findConfig_eq
    {asked : Option String} {f : Failure}
    (hfails : ConfigFails env asked f) :
    findConfig env asked = .error f := by
  cases hfails with
  | @unopened path hpath hopen =>
      simp only [findConfig, hpath, readConfig]
  | undecoded hpath hopen htext =>
      simp only [findConfig, hpath, readConfig, hopen, htext]
  | unparsed hpath hopen htext hread =>
      simp only [findConfig, hpath, readConfig, hopen, htext, hread]

theorem exists_configures_or_fails (env : Environment) (asked : Option String) :
    (∃ config, Configures env asked config) ∨ ∃ f, ConfigFails env asked f := by
  cases hpath : configPath? env asked with
  | none => exact Or.inl ⟨_, .default hpath⟩
  | some path =>
      by_cases hopen : ∃ content, env.files path = .file content
      · obtain ⟨content, hcontent⟩ := hopen
        cases htext : String.fromUTF8? content with
        | none => exact Or.inr ⟨_, .undecoded hpath hcontent htext⟩
        | some text =>
            cases hread : Config.ofToml? text with
            | none => exact Or.inr ⟨_, .unparsed hpath hcontent htext hread⟩
            | some config => exact Or.inl ⟨_, .file hpath hcontent htext hread⟩
      · exact Or.inr ⟨_, .unopened hpath (not_exists.mp hopen)⟩

theorem Supplies.loadSnapshot_eq
    {path source : String} {content : ByteArray}
    (hsupplies : Supplies env path source content) :
    loadSnapshot env path = readSnapshot source content := by
  cases hsupplies with
  | input hinput => rw [loadSnapshot, if_pos hinput]
  | file hinput hopen => simp [loadSnapshot, hinput, hopen]

theorem ofLists_of_firstOffence
    {nodes : List Node} {fault : Fault}
    (hoffence : firstOffence [] 0 nodes = some fault)
    (edges : List Edge) :
    Snapshot.ofLists nodes edges = .error fault := by
  unfold Snapshot.ofLists
  split
  case h_1 other hother => rw [Option.some.inj (hoffence.symm.trans hother)]
  case h_2 hnone => exact nomatch hoffence.symm.trans hnone

theorem ofBytes_eq (content : ByteArray) :
    Snapshot.ofBytes content = Snapshot.ofReadLists (listsOfBytes content) :=
  rfl

theorem Loads.loadSnapshot_eq
    {path : String} {s : Snapshot}
    (hloads : Loads env path s) :
    loadSnapshot env path = .ok s := by
  obtain ⟨hsource, hlists⟩ := hloads
  rw [hsource.loadSnapshot_eq, readSnapshot, ofBytes_eq, hlists,
    Snapshot.ofReadLists, Snapshot.ofLists_eq_ok]
  rfl

theorem SnapshotFails.loadSnapshot_eq
    {path : String} {f : Failure}
    (hfails : SnapshotFails env path f) :
    loadSnapshot env path = .error f := by
  cases hfails with
  | unopened hinput hopen hdirectory => simp [loadSnapshot, hinput]
  | directory hinput hopen => simp [loadSnapshot, hinput, hopen]
  | malformed hsource hlists =>
      rw [hsource.loadSnapshot_eq, readSnapshot, ofBytes_eq, hlists]
      rfl
  | offends hsource hlists hoffence =>
      rw [hsource.loadSnapshot_eq, readSnapshot, ofBytes_eq, hlists,
        Snapshot.ofReadLists, ofLists_of_firstOffence hoffence]
      rfl

theorem Supplies.exists_loads_or_fails
    {path source : String} {content : ByteArray}
    (hsupplies : Supplies env path source content) :
    (∃ s, Loads env path s) ∨ ∃ f, SnapshotFails env path f := by
  cases hlists : listsOfBytes content with
  | error reason => exact Or.inr ⟨_, .malformed hsupplies hlists⟩
  | ok lists =>
      obtain ⟨nodes, edges⟩ := lists
      cases hoffence : firstOffence [] 0 nodes with
      | some fault => exact Or.inr ⟨_, .offends hsupplies hlists hoffence⟩
      | none =>
          exact Or.inl ⟨⟨nodes, edges, id_ne_empty_of_firstOffence hoffence,
            nodup_of_firstOffence hoffence⟩, .lists hsupplies hlists⟩

theorem exists_loads_or_fails (env : Environment) (path : String) :
    (∃ s, Loads env path s) ∨ ∃ f, SnapshotFails env path f := by
  cases hinput : isStandardInput path with
  | true => exact (Supplies.input hinput).exists_loads_or_fails
  | false =>
      cases hopen : env.files path with
      | file content => exact (Supplies.file hinput hopen).exists_loads_or_fails
      | directory => exact Or.inr ⟨_, .directory hinput hopen⟩
      | _ =>
          refine Or.inr ⟨_, .unopened hinput (fun content => ?_) ?_⟩ <;>
            rw [hopen] <;>
            exact Opened.noConfusion

end Finds

/-! ## What a run comes to -/

/-- The configuration under the options of a subcommand. -/
def Subcommand.revised (c : Subcommand)
    (config : Config Float) : Config Float :=
  match c.revision? with
  | some revise => revise config
  | none => config

/-- A configuration, and the one under the options, that a run goes on with. -/
structure Prepares (env : Environment) (inv : Invocation)
    (config : Config Float) : Prop where
  configures : Configures env inv.config config
  flaw_eq_none : config.flaw? = none
  flaw_revised_eq_none : (inv.subcommand.revised config).flaw? = none

/-- What a run comes to: the first failure on its way, or the answer to its
query. -/
inductive Concludes (env : Environment) (inv : Invocation) :
    Except Failure (Report Float) → Prop where
  | noConfig {f} (hfails : ConfigFails env inv.config f) :
      Concludes env inv (.error f)
  | invalidConfig {config flaw} (hconfigures : Configures env inv.config config)
      (hflaw : config.flaw? = some flaw) :
      Concludes env inv (.error (.ofFault (.invalidConfig flaw.text)))
  | invalidOption {config flaw} (hconfigures : Configures env inv.config config)
      (hvalid : config.flaw? = none)
      (hflaw : (inv.subcommand.revised config).flaw? = some flaw) :
      Concludes env inv (.error (.ofFault (.invalidConfig flaw.text)))
  | noSnapshot {config f} (hprepares : Prepares env inv config)
      (hs : SnapshotFails env inv.snapshot f) : Concludes env inv (.error f)
  | refused {config s fault} (hprepares : Prepares env inv config)
      (hs : Loads env inv.snapshot s)
      (hrefusal : inv.subcommand.query.refusal? .live s = some fault) :
      Concludes env inv (.error (.ofFault fault))
  | answered {config s r} (hprepares : Prepares env inv config)
      (hs : Loads env inv.snapshot s)
      (hanswer : inv.subcommand.query.answer
        (inv.subcommand.revised config) .live s = .ok r) :
      Concludes env inv (.ok (cutTo inv.subcommand.top r))

theorem validate_of_flaw
    {config : Config Float} {flaw : ConfigFlaw}
    (hflaw : config.flaw? = some flaw) :
    config.validate = .error (.invalidConfig flaw.text) := by
  rw [Config.validate, hflaw]

theorem validate_of_flaw_eq_none
    {config : Config Float}
    (hflaw : config.flaw? = none) :
    config.validate = .ok () := by
  rw [Config.validate, hflaw]

theorem flaw_eq_none_of_validate
    {config : Config Float}
    (hvalidate : config.validate = .ok ()) :
    config.flaw? = none := by
  cases hflaw : config.flaw? with
  | none => rfl
  | some flaw => exact nomatch hvalidate.symm.trans (validate_of_flaw hflaw)

theorem exists_concludes (env : Environment) (inv : Invocation) :
    ∃ result, Concludes env inv result := by
  rcases exists_configures_or_fails env inv.config
    with ⟨config, hconfig⟩ | ⟨f, hf⟩
  · cases hflaw : config.flaw? with
    | some flaw => exact ⟨_, .invalidConfig hconfig hflaw⟩
    | none =>
        cases hrevised : (inv.subcommand.revised config).flaw? with
        | some flaw => exact ⟨_, .invalidOption hconfig hflaw hrevised⟩
        | none =>
            have hprepared : Prepares env inv config :=
              ⟨hconfig, hflaw, hrevised⟩
            rcases exists_loads_or_fails env inv.snapshot with ⟨s, hs⟩ | ⟨f, hf⟩
            · cases hrefusal : inv.subcommand.query.refusal? .live s with
              | some fault => exact ⟨_, .refused hprepared hs hrefusal⟩
              | none =>
                  obtain ⟨r, hr⟩ :=
                    Query.exists_answer_live (inv.subcommand.revised config)
                      hrefusal
                  exact ⟨_, .answered hprepared hs hr⟩
            · exact ⟨_, .noSnapshot hprepared hf⟩
  · exact ⟨_, .noConfig hf⟩

/-! ## The steps of a run -/

/-- The report on the snapshot under a settled configuration. -/
def reportUnder (env : Environment) (inv : Invocation) (config : Config Float) :
    Except Failure (Report Float) := do
  let s ← loadSnapshot env inv.snapshot
  let r ← (inv.subcommand.query.answer config .live s).mapError .ofFault
  return cutTo inv.subcommand.top r

/-- What a run comes to, computed without a console. -/
def conclusion (env : Environment) (inv : Invocation) :
    Except Failure (Report Float) := do
  let config ← loadConfig env inv.config
  (inv.subcommand.revised config).validate.mapError .ofFault
  reportUnder env inv (inv.subcommand.revised config)

/-- What a console leaves behind: the text of a report, or a failure and nothing
that was not printed before. -/
def Leaves (mode : Mode) (console : Console Unit)
    (result : Except Failure (Report Float)) : Prop :=
  ∀ streams, console.run.run streams =
    match result with
    | .ok r => (.ok (), streams.addOutput (reportText mode r))
    | .error f => (.error f, streams)

variable {env : Environment} {inv : Invocation} {mode : Mode}

theorem leaves_take
    {β : Type} {x : Except Failure β} {next : β → Console Unit}
    {result : β → Except Failure (Report Float)}
    (hleaves : ∀ b, x = .ok b → Leaves mode (next b) (result b)) :
    Leaves mode (Console.take x >>= next) (x >>= result) := by
  cases x with
  | ok b => exact hleaves b rfl
  | error f => exact fun streams => rfl

theorem leaves_printReport (r : Report Float) :
    Leaves mode (liftM (printReport mode r)) (.ok r) :=
  fun streams => congrArg (fun p : Unit × Streams =>
    ((.ok p.1 : Except Failure Unit), p.2)) (run_printReport mode r streams)

theorem leaves_present
    {a : Analyzer Float} {r : Registry}
    (hlive : r.signal a.token = .live) :
    Leaves mode (present env mode inv a r) (reportUnder env inv a.config) := by
  refine leaves_take fun s _ => ?_
  rw [Analyzer.answer, hlive]
  exact leaves_take fun report _ => leaves_printReport _

/-- The token of a first analyzer stays live when a second one is created. -/
theorem signal_fresh_fresh :
    Registry.empty.fresh.2.signal Registry.empty.fresh.1 = .live ∧
      Registry.empty.fresh.2.fresh.2.signal Registry.empty.fresh.1 = .live := by
  decide

theorem leaves_handle
    {config : Config Float}
    (hvalid : config.validate = .ok ()) :
    Leaves mode
      (handle env mode inv ⟨config, Registry.empty.fresh.1⟩
        Registry.empty.fresh.2)
      (do
        (inv.subcommand.revised config).validate.mapError .ofFault
        reportUnder env inv (inv.subcommand.revised config)) := by
  rw [handle, Subcommand.revised]
  cases inv.subcommand.revision? with
  | none =>
      rw [hvalid]
      exact leaves_present signal_fresh_fresh.1
  | some revise =>
      simp only [Analyzer.create]
      cases (revise config).validate with
      | error fault => exact fun streams => rfl
      | ok => exact leaves_present signal_fresh_fresh.2

theorem validate_of_loadConfig
    {asked : Option String} {config : Config Float}
    (hload : loadConfig env asked = .ok config) :
    config.validate = .ok () := by
  rw [loadConfig] at hload
  cases hfind : findConfig env asked with
  | error f =>
      rw [hfind] at hload
      exact nomatch hload
  | ok found =>
      rw [hfind, Strict.ok_bind] at hload
      cases hvalid : found.validate with
      | error fault =>
          rw [hvalid] at hload
          exact nomatch hload
      | ok =>
          rw [hvalid] at hload
          exact Except.ok.inj hload ▸ hvalid

theorem Configures.loadConfig_eq
    {asked : Option String} {config : Config Float}
    (hconfigures : Configures env asked config)
    (hvalid : config.flaw? = none) :
    loadConfig env asked = .ok config := by
  rw [loadConfig, hconfigures.findConfig_eq, Strict.ok_bind,
    validate_of_flaw_eq_none hvalid]
  rfl

theorem Prepares.conclusion_eq
    {config : Config Float}
    (hprepares : Prepares env inv config) :
    conclusion env inv =
      reportUnder env inv (inv.subcommand.revised config) := by
  rw [conclusion, hprepares.configures.loadConfig_eq hprepares.flaw_eq_none,
    Strict.ok_bind, validate_of_flaw_eq_none hprepares.flaw_revised_eq_none]
  rfl

theorem leaves_dispatch
    (env : Environment) (inv : Invocation) (mode : Mode) :
    Leaves mode (dispatch env mode inv) (conclusion env inv) := by
  refine leaves_take fun config hconfig => ?_
  have hvalid := validate_of_loadConfig hconfig
  rw [Analyzer.create, hvalid]
  exact leaves_handle hvalid

theorem Concludes.conclusion_eq
    {result : Except Failure (Report Float)}
    (hconcludes : Concludes env inv result) :
    conclusion env inv = result := by
  cases hconcludes with
  | noConfig hfails =>
      rw [conclusion, loadConfig, hfails.findConfig_eq]
      rfl
  | invalidConfig hconfigures hflaw =>
      rw [conclusion, loadConfig, hconfigures.findConfig_eq, Strict.ok_bind,
        validate_of_flaw hflaw]
      rfl
  | invalidOption hconfigures hvalid hflaw =>
      rw [conclusion, hconfigures.loadConfig_eq hvalid, Strict.ok_bind,
        validate_of_flaw hflaw]
      rfl
  | noSnapshot hprepares hs =>
      rw [hprepares.conclusion_eq, reportUnder, hs.loadSnapshot_eq]
      rfl
  | refused hprepares hs hrefusal =>
      rw [hprepares.conclusion_eq, reportUnder, hs.loadSnapshot_eq,
        Strict.ok_bind, Query.answer_of_refusal _ hrefusal]
      rfl
  | answered hprepares hs hanswer =>
      rw [hprepares.conclusion_eq, reportUnder, hs.loadSnapshot_eq,
        Strict.ok_bind, hanswer]
      rfl

/-- A run leaves a report on one stream, or a notice on the other. -/
def Outcome.of (mode : Mode) : Except Failure (Report Float) → Outcome
  | .ok r => ⟨0, reportText mode r, ""⟩
  | .error f => ⟨1, "", noticeText mode f.notice⟩

theorem carryOut_eq (env : Environment) (inv : Invocation) :
    carryOut env inv = .of (outputMode env inv) (conclusion env inv) := by
  rw [carryOut, leaves_dispatch env inv (outputMode env inv) .blank]
  cases conclusion env inv with
  | ok r => exact congrArg (Outcome.mk 0 · "") String.empty_append
  | error f =>
      simp only [run_printNotice]
      exact congrArg (Outcome.mk 1 "") String.empty_append

theorem run_eq {args : List String} (hargs : readArguments args = .ok inv) :
    run env args = .of (outputMode env inv) (conclusion env inv) := by
  rw [run, hargs]
  exact carryOut_eq env inv

/-! ## Codes -/

/-- The code and the hint of a notice are those of the fault in the chain, if
there is one. -/
structure Failure.Coded (f : Failure) : Prop where
  of_fault : ∀ fault, .fault fault ∈ f.causes →
    f.notice.code = some fault.code ∧ f.notice.suggestion = fault.hint
  of_no_fault : (∀ fault, .fault fault ∉ f.causes) →
    f.notice.code = none ∧ f.notice.suggestion = none

theorem Failure.coded_of_dropLast
    {f : Failure}
    (hcauses : ∀ c ∈ f.causes.dropLast, c.fault? = none) :
    f.Coded := by
  obtain ⟨causes⟩ := f
  rcases List.eq_nil_or_concat causes with rfl | ⟨before, root, rfl⟩
  · exact ⟨fun fault hfault => absurd hfault List.not_mem_nil,
      fun _ => ⟨rfl, rfl⟩⟩
  · rw [List.concat_eq_append, List.dropLast_concat] at hcauses
    have hfault : (Failure.mk (before.concat root)).fault? = root.fault? := by
      rw [Failure.fault?, List.concat_eq_append, List.findSome?_append,
        List.findSome?_eq_none_iff.mpr hcauses, Option.none_or,
        List.findSome?_singleton]
    rw [List.concat_eq_append] at hfault ⊢
    constructor
    · intro fault hmem
      rcases List.mem_append.mp hmem with hbefore | hroot
      · exact nomatch hcauses _ hbefore
      · rw [List.mem_singleton] at hroot
        subst hroot
        rw [Failure.notice, hfault]
        exact ⟨rfl, rfl⟩
    · intro hnone
      cases root with
      | fault fault => exact absurd (List.mem_concat_self) (hnone fault)
      | _ =>
          rw [Failure.notice, hfault]
          exact ⟨rfl, rfl⟩

theorem dropLast_attempt (what : String) (cause : Cause) :
    ∀ c ∈ [.attempt what, cause].dropLast, c.fault? = none := by
  simp [Cause.fault?]

theorem dropLast_trouble (what : String) (trouble : Option String) :
    ∀ c ∈ (Cause.attempt what :: trouble.toList.map .system).dropLast,
      c.fault? = none := by
  cases trouble with
  | none => simp
  | some trouble => exact dropLast_attempt what (.system trouble)

theorem Concludes.coded
    {f : Failure}
    (hconcludes : Concludes env inv (.error f)) :
    f.Coded := by
  apply Failure.coded_of_dropLast
  cases hconcludes with
  | noConfig hfails =>
      cases hfails with
      | unopened => exact dropLast_trouble _ _
      | undecoded => exact dropLast_attempt _ _
      | unparsed => exact dropLast_trouble _ none
  | invalidConfig | invalidOption | refused =>
      exact fun c hc => absurd hc List.not_mem_nil
  | noSnapshot _ hs =>
      cases hs with
      | unopened => exact dropLast_trouble _ _
      | directory | malformed | offends => exact dropLast_attempt _ _

/-! ## The outcome of a run -/

/-- Two command lines in two environments that ask for the same, perhaps in
different modes. -/
structure SameRequest (env env' : Environment)
    (inv inv' : Invocation) : Prop where
  files_eq : env'.files = env.files
  standardInput_eq : env'.standardInput = env.standardInput
  userConfig_eq : env'.userConfig = env.userConfig
  config_eq : inv'.config = inv.config
  snapshot_eq : inv'.snapshot = inv.snapshot
  subcommand_eq : inv'.subcommand = inv.subcommand

theorem SameRequest.conclusion_eq
    {env' : Environment} {inv' : Invocation}
    (hsame : SameRequest env env' inv inv') :
    conclusion env' inv' = conclusion env inv := by
  obtain ⟨files, input, user, format, terminal⟩ := env
  obtain ⟨files', input', user', format', terminal'⟩ := env'
  obtain ⟨format, json, config, snapshot, subcommand⟩ := inv
  obtain ⟨format', json', config', snapshot', subcommand'⟩ := inv'
  obtain ⟨rfl, rfl, rfl, rfl, rfl, rfl⟩ := hsame
  rfl

/-- A run comes to one thing, the first failure on its way or the answer to its
query, and leaves a notice of the one or a report on the other, and nothing
else.  Its mode decides how, and not what. -/
theorem run_concludes
    {args : List String}
    (hargs : readArguments args = .ok inv) :
    ∃ result,
      Concludes env inv result ∧
      (∀ other, Concludes env inv other → other = result) ∧
      (∀ f, result = .error f → f.Coded) ∧
      run env args = .of (outputMode env inv) result ∧
      ∀ env' args' inv',
        readArguments args' = .ok inv' → SameRequest env env' inv inv' →
          run env' args' = .of (outputMode env' inv') result := by
  obtain ⟨result, hresult⟩ := exists_concludes env inv
  have heq := hresult.conclusion_eq
  refine ⟨result, hresult, fun other hother =>
    hother.conclusion_eq.symm.trans heq, fun f hf => (hf ▸ hresult).coded,
    heq ▸ run_eq hargs, fun env' args' inv' hargs' hsame => ?_⟩
  rw [run_eq hargs', hsame.conclusion_eq, heq]

theorem readArguments_of_front
    {args rest : List String} {front : Given} {name : String}
    {own : List String}
    (hfront : readSide commonArity true none .empty args = .ok (front, rest))
    (hname : front.positionals = [name])
    (hown : subcommandOptions.lookup name = some own) :
    readArguments args = readBehind front name own rest := by
  rw [readArguments, hfront, Strict.ok_bind]
  simp only [hname, hown]

/-- A world without files. -/
def bareEnvironment : Environment :=
  ⟨fun _ => .missing, .empty, none, none, false⟩

/-- A command line with an option that does not validate. -/
def noGroups (json : Bool) : Invocation :=
  ⟨none, json, none, "case.json", .communities none (some 0)⟩

theorem readArguments_noGroups :
    readArguments ["communities", "case.json", "--max", "0"] =
        .ok (noGroups false) ∧
      readArguments ["--json", "communities", "case.json", "--max", "0"] =
        .ok (noGroups true) := by
  have hfront : readSide commonArity true none .empty
        ["communities", "case.json", "--max", "0"] =
      .ok (⟨[], ["communities"]⟩, ["case.json", "--max", "0"]) := rfl
  have hfront' : readSide commonArity true none .empty
        ["--json", "communities", "case.json", "--max", "0"] =
      .ok (⟨[("json", "")], ["communities"]⟩, ["case.json", "--max", "0"]) := by
    decide +kernel
  have hbehind : readSide (arityBehind ["min-size", "max"]) false none .empty
        ["case.json", "--max", "0"] =
      .ok (⟨[("max", "0")], ["case.json"]⟩, []) := by
    decide +kernel
  rw [readArguments_of_front hfront rfl rfl,
    readArguments_of_front hfront' rfl rfl, readBehind, readBehind, hbehind]
  exact ⟨rfl, rfl⟩

theorem run_concludes_noGroups :
    run bareEnvironment ["communities", "case.json", "--max", "0"] =
        ⟨1, "",
          "error[E3001]: invalid config: community.max_communities must be at least 1\n" ++
          "  suggestion: Fix the value in the casenet config file and retry.\n"⟩ ∧
      run bareEnvironment ["--json", "communities", "case.json", "--max", "0"] =
        ⟨1, "", noticeText .json
          { message :=
              "invalid config: community.max_communities must be at least 1"
            suggestion :=
              some "Fix the value in the casenet config file and retry."
            code := some "E3001" }⟩ := by
  obtain ⟨hargs, hargs'⟩ := readArguments_noGroups
  obtain ⟨result, -, hunique, -, hrun, hsame⟩ :=
    @run_concludes bareEnvironment _ _ hargs
  have hconcludes : Concludes bareEnvironment (noGroups false)
      (.error (.ofFault (.invalidConfig ConfigFlaw.maxCommunities.text))) := by
    have hvalid : (Config.default : Config Float).flaw? = none := by decide
    exact .invalidOption (.default rfl) hvalid rfl
  obtain rfl := hunique _ hconcludes
  have hnotice :
      (Failure.ofFault (.invalidConfig ConfigFlaw.maxCommunities.text)).notice =
        { message :=
            "invalid config: community.max_communities must be at least 1"
          suggestion :=
            some "Fix the value in the casenet config file and retry."
          code := some "E3001" } := by
    decide
  refine ⟨hrun.trans ?_,
    (hsame bareEnvironment _ _ hargs' ⟨rfl, rfl, rfl, rfl, rfl, rfl⟩).trans ?_⟩
  · decide +kernel
  · rw [Outcome.of, hnotice]
    rfl

end LinkAnalysis.Command
