import LinkAnalysis.Analyzer.Bench
import LinkAnalysis.Command.Arguments
import LinkAnalysis.Command.Failure
import LinkAnalysis.Command.Files
import LinkAnalysis.Command.Prose
import LinkAnalysis.Config.Writing
import LinkAnalysis.Report.Document
import LinkAnalysis.Snapshot.Writing

/-!
# Running a command

A run loads the configuration, applies the options that override it, loads the
snapshot, asks one question and prints the answer.  If one of these steps fails,
it prints a notice instead.  The mode of the output decides how either is
written, and nothing more.
-/

namespace LinkAnalysis.Command

structure Environment where
  files : String → Opened
  standardInput : ByteArray
  userConfig : Option String
  format : Option String
  terminal : Bool

/-! ## Loading -/

/-- The configuration file of a run: the one that is asked for, else that of the
user if there is one. -/
def configPath? (env : Environment) (asked : Option String) : Option String :=
  asked.or (env.userConfig.filter fun path => (env.files path).isPresent)

/-- Read the configuration file at a path.  What the TOML parser says of a text
that it cannot read is left out, as is what the operating system says of a
missing path: the notice ends there with what was attempted. -/
def readConfig (env : Environment) (path : String) :
    Except Failure (Config Float) :=
  match env.files path with
  | .file content =>
    match String.fromUTF8? content with
    | none =>
      .error ⟨[.attempt ("Failed to read " ++ path),
        .system "stream did not contain valid UTF-8"]⟩
    | some text =>
      match Config.ofToml? text with
      | none => .error ⟨[.attempt ("Failed to parse " ++ path)]⟩
      | some config => .ok config
  | opened =>
    .error ⟨.attempt ("Failed to read " ++ path) ::
      opened.trouble?.toList.map .system⟩

/-- What the configuration file says, or the default if there is none. -/
def findConfig (env : Environment) (asked : Option String) :
    Except Failure (Config Float) :=
  match configPath? env asked with
  | some path => readConfig env path
  | none => .ok Config.default

def loadConfig (env : Environment) (asked : Option String) :
    Except Failure (Config Float) := do
  let config ← findConfig env asked
  config.validate.mapError .ofFault
  return config

def readSnapshot (source : String) (content : ByteArray) :
    Except Failure Snapshot :=
  (Snapshot.ofBytes content).mapError fun fault =>
    ⟨[.attempt ("Failed to load snapshot " ++ source), .fault fault]⟩

/-- Read the snapshot at a path.  A directory opens, but there is nothing to
read in it.  What the operating system says of a missing path is left out, and
so are the words of the JSON parser, for which `Json.Misread.text` has a
placeholder. -/
def loadSnapshot (env : Environment) (path : String) :
    Except Failure Snapshot :=
  if isStandardInput path then readSnapshot "from stdin" env.standardInput
  else
    match env.files path with
    | .file content => readSnapshot path content
    | .directory =>
      .error ⟨[.attempt ("Failed to load snapshot " ++ path),
        .fault (.invalidSnapshot Json.Misread.malformed.text)]⟩
    | opened =>
      .error ⟨.attempt ("Failed to open " ++ path) ::
        opened.trouble?.toList.map .system⟩

/-! ## Writing -/

def cutTo (top : Option Nat) (r : Report Float) : Report Float :=
  match top, r with
  | some n, .betweenness r =>
    .betweenness { r with nodes := r.nodes.take n, links := r.links.take n }
  | some n, .centrality r => .centrality { r with nodes := r.nodes.take n }
  | _, r => r

def outputMode (env : Environment) (inv : Invocation) : Mode :=
  Mode.resolve inv.format inv.json env.format env.terminal

def printReport (mode : Mode) (r : Report Float) : Printing Unit :=
  match mode with
  | .json => endingLine print r.toValue.toIndentedText
  | .pretty => (reportLines true r).forM (endingLine print)
  | .text => (reportLines false r).forM (endingLine print)

def printNotice (mode : Mode) (n : Notice) : Printing Unit :=
  match mode with
  | .json => endingLine complain n.toValue.toIndentedText
  | .pretty | .text => n.lines.forM (endingLine complain)

/-! ## The run -/

def present (env : Environment) (mode : Mode) (inv : Invocation)
    (a : Analyzer Float) (r : Registry) : Console Unit := do
  let snapshot ← .take (loadSnapshot env inv.snapshot)
  let report ← .take
      ((a.answer r inv.subcommand.query snapshot).mapError .ofFault)
  printReport mode (cutTo inv.subcommand.top report)

/-- A subcommand with options of its own has an analyzer of its own, which
shares the token. -/
def handle (env : Environment) (mode : Mode) (inv : Invocation)
    (a : Analyzer Float) (r : Registry) : Console Unit := do
  match inv.subcommand.revision? with
  | none => present env mode inv a r
  | some revise =>
    let (own, r) ← .take
        ((Analyzer.create r (revise a.config)).mapError .ofFault)
    present env mode inv (own.listeningTo a.token) r

def dispatch (env : Environment) (mode : Mode)
    (inv : Invocation) : Console Unit := do
  let config ← .take (loadConfig env inv.config)
  let (a, r) ← .take ((Analyzer.create .empty config).mapError .ofFault)
  handle env mode inv a r

structure Outcome where
  exit : Nat
  output : String
  errors : String
  deriving DecidableEq, Repr

def Streams.outcome (s : Streams) (exit : Nat) : Outcome :=
  ⟨exit, s.output, s.errors⟩

def carryOut (env : Environment) (inv : Invocation) : Outcome :=
  let mode := outputMode env inv
  match (dispatch env mode inv).run.run .blank with
  | (.ok (), streams) => streams.outcome 0
  | (.error f, streams) => ((printNotice mode f.notice).run streams).2.outcome 1

def run (env : Environment) (args : List String) : Outcome :=
  match readArguments args with
  | .ok inv => carryOut env inv
  | .error .help => ⟨0, endLines usageLines, ""⟩
  | .error .wrong => ⟨2, "", endLines usageLines⟩

end LinkAnalysis.Command
