import LinkAnalysis.Command.Layout
import LinkAnalysis.Config.Basic
import LinkAnalysis.Decimal.Reading
import LinkAnalysis.Report.Analysis

/-!
# Command lines

A command line names a subcommand and a snapshot.  Some options may stand before
the subcommand as well as behind it, where those behind it win; the others
belong to their subcommand.  A value stands behind its option or is joined to it
by an equals sign; only a joined value may start with a dash.  Two dashes end
the options.  An option may be given once on each side of the subcommand.
-/

namespace LinkAnalysis.Command

inductive Usage where
  | help
  | wrong
  deriving DecidableEq, Repr

inductive Arity where
  | flag
  | value
  deriving DecidableEq, Repr

structure Given where
  options : List (String × String)
  /-- The positional arguments, latest first. -/
  positionals : List String
  deriving DecidableEq, Repr

namespace Given

def empty : Given := ⟨[], []⟩

def addOption (g : Given) (name value : String) : Except Usage Given :=
  if (g.options.lookup name).isSome then .error .wrong
  else .ok { g with options := (name, value) :: g.options }

def addPositional (g : Given) (arg : String) : Given :=
  { g with positionals := arg :: g.positionals }

def option? (g : Given) (name : String) : Option String := g.options.lookup name

end Given

def isDashed (arg : String) : Bool := arg.startsWith "-" && arg != "-"

def splitJoined (body : List Char) : String × Option String :=
  match body.dropWhile (· != '=') with
  | [] => (String.ofList body, none)
  | _ :: value =>
    (String.ofList (body.takeWhile (· != '=')), some (String.ofList value))

inductive Shape where
  | optionsEnd
  | named (name : String) (joined : Option String)
  | letters (first : Char)
  | positional
  deriving DecidableEq, Repr

def shapeOf (arg : String) : Shape :=
  match arg.toList with
  | ['-', '-'] => .optionsEnd
  | '-' :: '-' :: body =>
    let (name, joined) := splitJoined body
    .named name joined
  | '-' :: letter :: _ => .letters letter
  | _ => .positional

/-- Read one side of a command line, where perhaps the value of an option is
due.  In front of the subcommand the first positional argument ends it, and what
follows is left over. -/
def readSide (arity : String → Option Arity) (front : Bool) :
    Option String → Given → List String → Except Usage (Given × List String)
  | none, given, [] => .ok (given, [])
  | some _, _, [] => .error .wrong
  | some name, given, value :: rest =>
    if isDashed value then .error .wrong
    else
      (given.addOption name value).bind fun given =>
        readSide arity front none given rest
  | none, given, arg :: rest =>
    match shapeOf arg with
    | .optionsEnd =>
      if front then .error .wrong
      else
        .ok ({ given with positionals := rest.reverse ++ given.positionals },
          [])
    | .letters letter => .error (if letter = 'h' then .help else .wrong)
    | .positional =>
      if front then .ok (given.addPositional arg, rest)
      else readSide arity front none (given.addPositional arg) rest
    | .named name joined =>
      match arity name, joined with
      | some .flag, none =>
        (given.addOption name "").bind fun given =>
          readSide arity front none given rest
      | some .value, some value =>
        (given.addOption name value).bind fun given =>
          readSide arity front none given rest
      | some .value, none => readSide arity front (some name) given rest
      | _, _ =>
        .error (if name = "help" && joined.isNone then .help else .wrong)

def commonArity (name : String) : Option Arity :=
  if name = "format" ∨ name = "config" then some .value
  else if name = "json" then some .flag
  else none

inductive Subcommand where
  | stats
  | components
  | betweenness (top : Option Nat)
  | centrality (top : Option Nat)
  | communities (minSize maxCommunities : Option Nat)
  | brokers (threshold : Option Float)
  | flows
  | paths (source target : String) (maxDepth maxPaths : Option Nat)
  | shortest (source target : String)
  deriving Repr

structure Invocation where
  format : Option Mode
  json : Bool
  config : Option String
  snapshot : String
  subcommand : Subcommand
  deriving Repr

/-- The names of all subcommands, each with its own options, all of which have
values. -/
def subcommandOptions : List (String × List String) :=
  [("stats", []), ("components", []), ("betweenness", ["top"]),
    ("centrality", ["top"]), ("communities", ["min-size", "max"]),
    ("brokers", ["threshold"]), ("flows", []),
    ("paths", ["max-depth", "max-paths"]), ("shortest", [])]

def arityBehind (own : List String) (name : String) : Option Arity :=
  if own.contains name then some .value else commonArity name

def readOption {β : Type} (read : String → Option β) (value : Option String) :
    Except Usage (Option β) :=
  match value with
  | none => .ok none
  | some text =>
    match read text with
    | some b => .ok (some b)
    | none => .error .wrong

def readPath (text : String) : Option String :=
  if text = "" then none else some text

def readSubcommand (name : String) (given : Given) :
    Except Usage (String × Subcommand) := do
  let count (option : String) :=
    readOption Decimal.count? (given.option? option)
  match name, given.positionals.reverse with
  | "stats", [snapshot] => return (snapshot, .stats)
  | "components", [snapshot] => return (snapshot, .components)
  | "betweenness", [snapshot] => return (snapshot, .betweenness (← count "top"))
  | "centrality", [snapshot] => return (snapshot, .centrality (← count "top"))
  | "communities", [snapshot] =>
    return (snapshot, .communities (← count "min-size") (← count "max"))
  | "brokers", [snapshot] =>
    return (snapshot, .brokers (← readOption Decimal.score?
        (given.option? "threshold")))
  | "flows", [snapshot] => return (snapshot, .flows)
  | "paths", [snapshot, source, target] =>
    return (snapshot, .paths source target (← count "max-depth")
      (← count "max-paths"))
  | "shortest", [snapshot, source, target] =>
    return (snapshot, .shortest source target)
  | _, _ => .error .wrong

def readBehind (front : Given) (name : String) (own : List String)
    (rest : List String) : Except Usage Invocation := do
  let (behind, _) ← readSide (arityBehind own) false none .empty rest
  let format ← readOption Mode.ofName? (front.option? "format")
  let formatBehind ← readOption Mode.ofName? (behind.option? "format")
  let config ← readOption readPath (front.option? "config")
  let configBehind ← readOption readPath (behind.option? "config")
  let (snapshot, subcommand) ← readSubcommand name behind
  if snapshot = "" then .error .wrong
  return {
    format := formatBehind.or format
    json := (front.option? "json").isSome || (behind.option? "json").isSome
    config := configBehind.or config
    snapshot := snapshot
    subcommand := subcommand }

def readArguments (args : List String) : Except Usage Invocation := do
  let (front, rest) ← readSide commonArity true none .empty args
  match front.positionals with
  | [name] =>
    match subcommandOptions.lookup name with
    | some own => readBehind front name own rest
    | none => .error (if name = "help" then .help else .wrong)
  | _ => .error .wrong

def usageLines : List String :=
  ["Usage: casenet [OPTIONS] SUBCOMMAND SNAPSHOT [ARGUMENTS]",
    "",
    "SNAPSHOT is a JSON file, or - for the standard input.",
    "",
    "Subcommands:",
    "  stats SNAPSHOT",
    "  components SNAPSHOT",
    "  betweenness SNAPSHOT [--top N]",
    "  centrality SNAPSHOT [--top N]",
    "  communities SNAPSHOT [--min-size N] [--max N]",
    "  brokers SNAPSHOT [--threshold SCORE]",
    "  flows SNAPSHOT",
    "  paths SNAPSHOT FROM TO [--max-depth N] [--max-paths N]",
    "  shortest SNAPSHOT FROM TO",
    "",
    "Options:",
    "  --format pretty|text|json",
    "  --json",
    "  --config PATH"]

namespace Subcommand

/-- How the options of a subcommand override the configuration, if it has such
options. -/
def revision? : Subcommand → Option (Config Float → Config Float)
  | communities minSize maxCommunities => some fun c =>
    { c with community := { c.community with
        minSize := minSize.getD c.community.minSize
        maxCommunities := maxCommunities.getD c.community.maxCommunities } }
  | brokers threshold =>
    some fun c => { c with brokerThreshold := threshold.getD c.brokerThreshold }
  | paths _ _ maxDepth maxPaths => some fun c =>
    { c with paths := { c.paths with
        maxDepth := maxDepth.getD c.paths.maxDepth
        maxPaths := maxPaths.getD c.paths.maxPaths } }
  | _ => none

def query : Subcommand → Query
  | stats => .statistics
  | components => .components
  | betweenness _ => .betweenness
  | centrality _ => .centrality
  | communities _ _ => .communities
  | brokers _ => .brokers
  | flows => .flows
  | paths source target _ _ => .paths source target
  | shortest source target => .shortest source target

def top : Subcommand → Option Nat
  | betweenness n | centrality n => n
  | _ => none

end Subcommand

end LinkAnalysis.Command
