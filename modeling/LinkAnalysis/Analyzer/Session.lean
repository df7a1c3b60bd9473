import LinkAnalysis.Analyzer.Bench
import LinkAnalysis.Snapshot.Basic

/-!
# Sessions

In a session one snapshot is edited and analysed step by step, by one of the
analyzers at a bench.  A step that fails changes nothing.
-/

namespace LinkAnalysis

structure Session (α : Type) where
  bench : Bench α
  current : Nat
  snapshot : Snapshot

inductive Step (α : Type) where
  | configure (config : Config α)
  | fork
  | use (i : Nat)
  | cancel
  | renew
  | load (snapshot : Snapshot)
  | extend (ids : List String) (pairs : List (String × String))
  | prune (ids : List String) (pairs : List (String × String))
  | ask (q : Query)

structure Inventory where
  nodes : Nat
  links : Nat
  storedEdges : Nat
  diagnostics : Diagnostics
  fingerprint : String
  deriving DecidableEq, Repr

def Snapshot.inventory (s : Snapshot) : Inventory :=
  let net := Network.ofSnapshot s
  ⟨s.nodes.length, net.linkCount, s.edges.length, net.diagnostics,
    net.fingerprint⟩

inductive Reply (α : Type) where
  | configured (config : Config α)
  | forked (i : Nat)
  | inUse (cancelled : Bool)
  | polled (live : List Bool)
  | inventory (i : Inventory)
  | report (r : Report α)

namespace Session

variable {α : Type} [Score α]

def start : Session α := ⟨Bench.start, 0, Snapshot.empty⟩

def analyzer (s : Session α) : Analyzer α :=
  s.bench.analyzers.getD s.current ⟨Config.default, ⟨0⟩⟩

def withBench (s : Session α) (b : Bench α) : Session α := { s with bench := b }

def withSnapshot (s : Session α) (snapshot : Snapshot) : Session α × Reply α :=
  ({ s with snapshot := snapshot }, .inventory snapshot.inventory)

def step (s : Session α) : Step α → Except Fault (Session α × Reply α)
  | .configure config =>
    (s.bench.replace s.current config).map fun b =>
      (s.withBench b, .configured config)
  | .fork =>
    let i := s.bench.analyzers.length
    .ok ({ s with bench := s.bench.copy s.current, current := i }, .forked i)
  | .use i =>
    let s := if i < s.bench.analyzers.length then { s with current := i } else s
    .ok (s, .inUse (s.bench.registry.isCancelled s.analyzer.token))
  | .cancel =>
    let s := s.withBench (s.bench.cancel s.current)
    .ok (s, .polled s.bench.polled)
  | .renew =>
    let s := s.withBench (s.bench.renew s.current)
    .ok (s, .inUse (s.bench.registry.isCancelled s.analyzer.token))
  | .load snapshot => .ok (s.withSnapshot snapshot)
  | .extend ids pairs => (s.snapshot.extend ids pairs).map s.withSnapshot
  | .prune ids pairs => .ok (s.withSnapshot (s.snapshot.prune ids pairs))
  | .ask q =>
    (s.analyzer.answer s.bench.registry q s.snapshot).map fun r =>
      (s, .report r)

/-- Take a step, or stay where it fails. -/
def stepOrStay (s : Session α) (step : Step α) :
    Session α × Except Fault (Reply α) :=
  match s.step step with
  | .ok (next, reply) => (next, .ok reply)
  | .error fault => (s, .error fault)

end Session

end LinkAnalysis
