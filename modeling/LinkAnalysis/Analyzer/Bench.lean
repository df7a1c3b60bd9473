import LinkAnalysis.Report.Analysis

/-!
# Analyzers and benches

An analyzer is a configuration together with a token.  It keeps nothing of the
snapshots that it analyses.  Several analyzers may share a token, and are then
cancelled together.

A bench holds any number of analyzers over one registry of tokens.  Analyzers
are made, copied and given tokens, tokens are cancelled, and questions are
asked, which changes nothing.
-/

namespace LinkAnalysis

structure Analyzer (α : Type) where
  config : Config α
  token : Token
  deriving DecidableEq, Repr

namespace Analyzer

variable {α : Type} [Score α]

def create (r : Registry) (config : Config α) :
    Except Fault (Analyzer α × Registry) :=
  match config.validate with
  | .ok () =>
    let (token, r) := r.fresh
    .ok (⟨config, token⟩, r)
  | .error fault => .error fault

def listeningTo (a : Analyzer α) (token : Token) : Analyzer α :=
  { a with token := token }

def answer (a : Analyzer α) (r : Registry) (q : Query) (s : Snapshot) :
    Except Fault (Report α) :=
  q.answer a.config (r.signal a.token) s

end Analyzer

structure Bench (α : Type) where
  registry : Registry
  analyzers : List (Analyzer α)
  deriving DecidableEq, Repr

inductive Action (α : Type) where
  | create (config : Config α)
  | replace (i : Nat) (config : Config α)
  | copy (i : Nat)
  | renew (i : Nat)
  /-- Give the first analyzer the token of the second. -/
  | share (i j : Nat)
  | cancel (i : Nat)
  | ask (i : Nat) (q : Query) (s : Snapshot)

namespace Bench

variable {α : Type} [Score α]

def start : Bench α :=
  let (token, r) := Registry.empty.fresh
  ⟨r, [⟨Config.default, token⟩]⟩

def signalOf (b : Bench α) (a : Analyzer α) : Signal :=
  b.registry.signal a.token

def polled (b : Bench α) : List Bool :=
  b.analyzers.map fun a => b.signalOf a == .live

def create (b : Bench α) (config : Config α) : Except Fault (Bench α) :=
  (Analyzer.create b.registry config).map fun (a, r) => ⟨r, b.analyzers ++ [a]⟩

def replace (b : Bench α) (i : Nat) (config : Config α) :
    Except Fault (Bench α) :=
  (Analyzer.create b.registry config).map fun (a, r) => ⟨r, b.analyzers.set i a⟩

def copy (b : Bench α) (i : Nat) : Bench α :=
  match b.analyzers[i]? with
  | some a => { b with analyzers := b.analyzers ++ [a] }
  | none => b

def renew (b : Bench α) (i : Nat) : Bench α :=
  match b.analyzers[i]? with
  | some a =>
    let (token, r) := b.registry.fresh
    ⟨r, b.analyzers.set i (a.listeningTo token)⟩
  | none => b

def share (b : Bench α) (i j : Nat) : Bench α :=
  match b.analyzers[i]?, b.analyzers[j]? with
  | some a, some other =>
    { b with analyzers := b.analyzers.set i (a.listeningTo other.token) }
  | _, _ => b

def cancel (b : Bench α) (i : Nat) : Bench α :=
  match b.analyzers[i]? with
  | some a => { b with registry := b.registry.cancel a.token }
  | none => b

/-- Do something at a bench.  What fails, and what names an analyzer that does
not exist, changes nothing. -/
def act (b : Bench α) : Action α → Bench α
  | .create config =>
    match b.create config with
    | .ok b' => b'
    | .error _ => b
  | .replace i config =>
    match b.replace i config with
    | .ok b' => b'
    | .error _ => b
  | .copy i => b.copy i
  | .renew i => b.renew i
  | .share i j => b.share i j
  | .cancel i => b.cancel i
  | .ask _ _ _ => b

end Bench

end LinkAnalysis
