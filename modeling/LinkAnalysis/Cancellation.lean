import LinkAnalysis.Fault

/-!
# Cancellation

A long analysis polls a token and gives up once the token is cancelled.  Tokens
are shared: every holder of a token sees the cancellation that any other holder
asked for.  A registry holds the state of all tokens made so far; a token is its
number in the registry.  A cancelled token stays cancelled, and no operation on
one token touches another.
-/

namespace LinkAnalysis

/-- What a computation sees when it polls its token. -/
inductive Signal where
  | live
  | cancelled
  deriving DecidableEq, Repr

namespace Signal

def check : Signal → Except Fault Unit
  | live => .ok ()
  | cancelled => .error .cancelled

end Signal

structure Token where
  number : Nat
  deriving DecidableEq, Repr

structure Registry where
  signals : List Signal
  deriving DecidableEq, Repr

namespace Registry

def empty : Registry := ⟨[]⟩

def fresh (r : Registry) : Token × Registry :=
  (⟨r.signals.length⟩, ⟨r.signals ++ [.live]⟩)

def cancel (r : Registry) (t : Token) : Registry :=
  ⟨r.signals.set t.number .cancelled⟩

def signal (r : Registry) (t : Token) : Signal := r.signals.getD t.number .live

def isCancelled (r : Registry) (t : Token) : Bool := r.signal t == .cancelled

end Registry

end LinkAnalysis
