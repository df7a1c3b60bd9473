import LinkAnalysis.Score

/-!
# Settings

A setting is what a configuration document says at one place, whatever its
notation: a whole number, a decimal, a table of named settings or a list of
settings.  Everything else is of no use to a configuration and is told apart
from the rest, but not from one another.
-/

namespace LinkAnalysis

/-- What a configuration document says at one place. -/
inductive Setting where
  | integer (value : Int)
  | decimal (value : Float)
  | list (items : List Setting)
  | table (fields : List (String × Setting))
  | other

namespace Setting

def count? : Setting → Option Nat
  | integer n => if 0 ≤ n ∧ n < wordSize then some n.toNat else none
  | _ => none

def score? : Setting → Option Float
  | integer n => some (Float.ofInt n)
  | decimal x => some x
  | _ => none

/-- One field of a section.  In a table it is found by its name, in a list by
its position; where it is left out it keeps its default. -/
def field {β : Type} (read : Setting → Option β) (name : String)
    (position : Nat) (default : β) : Setting → Option β
  | table fields =>
    match fields.lookup name with
    | some s => read s
    | none => some default
  | list items =>
    match items[position]? with
    | some s => read s
    | none => some default
  | _ => none

def fitsSection (size : Nat) : Setting → Bool
  | list items => decide (items.length ≤ size)
  | _ => true

end Setting

end LinkAnalysis
