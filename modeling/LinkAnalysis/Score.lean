/-!
# Words and score arithmetic

Counts are words of 64 bits.  Powers of two and of ten are given names here,
since all arithmetic on words and decimals is about them.

Every score of the library (betweenness, closeness, densities, path counts) is
computed by the same code over an arbitrary carrier.  A carrier offers the four
operations, an order, the embedding of counts and the distinction between finite
and non-finite values; nothing is assumed of them.  Machine numbers are one
carrier, exact rationals another, and no definition changes the order in which
it combines scores, so that both readings are readings of one computation.
-/

namespace LinkAnalysis

def twoTo (k : Nat) : Nat := Nat.pow 2 k

def tenTo (k : Nat) : Nat := Nat.pow 10 k

def wordSize : Nat := twoTo 64

class Score (α : Type) extends Add α, Sub α, Mul α, Div α, NatCast α,
  LT α, LE α where
  decidableLT : DecidableLT α
  decidableLE : DecidableLE α
  /-- Whether a value is an ordinary number: neither infinite nor the result of
  an undefined operation. -/
  isFinite : α → Bool

instance Score.instDecidableLT {α : Type} [Score α] : DecidableLT α :=
  Score.decidableLT

instance Score.instDecidableLE {α : Type} [Score α] : DecidableLE α :=
  Score.decidableLE

/-- Machine numbers.  A count fits a word, and is rounded to the nearest machine
number. -/
instance Score.instFloat : Score Float where
  natCast n := n.toUInt64.toFloat
  decidableLT := inferInstance
  decidableLE := inferInstance
  isFinite := Float.isFinite

namespace Score

variable {α : Type} [Score α]

@[inline] def count (n : Nat) : α := (n : α)

@[inline] def zero : α := count 0

@[inline] def one : α := count 1

def larger (a b : α) : α := if a < b then b else a

def distance (a b : α) : α := if a < b then b - a else a - b

def clampUnit (x : α) : α :=
  if x < zero then zero else if one < x then one else x

/-- The number of unordered pairs among the factors of a product: half of `a *
b`, where the product is taken in 64-bit words, the width of every count. -/
def halfProduct (a b : Nat) : α := count (a * b % wordSize) / count 2

end Score

end LinkAnalysis
