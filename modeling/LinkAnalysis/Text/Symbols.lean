import LinkAnalysis.Text.CaseTable

/-!
# Symbols and lower case

A text that comes as bytes is read one symbol at a time.  A symbol is a
character, or nothing for a byte that belongs to no UTF-8 sequence: such a byte
is harmless where nobody looks at it, and must not vanish where somebody does.

The lower case of a text is made letter by letter as the Unicode standard has
it.  One letter depends on its place: the Greek capital sigma ends a word in
another form than within it.
-/

namespace LinkAnalysis.Text

/-- A character, or nothing for a byte that is no part of one. -/
abbrev Symbol := Option Char

def symbolsOfString (text : String) : List Symbol := text.toList.map some

/-- The symbols of the bytes from position `i` on, after those already read,
latest first. -/
def symbolsFrom (bytes : ByteArray) (i : Nat)
    (read : List Symbol) : List Symbol :=
  if i < bytes.size then
    match bytes.utf8DecodeChar? i with
    | some c => symbolsFrom bytes (i + c.utf8Size) (some c :: read)
    | none => symbolsFrom bytes (i + 1) (none :: read)
  else read.reverse
termination_by bytes.size - i
decreasing_by
  · have := c.utf8Size_pos; omega
  · omega

def symbolsOfBytes (bytes : ByteArray) : List Symbol := symbolsFrom bytes 0 []

def inRanges (ranges : List (Nat × Nat)) (n : Nat) : Bool :=
  ranges.any fun r => decide (r.1 ≤ n ∧ n ≤ r.2)

def lowerLetter (c : Char) : List Char :=
  if c.toNat < 0x80 then [c.toLower]
  else if c = '\u0130' then ['i', '\u0307']
  else
    match caseRuns.find? fun r =>
      decide (r.first ≤ c.toNat ∧ c.toNat ≤ r.last ∧
        (c.toNat - r.first) % r.step = 0) with
    | some r => [Char.ofNat (c.toNat + r.up - r.down)]
    | none => [c]

def casedNext (text : List Char) : Bool :=
  match text.find? fun c => !inRanges ignoredRanges c.toNat with
  | some c => inRanges casedRanges c.toNat
  | none => false

def lowerFrom (before : List Char) : List Char → List Char
  | [] => []
  | c :: rest =>
    let here :=
      if c = '\u03A3' then
        (if casedNext before && !casedNext rest then ['\u03C2'] else ['\u03C3'])
      else lowerLetter c
    here ++ lowerFrom (c :: before) rest

def lowercase (text : String) : List Char := lowerFrom [] text.toList

end LinkAnalysis.Text
