import LinkAnalysis.Json.Draft
import Mathlib.Tactic

/-!
# The grammar of JSON

What a JSON text means is a tree.  The grammar has two layers: every token has
its spellings, and a tree has a list of tokens, between which blanks may stand.
A string is spelled unit by unit: a unit is a character that stands for itself
or an escape, and a character beyond the basic plane may be written as two
escaped units.  A text that is read from bytes may hold a byte that belongs to
no character; inside a string such a byte is a unit, and elsewhere it has no
place.
-/

namespace LinkAnalysis.Json

open Text (Symbol)

/-- A JSON value.  A string or a name has no content where its units are no
text, as a lone half of a surrogate pair. -/
inductive Tree where
  | null
  | flag (value : Bool)
  | number (numeral : String)
  | text (content : Option String)
  | list (items : List Tree)
  | record (fields : List (Option String × Tree))

/-! ## Spellings of tokens -/

def Digits (l : List Char) : Prop := l ≠ [] ∧ ∀ c ∈ l, c.isDigit = true

instance (l : List Char) : Decidable (Digits l) :=
  @instDecidableAnd _ _ inferInstance (List.decidableBAll _ l)

/-- A number: an optional sign, a whole part without leading zeros, and
optionally a fraction and a power of ten. -/
inductive Numeral : List Char → Prop
  | intro {sign whole fraction power : List Char}
      (hsign : sign = [] ∨ sign = ['-'])
      (hwhole : whole = ['0'] ∨ Digits whole ∧ whole.head? ≠ some '0')
      (hfraction : fraction = [] ∨
        ∃ digits, Digits digits ∧ fraction = '.' :: digits)
      (hpower : power = [] ∨ ∃ mark ∈ ['e', 'E'], ∃ sign ∈ [[], ['+'], ['-']],
        ∃ digits, Digits digits ∧ power = mark :: (sign ++ digits)) :
      Numeral (sign ++ whole ++ fraction ++ power)

def shortEscapes : List (Char × Nat) :=
  [('"', 0x22), ('\\', 0x5C), ('/', 0x2F), ('b', 0x08), ('f', 0x0C),
    ('n', 0x0A), ('r', 0x0D), ('t', 0x09)]

def hexDigits : List (Char × Nat) :=
  [('0', 0), ('1', 1), ('2', 2), ('3', 3), ('4', 4), ('5', 5), ('6', 6),
    ('7', 7), ('8', 8), ('9', 9), ('a', 10), ('b', 11), ('c', 12), ('d', 13),
    ('e', 14), ('f', 15), ('A', 10), ('B', 11), ('C', 12), ('D', 13),
    ('E', 14), ('F', 15)]

/-- The spellings of one unit of a string. -/
inductive UnitSpelling : Nat → List Char → Prop
  | plain {c : Char} (hcontrol : 0x20 ≤ c.toNat) (hquote : c ≠ '"')
      (hescape : c ≠ '\\') : UnitSpelling c.toNat [c]
  | short {c : Char} {unit : Nat} (hmem : (c, unit) ∈ shortEscapes) :
      UnitSpelling unit ['\\', c]
  | hex {c₁ c₂ c₃ c₄ : Char} {d₁ d₂ d₃ d₄ : Nat} (hfirst : (c₁, d₁) ∈ hexDigits)
      (hsecond : (c₂, d₂) ∈ hexDigits) (hthird : (c₃, d₃) ∈ hexDigits)
      (hfourth : (c₄, d₄) ∈ hexDigits) :
      UnitSpelling (((d₁ * 16 + d₂) * 16 + d₃) * 16 + d₄) ['\\', 'u', c₁,
          c₂, c₃, c₄]

inductive UnitSpellings : List Nat → List Char → Prop
  | nil : UnitSpellings [] []
  | cons {unit : Nat} {units : List Nat} {l more : List Char}
      (hunit : UnitSpelling unit l) (hmore : UnitSpellings units more) :
      UnitSpellings (unit :: units) (l ++ more)

/-- The units that make up these characters: each character is one unit, or two
if it lies beyond the basic plane. -/
inductive Encodes : List Char → List Nat → Prop
  | nil : Encodes [] []
  | single (c : Char) {chars : List Char} {units : List Nat}
      (hholds : Encodes chars units) : Encodes (c :: chars) (c.toNat :: units)
  | pair (c : Char) {chars : List Char} {units : List Nat}
      (hplane : 0x10000 ≤ c.toNat) (hholds : Encodes chars units) :
      Encodes (c :: chars) ((0xD800 + (c.toNat - 0x10000) / 0x400) ::
          (0xDC00 + (c.toNat - 0x10000) % 0x400) :: units)

/-- The spellings of a token. -/
inductive Lexeme : Token → List Char → Prop
  | openRecord : Lexeme .openRecord ['\x7b']
  | closeRecord : Lexeme .closeRecord ['\x7d']
  | openList : Lexeme .openList ['[']
  | closeList : Lexeme .closeList [']']
  | comma : Lexeme .comma [',']
  | colon : Lexeme .colon [':']
  | null : Lexeme .null ['n', 'u', 'l', 'l']
  | yes : Lexeme (.flag true) ['t', 'r', 'u', 'e']
  | no : Lexeme (.flag false) ['f', 'a', 'l', 's', 'e']
  | number {l : List Char} (hnumeral : Numeral l) :
      Lexeme (.number (String.ofList l)) l
  | text {content : String} {units : List Nat} {l : List Char}
      (hencodes : Encodes content.toList units)
      (hunits : UnitSpellings units l) :
      Lexeme (.text (some content)) ('"' :: (l ++ ['"']))
  | noText {units : List Nat} {l : List Char}
      (hencodes : ∀ chars, ¬ Encodes chars units)
      (hunits : UnitSpellings units l) :
      Lexeme (.text none) ('"' :: (l ++ ['"']))

def Blanks (l : List Char) : Prop := ∀ c ∈ l, c ∈ [' ', '\t', '\n', '\r']

instance (l : List Char) : Decidable (Blanks l) := List.decidableBAll _ l

/-- The spellings of a list of tokens: lexemes with blanks before, between and
behind them. -/
inductive Spelled : List Token → List Char → Prop
  | nil {blanks : List Char} (hblanks : Blanks blanks) : Spelled [] blanks
  | cons {blanks lexeme rest : List Char} {token : Token} {tokens : List Token}
      (hblanks : Blanks blanks) (hlexeme : Lexeme token lexeme)
      (hrest : Spelled tokens rest) :
      Spelled (token :: tokens) (blanks ++ (lexeme ++ rest))

/-! ## Inscriptions of tokens -/

/-- The symbols of the units of a string. -/
inductive UnitInscriptions : List Nat → List Symbol → Prop
  | nil : UnitInscriptions [] []
  | cons {unit : Nat} {units : List Nat} {l : List Char} {more : List Symbol}
      (hunit : UnitSpelling unit l) (hmore : UnitInscriptions units more) :
      UnitInscriptions (unit :: units) (l.map some ++ more)
  | unreadable {units : List Nat} {more : List Symbol}
      (hmore : UnitInscriptions units more) :
      UnitInscriptions (unreadable :: units) (none :: more)

/-- The symbols of a token. -/
inductive Inscription : Token → List Symbol → Prop
  | lexeme {token : Token} {l : List Char} (hlexeme : Lexeme token l) :
      Inscription token (l.map some)
  | text {content : String} {units : List Nat} {l : List Symbol}
      (hencodes : Encodes content.toList units)
      (hunits : UnitInscriptions units l) :
      Inscription (.text (some content)) (some '"' :: (l ++ [some '"']))
  | noText {units : List Nat} {l : List Symbol}
      (hencodes : ∀ chars, ¬ Encodes chars units)
      (hunits : UnitInscriptions units l) :
      Inscription (.text none) (some '"' :: (l ++ [some '"']))

/-- The symbols of a list of tokens, with blanks before, between and behind
them. -/
inductive Inscribed : List Token → List Symbol → Prop
  | nil {blanks : List Char} (hblanks : Blanks blanks) :
      Inscribed [] (blanks.map some)
  | cons {blanks : List Char} {inscription rest : List Symbol} {token : Token}
      {tokens : List Token} (hblanks : Blanks blanks)
      (htoken : Inscription token inscription) (hrest : Inscribed tokens rest) :
      Inscribed (token :: tokens) (blanks.map some ++ (inscription ++ rest))

theorem Spelled.inscribed
    {tokens : List Token} {l : List Char}
    (hspelled : Spelled tokens l) :
    Inscribed tokens (l.map some) := by
  induction hspelled with
  | nil hblanks => exact .nil hblanks
  | cons hblanks hlexeme _ ih =>
      rw [List.map_append, List.map_append]
      exact .cons hblanks (.lexeme hlexeme) ih

/-! ## Tokens of trees -/

mutual

def Tree.tokens : Tree → List Token
  | .null => [.null]
  | .flag value => [.flag value]
  | .number numeral => [.number numeral]
  | .text content => [.text content]
  | .list [] => [.openList, .closeList]
  | .list (item :: more) => .openList :: (item.tokens ++ itemTokens more)
  | .record [] => [.openRecord, .closeRecord]
  | .record ((name, value) :: more) =>
    .openRecord :: .text name :: .colon :: (value.tokens ++ fieldTokens more)

def itemTokens : List Tree → List Token
  | [] => [.closeList]
  | item :: more => .comma :: (item.tokens ++ itemTokens more)

def fieldTokens : List (Option String × Tree) → List Token
  | [] => [.closeRecord]
  | (name, value) :: more =>
    .comma :: .text name :: .colon :: (value.tokens ++ fieldTokens more)

end

/-- A text is JSON and means this tree. -/
def Tree.Spells (tree : Tree) (text : String) : Prop :=
  Spelled tree.tokens text.toList

/-- A text read from bytes is JSON and means this tree. -/
def Tree.Inscribes (tree : Tree) (text : List Symbol) : Prop :=
  Inscribed tree.tokens text

theorem Tree.Spells.inscribes
    {tree : Tree} {text : String}
    (hspells : tree.Spells text) :
    tree.Inscribes (Text.symbolsOfString text) :=
  Spelled.inscribed hspells

/-! ## Texts of characters -/

theorem map_some_inj {l k : List Char} : l.map some = k.map some ↔ l = k :=
  List.map_inj_right fun _ _ => Option.some_inj.mp

theorem UnitInscriptions.spellings
    {units : List Nat} {l : List Char}
    (hunits : UnitInscriptions units (l.map some)) :
    UnitSpellings units l := by
  generalize hm : l.map some = m at hunits
  induction hunits generalizing l with
  | nil => exact List.map_eq_nil_iff.mp hm ▸ .nil
  | cons hunit _ ih =>
      obtain ⟨k, more, rfl, hk, hmore⟩ := List.map_eq_append_iff.mp hm
      rw [map_some_inj] at hk
      exact .cons (hk ▸ hunit) (ih hmore)
  | unreadable =>
      obtain ⟨c, more, -, hc, -⟩ := List.map_eq_cons_iff.mp hm
      exact nomatch hc

theorem exists_quoted
    {l : List Char} {m : List Symbol}
    (hquoted : some '"' :: (m ++ [some '"']) = l.map some) :
    ∃ k : List Char, m = k.map some ∧ l = '"' :: (k ++ ['"']) := by
  obtain ⟨c, rest, rfl, hc, hrest⟩ := List.map_eq_cons_iff.mp hquoted.symm
  obtain ⟨k, last, rfl, hk, hlast⟩ := List.map_eq_append_iff.mp hrest
  obtain rfl : last = ['"'] := map_some_inj.mp hlast
  exact ⟨k, hk.symm, by rw [Option.some_inj.mp hc]⟩

theorem Inscription.exists_lexeme
    {token : Token} {l : List Char}
    (hinscription : Inscription token (l.map some)) :
    Lexeme token l := by
  generalize hm : l.map some = m at hinscription
  cases hinscription with
  | lexeme hlexeme => exact map_some_inj.mp hm ▸ hlexeme
  | text hencodes hunits =>
      obtain ⟨k, rfl, rfl⟩ := exists_quoted hm.symm
      exact .text hencodes hunits.spellings
  | noText hencodes hunits =>
      obtain ⟨k, rfl, rfl⟩ := exists_quoted hm.symm
      exact .noText hencodes hunits.spellings

theorem Inscribed.spelled
    {tokens : List Token} {l : List Char}
    (hinscribed : Inscribed tokens (l.map some)) :
    Spelled tokens l := by
  generalize hm : l.map some = m at hinscribed
  induction hinscribed generalizing l with
  | nil hblanks => exact map_some_inj.mp hm ▸ .nil hblanks
  | cons hblanks htoken _ ih =>
      obtain ⟨blanks, rest, rfl, hfirst, hrest⟩ := List.map_eq_append_iff.mp hm
      obtain ⟨lexeme, more, rfl, rfl, hmore⟩ := List.map_eq_append_iff.mp hrest
      rw [map_some_inj] at hfirst
      exact .cons (hfirst ▸ hblanks) htoken.exists_lexeme (ih hmore)

/-- A text of characters is spelled as it is inscribed. -/
theorem inscribes_symbolsOfString {tree : Tree} {text : String} :
    tree.Inscribes (Text.symbolsOfString text) ↔ tree.Spells text :=
  ⟨Inscribed.spelled, Tree.Spells.inscribes⟩

end LinkAnalysis.Json
