import LinkAnalysis.Proofs.Json.Reading
import LinkAnalysis.Proofs.Json.Writing
import Mathlib

/-!
# Inscription

At every point the state of the scanner says what the text so far is made of:
the tokens that were handed out, and the beginning of one that is not complete.
A scanner that has not given up at the end has therefore found the tokens of the
text.
-/

namespace LinkAnalysis.Json

open Text (Symbol)

/-! ## Numbers -/

namespace Phase

/-- The whole part of a number. -/
def IsWhole (l : List Char) : Prop := l = ['0'] ∨ Digits l ∧ l.head? ≠ some '0'

def IsFraction (l : List Char) : Prop :=
  l = [] ∨ ∃ digits, Digits digits ∧ l = '.' :: digits

def IsPower (l : List Char) : Prop :=
  l = [] ∨ ∃ mark ∈ ['e', 'E'], ∃ sign ∈ [[], ['+'], ['-']], ∃ digits,
    Digits digits ∧ l = mark :: (sign ++ digits)

/-- What completes a number from a phase on. -/
inductive Completes : Phase → List Char → Prop
  | minus {whole fraction power : List Char} (hwhole : IsWhole whole)
      (hfraction : IsFraction fraction) (hpower : IsPower power) :
      Completes .minus (whole ++ (fraction ++ power))
  | zero {fraction power : List Char} (hfraction : IsFraction fraction)
      (hpower : IsPower power) : Completes .zero (fraction ++ power)
  | whole {more fraction power : List Char}
      (hmore : ∀ c ∈ more, c.isDigit = true) (hfraction : IsFraction fraction)
      (hpower : IsPower power) : Completes .whole (more ++ (fraction ++ power))
  | point {digits power : List Char} (hdigits : Digits digits)
      (hpower : IsPower power) : Completes .point (digits ++ power)
  | fraction {more power : List Char} (hmore : ∀ c ∈ more, c.isDigit = true)
      (hpower : IsPower power) : Completes .fraction (more ++ power)
  | mark {sign digits : List Char} (hsign : sign ∈ [[], ['+'], ['-']])
      (hdigits : Digits digits) : Completes .mark (sign ++ digits)
  | markSign {digits : List Char} (hdigits : Digits digits) :
      Completes .markSign digits
  | power {more : List Char} (hmore : ∀ c ∈ more, c.isDigit = true) :
      Completes .power more

theorem digits_cons
    {c : Char}
    (hc : c.isDigit = true)
    {more : List Char}
    (hmore : ∀ c ∈ more, c.isDigit = true) :
    Digits (c :: more) :=
  ⟨List.cons_ne_nil _ _, List.forall_mem_cons.mpr ⟨hc, hmore⟩⟩

theorem isFraction_point {digits : List Char} (hdigits : Digits digits) :
    IsFraction ('.' :: digits) :=
  Or.inr ⟨digits, hdigits, rfl⟩

theorem isPower_mark
    {c : Char}
    (hc : c = 'e' ∨ c = 'E')
    {sign digits : List Char}
    (hsign : sign ∈ [[], ['+'], ['-']])
    (hdigits : Digits digits) :
    IsPower (c :: (sign ++ digits)) :=
  Or.inr ⟨c, by simpa using hc, sign, hsign, digits, hdigits, rfl⟩

theorem completes_nil {phase : Phase} (hfinal : phase.isFinal = true) :
    phase.Completes [] := by
  cases phase with
  | zero => exact .zero (Or.inl rfl) (Or.inl rfl)
  | whole => exact .whole (List.forall_mem_nil _) (Or.inl rfl) (Or.inl rfl)
  | fraction => exact .fraction (List.forall_mem_nil _) (Or.inl rfl)
  | power => exact .power (List.forall_mem_nil _)
  | minus | point | mark | markSign => simp [isFinal] at hfinal

/-- A step to the next phase and what completes the number from there. -/
theorem Completes.cons
    {phase later : Phase} {c : Char}
    (hnext : phase.next? c = some later)
    {l : List Char}
    (hcompletes : later.Completes l) :
    phase.Completes (c :: l) := by
  cases phase with
  | minus =>
      simp only [next?] at hnext
      split_ifs at hnext with hzero hdigit <;> obtain rfl :=
        Option.some_inj.mp hnext
      · cases hcompletes with
        | zero hfraction hpower =>
            have hwhole : IsWhole [c] := Or.inl (hzero ▸ rfl)
            exact Completes.minus hwhole hfraction hpower
      · cases hcompletes with
        | @whole more _ _ hmore hfraction hpower =>
            have hwhole : IsWhole (c :: more) :=
              Or.inr ⟨digits_cons hdigit hmore, by simpa using hzero⟩
            exact Completes.minus hwhole hfraction hpower
  | zero =>
      simp only [next?] at hnext
      split_ifs at hnext with hpoint hmark <;> obtain rfl :=
        Option.some_inj.mp hnext
      · cases hcompletes with
        | point hdigits hpower =>
            exact Completes.zero (hpoint ▸ isFraction_point hdigits) hpower
      · cases hcompletes with
        | mark hsign hdigits =>
            exact Completes.zero (Or.inl rfl) (isPower_mark hmark hsign hdigits)
  | whole =>
      simp only [next?] at hnext
      split_ifs at hnext with hdigit hpoint hmark <;> obtain rfl :=
        Option.some_inj.mp hnext
      · cases hcompletes with
        | whole hmore hfraction hpower =>
            exact Completes.whole
              (List.forall_mem_cons.mpr ⟨hdigit, hmore⟩) hfraction hpower
      · cases hcompletes with
        | point hdigits hpower =>
            exact Completes.whole (List.forall_mem_nil _)
              (hpoint ▸ isFraction_point hdigits) hpower
      · cases hcompletes with
        | mark hsign hdigits =>
            exact Completes.whole (List.forall_mem_nil _) (Or.inl rfl)
              (isPower_mark hmark hsign hdigits)
  | point =>
      simp only [next?] at hnext
      split_ifs at hnext with hdigit
      obtain rfl := Option.some_inj.mp hnext
      cases hcompletes with
      | fraction hmore hpower =>
          exact Completes.point (digits_cons hdigit hmore) hpower
  | fraction =>
      simp only [next?] at hnext
      split_ifs at hnext with hdigit hmark <;> obtain rfl :=
        Option.some_inj.mp hnext
      · cases hcompletes with
        | fraction hmore hpower =>
            exact Completes.fraction
              (List.forall_mem_cons.mpr ⟨hdigit, hmore⟩) hpower
      · cases hcompletes with
        | mark hsign hdigits =>
            exact Completes.fraction (List.forall_mem_nil _)
              (isPower_mark hmark hsign hdigits)
  | mark =>
      simp only [next?] at hnext
      split_ifs at hnext with hsign hdigit <;> obtain rfl :=
        Option.some_inj.mp hnext
      · cases hcompletes with
        | markSign hdigits =>
            have hone : [c] ∈ [[], ['+'], ['-']] := by simpa using hsign
            exact Completes.mark hone hdigits
      · cases hcompletes with
        | power hmore =>
            exact Completes.mark List.mem_cons_self (digits_cons hdigit hmore)
  | markSign =>
      simp only [next?] at hnext
      split_ifs at hnext with hdigit
      obtain rfl := Option.some_inj.mp hnext
      cases hcompletes with
      | power hmore => exact .markSign (digits_cons hdigit hmore)
  | power =>
      simp only [next?] at hnext
      split_ifs at hnext with hdigit
      obtain rfl := Option.some_inj.mp hnext
      cases hcompletes with
      | power hmore => exact .power (List.forall_mem_cons.mpr ⟨hdigit, hmore⟩)

theorem completes_of_run
    {phase last : Phase} {l : List Char}
    (hruns : phase.run l = some last)
    (hlast : last.isFinal = true) :
    phase.Completes l := by
  induction l generalizing phase with
  | nil => exact Option.some_inj.mp hruns ▸ completes_nil hlast
  | cons c l ih =>
      rw [run_cons] at hruns
      obtain ⟨later, hnext, hrun⟩ := Option.bind_eq_some_iff.mp hruns
      exact .cons hnext (ih hrun)

end Phase

/-- What is read to a phase in which a number may end is a numeral. -/
theorem numeral_of_run
    {sign body : List Char}
    (hsign : sign = [] ∨ sign = ['-'])
    {last : Phase}
    (hrun : Phase.minus.run body = some last)
    (hlast : last.isFinal = true) :
    Numeral (sign ++ body) := by
  cases Phase.completes_of_run hrun hlast with
  | minus hwhole hfraction hpower =>
      have hnumeral := Numeral.intro hsign hwhole hfraction hpower
      rwa [List.append_assoc, List.append_assoc] at hnumeral

/-! ## Strings -/

theorem mem_shortEscapes
    {c : Char} {unit : Nat}
    (hescape : escapeUnit? c = some unit) :
    (c, unit) ∈ shortEscapes := by
  unfold escapeUnit? at hescape
  split at hescape <;>
    first | (obtain rfl := Option.some_inj.mp hescape; decide) | simp at hescape

theorem mem_hexDigits
    {c : Char} {d : Nat}
    (hhex : hexDigit? c = some d) :
    (c, d) ∈ hexDigits := by
  have hall : ∀ n < 103, ∀ d ∈ hexDigit? (Char.ofNat n),
      (Char.ofNat n, d) ∈ hexDigits := by
    decide
  have hbound : c.toNat < 103 := by
    have hnat : ∀ {b : Char}, c ≤ b → c.toNat ≤ b.toNat :=
      UInt32.le_iff_toNat_le.mp
    unfold hexDigit? at hhex
    split_ifs at hhex with hdigit hlower hupper
    · exact (hnat hdigit.2).trans_lt (by decide)
    · exact (hnat hlower.2).trans_lt (by decide)
    · exact (hnat hupper.2).trans_lt (by decide)
  rw [← Char.ofNat_toNat c] at hhex ⊢
  exact hall _ hbound d hhex
/-- The value of a number in hexadecimal digits. -/
def hexValue (digits : List (Char × Nat)) : Nat :=
  digits.foldl (fun value digit => 16 * value + digit.2) 0

theorem hexValue_concat (digits : List (Char × Nat)) (digit : Char × Nat) :
    hexValue (digits ++ [digit]) = 16 * hexValue digits + digit.2 := by
  rw [hexValue, List.foldl_append]
  rfl

theorem unitSpelling_hexValue
    {digits : List (Char × Nat)}
    (hdigits : ∀ digit ∈ digits, digit ∈ hexDigits)
    (hlength : digits.length = 4) :
    UnitSpelling (hexValue digits) ('\\' :: 'u' :: digits.map Prod.fst) := by
  match digits, hlength with
  | [(c₁, d₁), (c₂, d₂), (c₃, d₃), (c₄, d₄)], _ =>
      simp only [List.forall_mem_cons] at hdigits
      obtain ⟨hfirst, hsecond, hthird, hfourth, -⟩ := hdigits
      have hvalue : hexValue [(c₁, d₁), (c₂, d₂), (c₃, d₃), (c₄, d₄)] =
          ((d₁ * 16 + d₂) * 16 + d₃) * 16 + d₄ := by
        simp only [hexValue, List.foldl_cons, List.foldl_nil]
        omega
      rw [hvalue]
      exact .hex hfirst hsecond hthird hfourth

theorem UnitInscriptions.append
    {units more : List Nat} {l rest : List Symbol}
    (hunits : UnitInscriptions units l)
    (hmore : UnitInscriptions more rest) :
    UnitInscriptions (units ++ more) (l ++ rest) := by
  induction hunits with
  | nil => exact hmore
  | cons hunit _ ih =>
      rw [List.append_assoc]
      exact .cons hunit ih
  | unreadable _ ih => exact .unreadable ih

theorem UnitInscriptions.concat
    {unit : Nat} {units : List Nat} {l : List Symbol} {k : List Char}
    (hunits : UnitInscriptions units.reverse l)
    (hunit : UnitSpelling unit k) :
    UnitInscriptions (unit :: units).reverse (l ++ k.map some) := by
  have hone := UnitInscriptions.cons hunit .nil
  rw [List.append_nil] at hone
  rw [List.reverse_cons]
  exact hunits.append hone

theorem UnitInscriptions.concat_unreadable
    {units : List Nat} {l : List Symbol}
    (hunits : UnitInscriptions units.reverse l) :
    UnitInscriptions (Json.unreadable :: units).reverse (l ++ [none]) := by
  rw [List.reverse_cons]
  exact hunits.append (.unreadable .nil)

/-- Whatever the units of a string are, the string is a token. -/
theorem inscription_stringToken
    {units : List Nat} {l : List Symbol}
    (hunits : UnitInscriptions units.reverse l) :
    Inscription (Scanner.stringToken units)
      (some '"' :: (l ++ [some '"'])) := by
  rw [Scanner.stringToken]
  cases hassemble : assemble units.reverse with
  | none =>
      exact .noText (fun chars hchars => by
        simp [assemble_eq_some_iff.mpr hchars] at hassemble) hunits
  | some chars =>
      refine .text ?_ hunits
      rw [String.toList_ofList]
      exact encodes_of_assemble hassemble

/-! ## Parts of a text -/

theorem Inscribed.blanks_append
    {blanks : List Char} {l : List Symbol} {tokens : List Token}
    (hblanks : Blanks blanks)
    (hinscribed : Inscribed tokens l) :
    Inscribed tokens (blanks.map some ++ l) := by
  have hboth : ∀ {more : List Char}, Blanks more → Blanks (blanks ++ more) :=
    fun hmore c hc => (List.mem_append.mp hc).elim (hblanks c) (hmore c)
  cases hinscribed with
  | nil hmore =>
      rw [← List.map_append]
      exact .nil (hboth hmore)
  | cons hmore htoken hrest =>
      rw [← List.append_assoc, ← List.map_append]
      exact .cons (hboth hmore) htoken hrest

theorem Inscribed.append
    {tokens more : List Token} {l rest : List Symbol}
    (hinscribed : Inscribed tokens l)
    (hmore : Inscribed more rest) :
    Inscribed (tokens ++ more) (l ++ rest) := by
  induction hinscribed with
  | nil hblanks => exact hmore.blanks_append hblanks
  | cons hblanks htoken _ ih =>
      rw [List.append_assoc, List.append_assoc]
      exact .cons hblanks htoken ih

theorem Inscribed.concat
    {token : Token} {tokens : List Token} {l k : List Symbol}
    (hinscribed : Inscribed tokens.reverse l)
    (htoken : Inscription token k) :
    Inscribed (token :: tokens).reverse (l ++ k) := by
  have hone := Inscribed.cons blanks_nil htoken (.nil blanks_nil)
  rw [List.map_nil, List.nil_append, List.append_nil] at hone
  rw [List.reverse_cons]
  exact hinscribed.append hone

theorem Inscribed.concat_blank
    {c : Char}
    (hc : isBlank c = true)
    {tokens : List Token} {l : List Symbol}
    (hinscribed : Inscribed tokens l) :
    Inscribed tokens (l ++ [some c]) := by
  have hblanks : Blanks [c] := fun d hd => by
    rw [List.mem_singleton.mp hd]
    simpa [isBlank, or_assoc] using hc
  have happend := hinscribed.append (.nil hblanks)
  rwa [List.append_nil] at happend

/-- What was read of a number that may end here is the numeral that the scanner
hands out. -/
theorem inscription_numeral
    {sign body : List Char}
    (hsign : sign = [] ∨ sign = ['-'])
    {last : Phase}
    (hrun : Phase.minus.run body = some last)
    (hlast : last.isFinal = true) :
    Inscription (Scanner.numeral (sign ++ body).reverse)
      ((sign ++ body).map some) := by
  rw [Scanner.numeral, List.reverse_reverse]
  exact .lexeme (.number (numeral_of_run hsign hrun hlast))

/-! ## The state of the scanner -/

/-- What the scanner has taken of the token that it is in the middle of. -/
inductive Pending : Mode → List Symbol → Prop
  | blank : Pending .blank []
  | word (read : List Char) {letters : List Char} {token : Token}
      (hne : letters ≠ []) (hlexeme : Lexeme token (read ++ letters)) :
      Pending (.word letters token) (read.map some)
  | number (sign body : List Char) {phase : Phase}
      (hsign : sign = [] ∨ sign = ['-'])
      (hrun : Phase.minus.run body = some phase) :
      Pending (.number phase (sign ++ body).reverse) ((sign ++ body).map some)
  | text {units : List Nat} {l : List Symbol}
      (hunits : UnitInscriptions units.reverse l) :
      Pending (.text units) (some '"' :: l)
  | escape {units : List Nat} {l : List Symbol}
      (hunits : UnitInscriptions units.reverse l) :
      Pending (.escape units) (some '"' :: (l ++ [some '\\']))
  | hex (digits : List (Char × Nat)) {units : List Nat} {l : List Symbol}
      {missing : Nat} (hunits : UnitInscriptions units.reverse l)
      (hdigits : ∀ digit ∈ digits, digit ∈ hexDigits)
      (hmissing : digits.length + missing = 4) (hpos : 0 < missing) :
      Pending (.hex units missing (hexValue digits))
        (some '"' :: (l ++ ('\\' :: 'u' :: digits.map Prod.fst).map some))

namespace Scanner

/-- Unless the scanner has given up, the text so far is what was handed out and
what it is in the middle of. -/
inductive Stands : Scanner → List Symbol → Prop
  | lost {handed : List Token} {l : List Symbol}
      (hstray : Token.stray ∈ handed) : Stands ⟨.deaf, handed⟩ l
  | found {mode : Mode} {handed : List Token} {front pending : List Symbol}
      (hfront : Inscribed handed.reverse front)
      (hpending : Pending mode pending) :
      Stands ⟨mode, handed⟩ (front ++ pending)

theorem stands_giveUp (s : Scanner) (l : List Symbol) : Stands s.giveUp l :=
  .lost List.mem_cons_self

section Steps

variable {handed : List Token} {front : List Symbol}
  (hfront : Inscribed handed.reverse front)

include hfront

theorem stands_blank : Stands ⟨.blank, handed⟩ front := by
  have hstands := Stands.found hfront .blank
  rwa [List.append_nil] at hstands

theorem stands_emit
    {mode : Mode} {token : Token} {l : List Symbol}
    (htoken : Inscription token l) :
    Stands (emit ⟨mode, handed⟩ token) (front ++ l) :=
  stands_blank (hfront.concat htoken)

theorem stands_begin (mode : Mode) (c : Char) :
    Stands (begin ⟨mode, handed⟩ c) (front ++ [some c]) := by
  have hmark : ∀ {token : Token} {d : Char}, Lexeme token [d] →
      Stands (emit ⟨mode, handed⟩ token) (front ++ [some d]) :=
    fun hlexeme => stands_emit hfront (.lexeme hlexeme)
  have hbecome : ∀ {later : Mode} {d : Char}, Pending later [some d] →
      Stands (become ⟨mode, handed⟩ later) (front ++ [some d]) :=
    fun hpending => .found hfront hpending
  unfold begin
  split_ifs with hblank
  · exact stands_blank (hfront.concat_blank hblank)
  split
  · exact hmark .openRecord
  · exact hmark .closeRecord
  · exact hmark .openList
  · exact hmark .closeList
  · exact hmark .comma
  · exact hmark .colon
  · exact hbecome (.text .nil)
  · exact hbecome (.word ['n'] (by decide) .null)
  · exact hbecome (.word ['t'] (by decide) .yes)
  · exact hbecome (.word ['f'] (by decide) .no)
  · exact hbecome (.number ['-'] [] (Or.inr rfl) rfl)
  · exact hbecome (.number [] ['0'] (Or.inl rfl) rfl)
  · next hzero =>
    split_ifs with hdigit
    · have hrun : Phase.minus.run [c] = some .whole := by
        rw [Phase.run_cons, Phase.next?, if_neg hzero, if_pos hdigit]
        rfl
      exact hbecome (.number [] [c] (Or.inl rfl) hrun)
    · exact stands_giveUp _ _

/-! ## One step of the scanner -/

theorem stands_take_word
    (read : List Char) {letters : List Char} {token : Token}
    (hne : letters ≠ [])
    (hlexeme : Lexeme token (read ++ letters))
    (c : Char) :
    Stands (take ⟨.word letters token, handed⟩ c)
      (front ++ read.map some ++ [some c]) := by
  obtain ⟨letter, letters, rfl⟩ := List.exists_cons_of_ne_nil hne
  have hread :
      read.map some ++ [some letter] = (read ++ [letter]).map some := by
    rw [List.map_append, List.map_singleton]
  simp only [take]
  split_ifs with heq hlast
  · rw [List.isEmpty_iff.mp hlast] at hlexeme
    rw [heq, List.append_assoc, hread]
    exact stands_emit hfront (.lexeme hlexeme)
  · rw [heq, List.append_assoc, hread]
    refine .found hfront (.word (read ++ [letter]) (fun hnil =>
        hlast (List.isEmpty_iff.mpr hnil)) ?_)
    rwa [List.append_assoc]
  · exact stands_giveUp _ _

theorem stands_take_number
    {sign body : List Char} {phase : Phase}
    (hsign : sign = [] ∨ sign = ['-'])
    (hrun : Phase.minus.run body = some phase)
    (c : Char) :
    Stands (take ⟨.number phase (sign ++ body).reverse, handed⟩ c)
      (front ++ (sign ++ body).map some ++ [some c]) := by
  cases hnext : phase.next? c with
  | some later =>
      simp only [take, hnext]
      have hmore : Phase.minus.run (body ++ [c]) = some later := by
        rw [Phase.run_append, hrun, Option.bind_some, Phase.run_cons, hnext]
        rfl
      have hpending := Pending.number sign (body ++ [c]) hsign hmore
      rw [← List.append_assoc, List.reverse_append, List.map_append] at hpending
      rw [List.append_assoc]
      exact .found hfront hpending
  | none =>
      simp only [take, hnext]
      split_ifs with hfinal
      · exact stands_begin
          (hfront.concat (inscription_numeral hsign hrun hfinal)) .blank c
      · exact stands_giveUp _ _

section Strings

variable {units : List Nat} {l : List Symbol}
  (hunits : UnitInscriptions units.reverse l)

include hunits

theorem stands_take_text (c : Char) :
    Stands (take ⟨.text units, handed⟩ c)
      (front ++ some '"' :: l ++ [some c]) := by
  rw [List.append_assoc, List.cons_append]
  simp only [take]
  split_ifs with hquote hescape hcontrol
  · rw [hquote]
    exact stands_emit hfront (inscription_stringToken hunits)
  · rw [hescape]
    exact .found hfront (.escape hunits)
  · exact stands_giveUp _ _
  · exact .found hfront
      (.text (hunits.concat (.plain (not_lt.mp hcontrol) hquote hescape)))

theorem stands_take_escape (c : Char) :
    Stands (take ⟨.escape units, handed⟩ c)
      (front ++ some '"' :: (l ++ [some '\\']) ++ [some c]) := by
  rw [List.append_assoc, List.cons_append, List.append_assoc]
  simp only [take]
  split_ifs with hhex
  · rw [hhex]
    exact .found hfront (.hex [] hunits (List.forall_mem_nil _) rfl (by decide))
  · cases hunit : escapeUnit? c with
    | some unit =>
        exact .found hfront
          (.text (hunits.concat (.short (mem_shortEscapes hunit))))
    | none => exact stands_giveUp _ _

theorem stands_take_hex
    {digits : List (Char × Nat)} {missing : Nat}
    (hdigits : ∀ digit ∈ digits, digit ∈ hexDigits)
    (hmissing : digits.length + missing = 4)
    (hpos : 0 < missing)
    (c : Char) :
    Stands (take ⟨.hex units missing (hexValue digits), handed⟩ c)
      (front ++ some '"' ::
        (l ++ ('\\' :: 'u' :: digits.map Prod.fst).map some) ++ [some c]) := by
  cases hdigit : hexDigit? c with
  | none =>
      simp only [take, hdigit]
      exact stands_giveUp _ _
  | some d =>
      have hmore : ∀ digit ∈ digits ++ [(c, d)], digit ∈ hexDigits :=
        fun digit hmem =>
        (List.mem_append.mp hmem).elim (hdigits digit)
          fun hmem => List.mem_singleton.mp hmem ▸ mem_hexDigits hdigit
      have hsymbols :
          ('\\' :: 'u' :: digits.map Prod.fst).map some ++ [some c] =
            ('\\' :: 'u' :: (digits ++ [(c, d)]).map Prod.fst).map some := by
        simp
      have hvalue : 16 * hexValue digits + d = hexValue (digits ++ [(c, d)]) :=
        (hexValue_concat digits (c, d)).symm
      rw [List.append_assoc, List.cons_append, List.append_assoc, hsymbols]
      simp only [take, hdigit, hvalue]
      split_ifs with hlast
      · have hlength : (digits ++ [(c, d)]).length = 4 := by
          rw [List.length_append, List.length_singleton]
          omega
        exact .found hfront
          (.text (hunits.concat (unitSpelling_hexValue hmore hlength)))
      · refine .found hfront (.hex _ hunits hmore ?_ (by omega))
        rw [List.length_append, List.length_singleton]
        omega

end Strings

end Steps

theorem Stands.take
    {s : Scanner} {l : List Symbol}
    (hstands : s.Stands l)
    (c : Char) :
    (s.take c).Stands (l ++ [some c]) := by
  cases hstands with
  | lost hstray => exact .lost hstray
  | found hfront hpending =>
      cases hpending with
      | blank =>
          rw [List.append_nil]
          exact stands_begin hfront .blank c
      | word read hne hlexeme =>
          exact stands_take_word hfront read hne hlexeme c
      | number sign body hsign hrun =>
          exact stands_take_number hfront hsign hrun c
      | text hunits => exact stands_take_text hfront hunits c
      | escape hunits => exact stands_take_escape hfront hunits c
      | hex digits hunits hdigits hmissing hpos =>
          exact stands_take_hex hfront hunits hdigits hmissing hpos c

theorem Stands.takeUnreadable
    {s : Scanner} {l : List Symbol}
    (hstands : s.Stands l) :
    s.takeUnreadable.Stands (l ++ [none]) := by
  cases hstands with
  | lost hstray => exact .lost hstray
  | found hfront hpending =>
      cases hpending with
      | text hunits =>
          rw [List.append_assoc, List.cons_append]
          exact .found hfront (.text hunits.concat_unreadable)
      | _ => exact stands_giveUp _ _

/-! ## Runs of the scanner -/

theorem Stands.step
    {s : Scanner} {l : List Symbol}
    (hstands : s.Stands l)
    (x : Symbol) :
    (s.step x).Stands (l ++ [x]) := by
  cases x with
  | some c => exact hstands.take c
  | none => exact hstands.takeUnreadable

theorem Stands.foldl_step
    {s : Scanner} {l : List Symbol}
    (hstands : s.Stands l)
    (rest : List Symbol) :
    (rest.foldl Scanner.step s).Stands (l ++ rest) := by
  induction rest generalizing s l with
  | nil => rwa [List.append_nil]
  | cons x rest ih =>
      rw [← List.singleton_append, ← List.append_assoc]
      exact ih (hstands.step x)

theorem Stands.inscribed_finish
    {s : Scanner} {l : List Symbol}
    (hstands : s.Stands l)
    (hstray : Token.stray ∉ s.finish) :
    Inscribed s.finish l := by
  cases hstands with
  | lost hstrayed => exact absurd (List.mem_reverse.mpr hstrayed) hstray
  | found hfront hpending =>
      cases hpending with
      | blank => rwa [List.append_nil]
      | @number sign body phase hsign hrun =>
          simp only [finish] at hstray ⊢
          split_ifs at hstray ⊢ with hfinal
          · exact hfront.concat (inscription_numeral hsign hrun hfinal)
          · exact absurd (List.mem_reverse.mpr List.mem_cons_self) hstray
      | _ => exact absurd (List.mem_reverse.mpr List.mem_cons_self) hstray

end Scanner

/-- The tokens of a text on which the scanner does not give up are the tokens of
the text. -/
theorem inscribed_tokens
    {text : List Symbol}
    (hnotMem : Token.stray ∉ tokens text) :
    Inscribed (tokens text) text := by
  have hstart : Inscribed ([] : List Token).reverse [] := .nil blanks_nil
  exact ((Scanner.stands_blank hstart).foldl_step text).inscribed_finish hnotMem

end LinkAnalysis.Json
