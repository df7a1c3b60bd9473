import LinkAnalysis.Proofs.Json.Grammar
import Mathlib

/-!
# Scanning

From all symbols of a list of tokens the scanner hands out these tokens.  A
lexeme is read from start to end in one mode; only behind a number the scanner
has to see the next character to know that the number is over, so a number must
be followed by a blank, by punctuation or by nothing.
-/

namespace LinkAnalysis.Json

open Text (Symbol)

/-! ## Units and characters -/

theorem not_isHigh_toNat (c : Char) : isHigh c.toNat = false := by
  have hvalid : c.toNat.isValidChar := c.valid
  simp only [Nat.isValidChar] at hvalid
  exact decide_eq_false (by omega)

theorem assemble_single (c : Char) (units : List Nat) :
    assemble (c.toNat :: units) = (assemble units).map (c :: ·) := by
  have hvalid : c.toNat.isValidChar := c.valid
  cases units with
  | nil => simp [assemble, hvalid]
  | cons v units => simp [assemble, not_isHigh_toNat c, hvalid]

theorem assemble_pair
    {c : Char}
    (hplane : 0x10000 ≤ c.toNat)
    (units : List Nat) :
    assemble ((0xD800 + (c.toNat - 0x10000) / 0x400) ::
        (0xDC00 + (c.toNat - 0x10000) % 0x400) :: units) =
      (assemble units).map (c :: ·) := by
  have hvalid : c.toNat.isValidChar := c.valid
  simp only [Nat.isValidChar] at hvalid
  have hhigh : isHigh (0xD800 + (c.toNat - 0x10000) / 0x400) = true :=
    decide_eq_true (by omega)
  have hlow : isLow (0xDC00 + (c.toNat - 0x10000) % 0x400) = true :=
    decide_eq_true (by omega)
  have hjoin :
      0x10000 + (0xD800 + (c.toNat - 0x10000) / 0x400 - 0xD800) * 0x400 +
          (0xDC00 + (c.toNat - 0x10000) % 0x400 - 0xDC00) = c.toNat := by
    omega
  rw [assemble, hhigh, hlow, hjoin, Char.ofNat_toNat]
  rfl

theorem encodes_of_assemble
    {units : List Nat} {chars : List Char}
    (hassemble : assemble units = some chars) :
    Encodes chars units := by
  have hsingle :
      ∀ {u : Nat} {chars : List Char} {units : List Nat}, u.isValidChar →
        Encodes chars units → Encodes (Char.ofNat u :: chars) (u :: units) := by
    intro u chars units hvalid hmore
    have hencodes := Encodes.single (Char.ofNat u) hmore
    rwa [Char.toNat_ofNat, if_pos hvalid] at hencodes
  fun_induction assemble units generalizing chars with
  | case1 => exact Option.some_inj.mp hassemble ▸ .nil
  | case2 u hvalid => exact Option.some_inj.mp hassemble ▸ hsingle hvalid .nil
  | case3 => simp at hassemble
  | case4 u v rest hpair ih =>
      obtain ⟨more, hmore, rfl⟩ := Option.map_eq_some_iff.mp hassemble
      simp only [Bool.and_eq_true, isHigh, isLow, decide_eq_true_eq] at hpair
      generalize hn : 0x10000 + (u - 0xD800) * 0x400 + (v - 0xDC00) = n
      have hvalid : n.isValidChar := by
        simp only [Nat.isValidChar]
        omega
      have hnumber : (Char.ofNat n).toNat = n := by
        rw [Char.toNat_ofNat, if_pos hvalid]
      have hencodes := Encodes.pair (Char.ofNat n) (by omega) (ih hmore)
      rw [hnumber] at hencodes
      have hu : 0xD800 + (n - 0x10000) / 0x400 = u := by omega
      have hv : 0xDC00 + (n - 0x10000) % 0x400 = v := by omega
      rwa [hu, hv] at hencodes
  | case5 u v rest _ hvalid ih =>
      obtain ⟨more, hmore, rfl⟩ := Option.map_eq_some_iff.mp hassemble
      exact hsingle hvalid (ih hmore)
  | case6 => simp at hassemble

/-- The characters that units make up are those of which they are the units. -/
theorem assemble_eq_some_iff {units : List Nat} {chars : List Char} :
    assemble units = some chars ↔ Encodes chars units := by
  refine ⟨encodes_of_assemble, fun hencodes => ?_⟩
  induction hencodes with
  | nil => rfl
  | single c _ ih =>
      rw [assemble_single, ih]
      rfl
  | pair c hplane _ ih =>
      rw [assemble_pair hplane, ih]
      rfl

/-! ## Numbers -/

namespace Phase

def run (phase : Phase) (l : List Char) : Option Phase := l.foldlM next? phase

theorem run_append (phase : Phase) (l more : List Char) :
    phase.run (l ++ more) = (phase.run l).bind fun p => p.run more :=
  List.foldlM_append

theorem run_cons
    (phase : Phase) (c : Char) (more : List Char) :
    phase.run (c :: more) = (phase.next? c).bind fun p => p.run more :=
  List.foldlM_cons

theorem run_of_digits
    {phase : Phase}
    (hdigits : ∀ c : Char, c.isDigit = true → phase.next? c = some phase)
    {l : List Char}
    (hl : ∀ c ∈ l, c.isDigit = true) :
    phase.run l = some phase := by
  induction l with
  | nil => rfl
  | cons c l ih =>
      rw [List.forall_mem_cons] at hl
      rw [run_cons, hdigits c hl.1]
      exact ih hl.2

/-- Digits lead from a phase that waits for a digit to the phase of these
digits. -/
theorem run_digits
    {phase later : Phase}
    (hfirst : ∀ c : Char, c.isDigit = true → phase.next? c = some later)
    (hmore : ∀ c : Char, c.isDigit = true → later.next? c = some later)
    {l : List Char}
    (hl : Digits l) :
    phase.run l = some later := by
  obtain ⟨hne, hdigits⟩ := hl
  cases l with
  | nil => exact absurd rfl hne
  | cons c l =>
      rw [List.forall_mem_cons] at hdigits
      rw [run_cons, hfirst c hdigits.1]
      exact run_of_digits hmore hdigits.2

theorem run_whole
    {l : List Char}
    (heither : l = ['0'] ∨ Digits l ∧ l.head? ≠ some '0') :
    Phase.minus.run l = some .zero ∨ Phase.minus.run l = some .whole := by
  rcases heither with rfl | ⟨⟨hne, hdigits⟩, hzero⟩
  · exact Or.inl rfl
  · refine Or.inr ?_
    cases l with
    | nil => exact absurd rfl hne
    | cons c l =>
        rw [List.forall_mem_cons] at hdigits
        have hc : c ≠ '0' := by simpa using hzero
        have hnext : Phase.minus.next? c = some .whole := by
          simp [next?, hc, hdigits.1]
        rw [run_cons, hnext]
        exact run_of_digits (fun c hc => by simp [next?, hc]) hdigits.2

theorem run_fraction
    {phase : Phase}
    (hphase : phase = .zero ∨ phase = .whole)
    {l : List Char}
    (heither : l = [] ∨ ∃ digits, Digits digits ∧ l = '.' :: digits) :
    ∃ later, phase.run l = some later ∧
      (later = .zero ∨ later = .whole ∨ later = .fraction) := by
  rcases heither with rfl | ⟨digits, hdigits, rfl⟩
  · exact ⟨phase, rfl, hphase.imp_right Or.inl⟩
  · have hpoint : phase.next? '.' = some .point := by
      rcases hphase with rfl | rfl <;> rfl
    refine ⟨.fraction, ?_, Or.inr (Or.inr rfl)⟩
    rw [run_cons, hpoint]
    exact run_digits (fun c hc => by simp [next?, hc])
      (fun c hc => by simp [next?, hc]) hdigits

theorem run_power
    {phase : Phase}
    (hphase : phase = .zero ∨ phase = .whole ∨ phase = .fraction)
    {l : List Char}
    (heither : l = [] ∨ ∃ mark ∈ ['e', 'E'], ∃ sign ∈ [[], ['+'], ['-']],
        ∃ digits, Digits digits ∧ l = mark :: (sign ++ digits)) :
    ∃ later, phase.run l = some later ∧ later.isFinal = true := by
  rcases heither with rfl | ⟨mark, hmark, sign, hsign, digits, hdigits, rfl⟩
  · exact ⟨phase, rfl, by rcases hphase with rfl | rfl | rfl <;> rfl⟩
  · have hnext : phase.next? mark = some .mark := by
      simp only [List.mem_cons, List.not_mem_nil, or_false] at hmark
      rcases hphase with rfl | rfl | rfl <;> rcases hmark with rfl | rfl <;> rfl
    refine ⟨.power, ?_, rfl⟩
    rw [run_cons, hnext]
    change Phase.mark.run (sign ++ digits) = _
    have hloop :
        ∀ c : Char, c.isDigit = true → Phase.power.next? c = some .power :=
      fun c hc => by simp [next?, hc]
    have hsigned : Phase.markSign.run digits = some .power :=
      run_digits (fun c hc => by simp [next?, hc]) hloop hdigits
    simp only [List.mem_cons, List.not_mem_nil, or_false] at hsign
    rcases hsign with rfl | rfl | rfl
    · refine run_digits (fun c hc => ?_) hloop hdigits
      have hsign : ¬ (c = '+' ∨ c = '-') := by
        rintro (rfl | rfl) <;> exact absurd hc (by decide)
      simp [next?, hsign, hc]
    · exact hsigned
    · exact hsigned

end Phase

/-- A numeral is read from its first character to a phase in which it may
end. -/
theorem Numeral.exists_run {l : List Char} (hnumeral : Numeral l) :
    ∃ sign body,
      l = sign ++ body ∧
      (sign = [] ∨ sign = ['-']) ∧
      ∃ last, Phase.minus.run body = some last ∧ last.isFinal = true := by
  obtain @⟨sign, whole, fraction, power, hsign, hwhole, hfraction, hpower⟩ :=
    hnumeral
  refine ⟨sign, whole ++ fraction ++ power,
    by simp only [List.append_assoc], hsign, ?_⟩
  obtain ⟨phase, hrun, hphase⟩ : ∃ phase, Phase.minus.run whole = some phase ∧
      (phase = .zero ∨ phase = .whole) := by
    rcases Phase.run_whole hwhole with hrun | hrun
    · exact ⟨.zero, hrun, Or.inl rfl⟩
    · exact ⟨.whole, hrun, Or.inr rfl⟩
  obtain ⟨later, hrun', hlater⟩ := Phase.run_fraction hphase hfraction
  obtain ⟨last, hrun'', hlast⟩ := Phase.run_power hlater hpower
  refine ⟨last, ?_, hlast⟩
  rw [Phase.run_append, Phase.run_append, hrun, Option.bind_some, hrun',
    Option.bind_some, hrun'']

namespace Scanner

/-! ## Strings -/

variable {handed : List Token}

theorem escapeUnit?_of_mem
    {c : Char} {unit : Nat}
    (hmem : (c, unit) ∈ shortEscapes) :
    escapeUnit? c = some unit ∧ c ≠ 'u' := by
  have hall : ∀ e ∈ shortEscapes, escapeUnit? e.1 = some e.2 ∧ e.1 ≠ 'u' := by
    decide
  exact hall _ hmem

theorem hexDigit?_of_mem
    {c : Char} {d : Nat}
    (hmem : (c, d) ∈ hexDigits) :
    hexDigit? c = some d := by
  have hall : ∀ e ∈ hexDigits, hexDigit? e.1 = some e.2 := by decide
  exact hall _ hmem

theorem foldl_take_unit
    {unit : Nat} {l : List Char}
    (hspelling : UnitSpelling unit l)
    (units : List Nat) :
    l.foldl take ⟨.text units, handed⟩ = ⟨.text (unit :: units), handed⟩ := by
  cases hspelling with
  | plain hcontrol hquote hescape =>
      simp [take, become, hquote, hescape, not_lt.mpr hcontrol]
  | short hmem =>
      obtain ⟨hunit, hne⟩ := escapeUnit?_of_mem hmem
      simp [take, become, hunit, hne]
  | hex hfirst hsecond hthird hfourth =>
      simp [take, become, hexDigit?_of_mem hfirst, hexDigit?_of_mem hsecond,
        hexDigit?_of_mem hthird, hexDigit?_of_mem hfourth]
      omega

theorem foldl_step_map_some (l : List Char) (s : Scanner) :
    (l.map some).foldl step s = l.foldl take s :=
  List.foldl_map

theorem foldl_step_units
    {units : List Nat} {l : List Symbol}
    (hunits : UnitInscriptions units l)
    (before : List Nat) :
    l.foldl step ⟨.text before, handed⟩ =
      ⟨.text (units.reverse ++ before), handed⟩ := by
  induction hunits generalizing before with
  | nil => rfl
  | cons hunit _ ih =>
      rw [List.foldl_append, foldl_step_map_some, foldl_take_unit hunit, ih,
        List.reverse_cons, List.append_assoc]
      rfl
  | unreadable _ ih =>
      rw [List.reverse_cons, List.append_assoc]
      exact ih (unreadable :: before)

theorem foldl_step_quoted
    {units : List Nat} {l : List Symbol}
    (hunits : UnitInscriptions units l) :
    (some '"' :: (l ++ [some '"'])).foldl step ⟨.blank, handed⟩ =
      ⟨.blank, .text ((assemble units).map String.ofList) :: handed⟩ := by
  have hopen : step ⟨.blank, handed⟩ (some '"') = ⟨.text [], handed⟩ := rfl
  rw [List.foldl_cons, hopen, List.foldl_append, foldl_step_units hunits]
  simp [step, take, emit, stringToken]

theorem unitInscriptions_of_spellings
    {units : List Nat} {l : List Char}
    (hunits : UnitSpellings units l) :
    UnitInscriptions units (l.map some) := by
  induction hunits with
  | nil => exact .nil
  | cons hunit _ ih =>
      rw [List.map_append]
      exact .cons hunit ih

/-! ## Numbers and marks -/

theorem foldl_take_digits
    {phase last : Phase} {l : List Char}
    (hruns : phase.run l = some last)
    (before : List Char) :
    l.foldl take ⟨.number phase before, handed⟩ =
      ⟨.number last (l.reverse ++ before), handed⟩ := by
  induction l generalizing phase before with
  | nil => rw [← Option.some_inj.mp hruns]; rfl
  | cons c l ih =>
      rw [Phase.run_cons] at hruns
      obtain ⟨p, hp, hrun⟩ := Option.bind_eq_some_iff.mp hruns
      have htake : take ⟨.number phase before, handed⟩ c =
          ⟨.number p (c :: before), handed⟩ := by
        simp [take, hp, become]
      rw [List.foldl_cons, htake, ih hrun, List.reverse_cons, List.append_assoc]
      rfl

theorem mem_of_isDigit {c : Char} (hdigit : c.isDigit = true) :
    c ∈ ['0', '1', '2', '3', '4', '5', '6', '7', '8', '9'] := by
  have hrange : 48 ≤ c.toNat ∧ c.toNat ≤ 57 := by
    simp only [Char.isDigit, Bool.and_eq_true, decide_eq_true_eq] at hdigit
    exact ⟨UInt32.le_iff_toNat_le.mp hdigit.1,
      UInt32.le_iff_toNat_le.mp hdigit.2⟩
  rw [← Char.ofNat_toNat c]
  generalize c.toNat = n at hrange
  obtain ⟨hlow, hhigh⟩ := hrange
  interval_cases n <;> decide

/-- Without a sign a number starts as it goes on behind one. -/
theorem begin_of_next
    {c : Char} {phase : Phase}
    (hnext : Phase.minus.next? c = some phase) :
    begin ⟨.blank, handed⟩ c = ⟨.number phase [c], handed⟩ := by
  have hdigit : c.isDigit = true := by
    simp only [Phase.next?] at hnext
    split at hnext
    case isTrue hzero => rw [hzero]; rfl
    case isFalse =>
      split at hnext
      case isTrue hdigit => exact hdigit
      case isFalse => simp at hnext
  have hc := mem_of_isDigit hdigit
  simp only [List.mem_cons, List.not_mem_nil, or_false] at hc
  rcases hc with rfl | rfl | rfl | rfl | rfl | rfl | rfl | rfl | rfl | rfl <;>
    (cases Option.some_inj.mp hnext; rfl)

theorem foldl_take_numeral
    (handed : List Token) {l : List Char}
    (hnumeral : Numeral l) :
    ∃ phase, phase.isFinal = true ∧
      l.foldl take ⟨.blank, handed⟩ = ⟨.number phase l.reverse, handed⟩ := by
  obtain ⟨sign, body, rfl, rfl | rfl, last, hrun, hlast⟩ := hnumeral.exists_run
  · refine ⟨last, hlast, ?_⟩
    cases body with
    | nil => cases Option.some_inj.mp hrun; simp [Phase.isFinal] at hlast
    | cons c body =>
        rw [Phase.run_cons] at hrun
        obtain ⟨p, hp, hrun⟩ := Option.bind_eq_some_iff.mp hrun
        have htake : take ⟨.blank, handed⟩ c = ⟨.number p [c], handed⟩ :=
          begin_of_next hp
        rw [List.nil_append, List.foldl_cons, htake, foldl_take_digits hrun,
          List.reverse_cons]
  · refine ⟨last, hlast, ?_⟩
    have htake : take ⟨.blank, handed⟩ '-' = ⟨.number .minus ['-'], handed⟩ :=
      rfl
    rw [List.singleton_append, List.foldl_cons, htake, foldl_take_digits hrun,
      List.reverse_cons]

/-- The characters of which one stands behind a number, unless nothing does. -/
def delimiters : List Char := [' ', '\t', '\n', '\r', ',', ':', ']', '\x7d']

def Delimited (rest : List Symbol) : Prop :=
  ∀ x ∈ rest.head?, ∃ c ∈ delimiters, x = some c

theorem next?_of_delimiter
    {phase : Phase}
    (hphase : phase.isFinal = true)
    {c : Char}
    (hc : c ∈ delimiters) :
    phase.next? c = none := by
  cases phase with
  | zero | whole | fraction | power => fin_cases hc <;> rfl
  | minus | point | mark | markSign => simp [Phase.isFinal] at hphase

/-- The tokens of the rest of a text, seen from a state of the scanner. -/
def scan (s : Scanner) (rest : List Symbol) : List Token :=
  (rest.foldl step s).finish

theorem scan_append (s : Scanner) (l rest : List Symbol) :
    s.scan (l ++ rest) = (l.foldl step s).scan rest := by
  rw [scan, scan, List.foldl_append]

theorem scan_numeral
    {l : List Char}
    (hnumeral : Numeral l)
    {rest : List Symbol}
    (hrest : Delimited rest) :
    scan ⟨.blank, handed⟩ (l.map some ++ rest) =
      scan ⟨.blank, .number (String.ofList l) :: handed⟩ rest := by
  obtain ⟨phase, hphase, hread⟩ := foldl_take_numeral handed hnumeral
  rw [scan_append, foldl_step_map_some, hread]
  cases rest with
  | nil => simp [scan, finish, hphase, numeral]
  | cons x rest =>
      obtain ⟨c, hc, rfl⟩ := hrest x rfl
      have hnone := next?_of_delimiter hphase hc
      have htake : step ⟨.number phase l.reverse, handed⟩ (some c) =
          step ⟨.blank, .number (String.ofList l) :: handed⟩ (some c) := by
        simp [step, take, hnone, hphase, numeral, emit]
      rw [scan, scan, List.foldl_cons, List.foldl_cons, htake]

theorem scan_blanks
    (handed : List Token) {blanks : List Char}
    (hblanks : Blanks blanks)
    (rest : List Symbol) :
    scan ⟨.blank, handed⟩ (blanks.map some ++ rest) =
      scan ⟨.blank, handed⟩ rest := by
  induction blanks with
  | nil => rfl
  | cons c blanks ih =>
      have hc : c ∈ [' ', '\t', '\n', '\r'] := hblanks c List.mem_cons_self
      have htake : take ⟨.blank, handed⟩ c = ⟨.blank, handed⟩ := by
        simp only [List.mem_cons, List.not_mem_nil, or_false] at hc
        rcases hc with rfl | rfl | rfl | rfl <;> rfl
      rw [List.map_cons, List.cons_append, ← ih fun c hc => hblanks c
        (List.mem_cons_of_mem _ hc), scan, scan, List.foldl_cons, step, htake]

end Scanner

/-! ## Whole texts -/

namespace Token

def isNumeral : Token → Bool
  | number _ => true
  | _ => false

/-- The tokens that may stand behind a number. -/
def isMark : Token → Bool
  | comma | colon | closeList | closeRecord => true
  | _ => false

end Token

/-- Numbers are followed by marks. -/
def Separate (tokens : List Token) : Prop :=
  tokens.IsChain fun t next => t.isNumeral = true → next.isMark = true

namespace Scanner

variable {handed : List Token}

theorem scan_text
    {content : String} {units : List Nat} {l : List Symbol}
    (hencodes : Encodes content.toList units)
    (hunits : UnitInscriptions units l)
    (rest : List Symbol) :
    scan ⟨.blank, handed⟩ (some '"' :: (l ++ [some '"']) ++ rest) =
      scan ⟨.blank, .text (some content) :: handed⟩ rest := by
  rw [scan_append, foldl_step_quoted hunits, assemble_eq_some_iff.mpr hencodes,
    Option.map_some, String.ofList_toList]

theorem scan_noText
    {units : List Nat} {l : List Symbol}
    (hencodes : ∀ chars, ¬ Encodes chars units)
    (hunits : UnitInscriptions units l)
    (rest : List Symbol) :
    scan ⟨.blank, handed⟩ (some '"' :: (l ++ [some '"']) ++ rest) =
      scan ⟨.blank, .text none :: handed⟩ rest := by
  have hnone : assemble units = none :=
    Option.eq_none_iff_forall_ne_some.mpr fun chars hassemble =>
      hencodes chars (assemble_eq_some_iff.mp hassemble)
  rw [scan_append, foldl_step_quoted hunits, hnone, Option.map_none]

theorem scan_lexeme
    {token : Token} {l : List Char}
    (hlexeme : Lexeme token l)
    {rest : List Symbol}
    (hrest : token.isNumeral = true → Delimited rest) :
    scan ⟨.blank, handed⟩ (l.map some ++ rest) =
      scan ⟨.blank, token :: handed⟩ rest := by
  cases hlexeme with
  | number hnumeral => exact scan_numeral hnumeral (hrest rfl)
  | text hencodes hunits =>
      rw [List.map_cons, List.map_append]
      exact scan_text hencodes (unitInscriptions_of_spellings hunits) rest
  | noText hencodes hunits =>
      rw [List.map_cons, List.map_append]
      exact scan_noText hencodes (unitInscriptions_of_spellings hunits) rest
  | _ => rfl

theorem scan_inscription
    {token : Token} {l : List Symbol}
    (hinscription : Inscription token l)
    {rest : List Symbol}
    (hrest : token.isNumeral = true → Delimited rest) :
    scan ⟨.blank, handed⟩ (l ++ rest) =
      scan ⟨.blank, token :: handed⟩ rest := by
  cases hinscription with
  | lexeme hlexeme => exact scan_lexeme hlexeme hrest
  | text hencodes hunits => exact scan_text hencodes hunits rest
  | noText hencodes hunits => exact scan_noText hencodes hunits rest

theorem delimited_of_blanks
    {blanks : List Char}
    (hblanks : Blanks blanks)
    (hne : blanks ≠ [])
    (rest : List Symbol) :
    Delimited (blanks.map some ++ rest) := by
  obtain ⟨c, more, rfl⟩ := List.exists_cons_of_ne_nil hne
  intro x hx
  exact ⟨c, List.mem_append_left [',', ':', ']',
      '\x7d'] (hblanks c List.mem_cons_self), (Option.mem_some_iff.mp hx).symm⟩

theorem delimited_of_mark
    {token : Token}
    (hmark : token.isMark = true)
    {l : List Symbol}
    (hinscription : Inscription token l)
    (rest : List Symbol) :
    Delimited (l ++ rest) := by
  cases hinscription with
  | lexeme hlexeme =>
      intro x hx
      cases hlexeme with
      | closeRecord | closeList | comma | colon =>
          exact ⟨_, by decide, (Option.mem_some_iff.mp hx).symm⟩
      | _ => simp [Token.isMark] at hmark
  | _ => simp [Token.isMark] at hmark

theorem delimited_of_inscribed
    {tokens : List Token} {l : List Symbol}
    (hinscribed : Inscribed tokens l)
    (hmark : ∀ t ∈ tokens.head?, t.isMark = true) :
    Delimited l := by
  cases hinscribed with
  | @nil blanks hblanks =>
      by_cases hne : blanks = []
      · rw [hne]
        exact fun x hx => absurd hx (by simp)
      · have hdelimited := delimited_of_blanks hblanks hne []
        rwa [List.append_nil] at hdelimited
  | @cons blanks inscription rest token tokens hblanks htoken hrest =>
      by_cases hne : blanks = []
      · rw [hne]
        exact delimited_of_mark (hmark token rfl) htoken rest
      · exact delimited_of_blanks hblanks hne _

theorem scan_inscribed
    (handed : List Token) {tokens : List Token} {l : List Symbol}
    (hinscribed : Inscribed tokens l)
    (hseparate : Separate tokens) :
    scan ⟨.blank, handed⟩ l = handed.reverse ++ tokens := by
  induction hinscribed generalizing handed with
  | nil hblanks =>
      have hscan := scan_blanks handed hblanks []
      rw [List.append_nil] at hscan
      rw [hscan, List.append_nil]
      rfl
  | cons hblanks htoken hrest ih =>
      rw [Separate, List.isChain_cons] at hseparate
      rw [scan_blanks _ hblanks, scan_inscription htoken, ih _ hseparate.2,
        List.reverse_cons, List.append_assoc]
      · rfl
      · exact fun hnumeral =>
          delimited_of_inscribed hrest fun t ht => hseparate.1 t ht hnumeral

end Scanner

end LinkAnalysis.Json
