import LinkAnalysis.Command.Run

/-!
# What is printed

Reports and notices are printed piece by piece.  The pieces make up one text,
which is added to one of the two streams and leaves the other as it was.
-/

namespace LinkAnalysis.Command

theorem addOutput_addOutput (s : Streams) (a b : String) :
    (s.addOutput a).addOutput b = s.addOutput (a ++ b) :=
  congrArg (Streams.mk · s.errors) String.append_assoc

theorem addErrors_addErrors (s : Streams) (a b : String) :
    (s.addErrors a).addErrors b = s.addErrors (a ++ b) :=
  congrArg (Streams.mk s.output) String.append_assoc

theorem endLines_cons (line : String) (lines : List String) :
    endLines (line :: lines) = line ++ "\n" ++ endLines lines := by
  rw [endLines, List.map_cons, String.join_cons, ← endLines]

/-! ## Lines -/

/-- A way to write that adds what it writes to the streams. -/
def Adds (write : String → Printing Unit)
    (add : Streams → String → Streams) : Prop :=
  ∀ text s, (write text).run s = ((), add s text)

theorem print_adds : Adds print Streams.addOutput := fun _ _ => rfl

theorem complain_adds : Adds complain Streams.addErrors := fun _ _ => rfl

section Lines

variable {write : String → Printing Unit} {add : Streams → String → Streams}
  (hwrite : Adds write add) (hadd : ∀ s a b, add (add s a) b = add s (a ++ b))

include hwrite hadd

theorem run_endingLine (text : String) (s : Streams) :
    (endingLine write text).run s = ((), add s (text ++ "\n")) := by
  rw [endingLine, StateT.run_bind, hwrite, ← hadd]
  exact hwrite "\n" (add s text)

theorem run_forM_endingLine
    (hempty : ∀ s, add s "" = s)
    (lines : List String) (s : Streams) :
    (lines.forM (endingLine write)).run s = ((), add s (endLines lines)) := by
  induction lines generalizing s with
  | nil => exact congrArg (Prod.mk ()) (hempty s).symm
  | cons line lines ih =>
      rw [List.forM_eq_forM, List.forM_cons, StateT.run_bind,
        run_endingLine hwrite hadd, endLines_cons, ← hadd s (line ++ "\n")]
      exact ih _

end Lines

/-! ## Reports and notices -/

/-- A report as a text. -/
def reportText (mode : Mode) (r : Report Float) : String :=
  match mode with
  | .json => r.toValue.toIndentedText ++ "\n"
  | .pretty => endLines (reportLines true r)
  | .text => endLines (reportLines false r)

/-- A notice as a text. -/
def noticeText (mode : Mode) (n : Notice) : String :=
  match mode with
  | .json => n.toValue.toIndentedText ++ "\n"
  | .pretty | .text => endLines n.lines

theorem addOutput_empty (s : Streams) : s.addOutput "" = s :=
  congrArg (Streams.mk · s.errors) String.append_empty

theorem addErrors_empty (s : Streams) : s.addErrors "" = s :=
  congrArg (Streams.mk s.output) String.append_empty

theorem run_printReport
    (mode : Mode) (r : Report Float) (s : Streams) :
    (printReport mode r).run s = ((), s.addOutput (reportText mode r)) := by
  cases mode with
  | json => exact run_endingLine print_adds addOutput_addOutput _ s
  | pretty =>
      exact run_forM_endingLine print_adds addOutput_addOutput
        addOutput_empty _ s
  | text =>
      exact run_forM_endingLine print_adds addOutput_addOutput
        addOutput_empty _ s

theorem run_printNotice
    (mode : Mode) (n : Notice) (s : Streams) :
    (printNotice mode n).run s = ((), s.addErrors (noticeText mode n)) := by
  cases mode with
  | json => exact run_endingLine complain_adds addErrors_addErrors _ s
  | pretty =>
      exact run_forM_endingLine complain_adds addErrors_addErrors
        addErrors_empty _ s
  | text =>
      exact run_forM_endingLine complain_adds addErrors_addErrors
        addErrors_empty _ s

end LinkAnalysis.Command
