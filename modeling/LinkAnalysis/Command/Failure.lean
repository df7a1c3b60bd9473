import LinkAnalysis.Command.Layout
import LinkAnalysis.Fault
import LinkAnalysis.Json.Value

/-!
# Failures and the console

A failure is a chain of causes, from what was attempted down to what went wrong.
A run reports it in one notice: the words of the whole chain, and of the fault
in it, if there is one, the code and the hint.

A run prints results on one stream and notices on another.  What has been
printed stays printed, also if the run fails afterwards.
-/

namespace LinkAnalysis.Command

open Json (Value)

inductive Cause where
  | attempt (what : String)
  | system (trouble : String)
  | fault (fault : Fault)
  deriving DecidableEq, Repr

namespace Cause

def text : Cause → String
  | attempt what => what
  | system trouble => trouble
  | fault f => f.text

def fault? : Cause → Option Fault
  | fault f => some f
  | attempt _ | system _ => none

end Cause

structure Failure where
  causes : List Cause
  deriving DecidableEq, Repr

structure Notice where
  message : String
  suggestion : Option String
  code : Option String
  deriving DecidableEq, Repr

namespace Failure

def ofFault (f : Fault) : Failure := ⟨[.fault f]⟩

def fault? (f : Failure) : Option Fault := f.causes.findSome? Cause.fault?

def message (f : Failure) : String := ": ".intercalate (f.causes.map Cause.text)

def notice (f : Failure) : Notice :=
  ⟨f.message, f.fault?.bind Fault.hint, f.fault?.map Fault.code⟩

end Failure

namespace Notice

def toValue (n : Notice) : Value :=
  let field (name : String) (value : Option String) : List (String × Value) :=
    value.toList.map fun v => (name, .text v)
  .record [("error", .record
    (field "error_code" n.code ++ [("message", .text n.message)]
      ++ field "suggestion" n.suggestion))]

def lines (n : Notice) : List String :=
  [(match n.code with
    | some code => "error[" ++ code ++ "]: "
    | none => "error: ") ++ n.message]
    ++ n.suggestion.toList.map ("  suggestion: " ++ ·)

end Notice

structure Streams where
  output : String
  errors : String
  deriving DecidableEq, Repr

namespace Streams

def blank : Streams := ⟨"", ""⟩

def addOutput (s : Streams) (text : String) : Streams :=
  { s with output := s.output ++ text }

def addErrors (s : Streams) (text : String) : Streams :=
  { s with errors := s.errors ++ text }

end Streams

abbrev Printing (β : Type) := StateM Streams β

abbrev Console (β : Type) := ExceptT Failure (StateM Streams) β

def print (text : String) : Printing Unit := modify (·.addOutput text)

def complain (text : String) : Printing Unit := modify (·.addErrors text)

/-- Write a text and end its line. -/
def endingLine (write : String → Printing Unit)
    (text : String) : Printing Unit := do
  write text
  write "\n"

/-- The result of a step that prints nothing. -/
def Console.take {β : Type} (result : Except Failure β) : Console β :=
  ExceptT.mk (pure result)

end LinkAnalysis.Command
