import CellScript.Compiler.Statement
import CellScript.Digest
import CellScript.Machine.Step

/-!
# From text to report

Compiling checks the limits, then the text; running checks the limits again,
since a program may be run under others. A report is all that can be observed of
one run: the printed lines, the error that ended it, and the program's digest.
-/

namespace CellScript

inductive Failure where
  | config (e : Limits.Error)
  | compile (d : Diagnostic)
  | runtime (t : Trap)
  deriving Repr, DecidableEq

def Failure.message : Failure → String
  | config e => "invalid limits: " ++ e.message
  | compile d => d.text
  | runtime t => "runtime error: " ++ t.message

namespace Program

def ofSource (source : Source) (limits : Limits) : Except Diagnostic Program :=
  match compile source limits with
  | .ok p => .ok p
  | .error e => .error (.ofError source e)

/-- Compiles a named text under limits that are checked first. -/
def build (name text : String) (limits : Limits) : Except Failure Program :=
  match limits.validate with
  | .error e => .error (.config e)
  | .ok () =>
    match ofSource (.ofText name text) limits with
    | .ok p => .ok p
    | .error d => .error (.compile d)

def launch {κ : Type} (p : Program) (limits : Limits) (console : κ) :
    Except Limits.Error (Machine κ) :=
  match limits.validate with
  | .error e => .error e
  | .ok () => .ok (.start p limits console)

end Program

inductive Stage where
  | config
  | compile
  | runtime
  deriving Repr, DecidableEq

def Stage.name : Stage → String
  | config => "config"
  | compile => "compile"
  | runtime => "runtime"

structure ReportedError where
  stage : Stage
  message : String
  /-- The number of a compile error. -/
  number : Option Nat
  span : Option Span
  pc : Option Nat
  deriving Repr, DecidableEq

namespace ReportedError

/-- Run-time faults are located through the source map of the program. -/
def ofFailure (sourceMap : SourceMap) : Failure → ReportedError
  | .config e => ⟨.config, e.message, none, none, none⟩
  | .compile d => ⟨.compile, d.message, some d.number, some d.span, none⟩
  | .runtime t => ⟨.runtime, t.fault.message, none, sourceMap.lookup? t.pc, some t.pc⟩

end ReportedError

structure Report where
  output : List String
  error : Option ReportedError
  digest : Option String
  deriving Repr, DecidableEq

namespace Report

def success (r : Report) : Bool := r.error.isNone

def ofFailure (f : Failure) : Report := ⟨[], some (.ofFailure .empty f), none⟩

def ofProgress? (p : Program) : Progress QueuedConsole → Option Report
  | .running _ => none
  | .halted m => some ⟨m.console.lines, none, some p.digest⟩
  | .trapped t m =>
    some ⟨m.console.lines, some (.ofFailure p.sourceMap (.runtime t)), some p.digest⟩

/-- Compiles a text and runs it on queued lines for at most `fuel` steps; `none` if
it does not end by then. -/
def ofText? (fuel : Nat) (name text : String) (limits : Limits) (input : List (List UInt8)) :
    Option Report :=
  match Program.build name text limits with
  | .error f => some (ofFailure f)
  | .ok p => ofProgress? p (Machine.run p.code fuel (.start p limits (.ofInput input)))

end Report

end CellScript
