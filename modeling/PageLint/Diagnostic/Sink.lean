import PageLint.Diagnostic.Printer
/-!
# Sinks

Where printed warnings go. A sink may have room for a limited number of bytes;
it takes a write as a whole or refuses it, and printing stops at the first
refusal.
-/

namespace PageLint

/-- A text that grows up to a number of bytes, if it has a limit. -/
structure Sink where
  written : String
  limit : Option Nat
deriving DecidableEq

/-- Why printing stopped. -/
inductive PrintError where
  /-- The sink had no room for the next warning. -/
  | sinkFull
deriving DecidableEq

def PrintError.message : PrintError → String
  | .sinkFull => "failed to write diagnostics: sink full"

namespace Sink

/-- The sink that nothing was written to. -/
def empty (limit : Option Nat) : Sink := ⟨"", limit⟩

def hasRoom (sink : Sink) (text : String) : Bool :=
  match sink.limit with
  | none => true
  | some limit => sink.written.utf8ByteSize + text.utf8ByteSize ≤ limit

/-- Writes a text as a whole, or not at all. -/
def write (sink : Sink) (text : String) : Except PrintError Sink :=
  if sink.hasRoom text then .ok { sink with written := sink.written ++ text }
  else .error .sinkFull

end Sink

/-- Prints warnings into a sink until it refuses one. Gives what the sink holds
in the end and the number of warnings printed, or why printing stopped. -/
def Printer.printAll (printer : Printer) (sink : Sink) :
    List Warning → Sink × Except PrintError Nat
  | [] => (sink, .ok 0)
  | w :: ws =>
    match sink.write (printer.render w) with
    | .error e => (sink, .error e)
    | .ok sink =>
      let (sink, printed) := printer.printAll sink ws
      (sink, printed.map (· + 1))

end PageLint
