/-
  GlslMinifier.CommandLine.Program — the program and the system that it runs on.

  The program reads files, writes once to standard output and exits.  It does so through a
  `Host`, which is the system when the program is started, and may be a system in memory.
-/
import GlslMinifier.CommandLine.Run

namespace GlslMinifier

/-- What a system does for the program. -/
structure Host (m : Type → Type) where
  /-- The text of a file. -/
  look : (path : String) → m (Except ReadFault String)
  /-- Writes to standard output, or gives the reason why that fails. -/
  write : (text : String) → m (Except String Unit)
  /-- Writes a line to the error output. -/
  warn : (message : String) → m Unit

/-- The exit code when the result of a run cannot be written. -/
def unwrittenCode : Except Failure String → UInt32
  | .ok _ => 1
  | .error _ => 101

section

variable {m : Type → Type} [Monad m] (format : OptionsFormat) (host : Host m)

/-- Writes the outcome of a run.  Gives the exit code. -/
def finish (result : Except Failure String) : m UInt32 := do
  let outcome := Outcome.ofResult result
  match ← host.write outcome.output with
  | .ok () => return outcome.exitCode.toUInt32
  | .error reason =>
    host.warn reason
    return unwrittenCode result

/-- The program: one run, of which the outcome is written.  Gives the exit code. -/
def program (args : List String) : m UInt32 := do
  let result ← (runLooking format host.look args).run
  finish host result

end

end GlslMinifier
