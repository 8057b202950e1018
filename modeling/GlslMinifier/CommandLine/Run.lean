/-
  GlslMinifier.CommandLine.Run — a run of the program.

  A run names one shader and at most one file with options, and prints the minified
  shader.  Faults are looked for in a fixed order: the arguments, the options file, the
  shader file, the options themselves.
-/
import GlslMinifier.CommandLine.FileAccess
import GlslMinifier.Minify
import GlslMinifier.Options.StandIn

namespace GlslMinifier

/-! ## §1. Arguments. -/

/-- What the arguments of a run ask for. -/
structure Invocation where
  shader : String
  /-- File with the options; without one, the defaults apply. -/
  config : Option String
  deriving DecidableEq, Repr

namespace Invocation

/-- One argument names the shader, a second one the options file. -/
def ofArguments? : List String → Option Invocation
  | [shader] => some ⟨shader, none⟩
  | [shader, config] => some ⟨shader, some config⟩
  | _ => none

end Invocation

/-! ## §2. Failures. -/

/-- Why a run gives no result. -/
inductive Failure
  /-- The arguments are not one or two. -/
  | usage
  | fileNotFound (path : String)
  | unreadable (path reason : String)
  /-- The options file gives no options, for a reason that the reader words itself. -/
  | invalidConfig (path cause : String)
  | invalidName (error : InvalidName)
  deriving DecidableEq, Repr

namespace Failure

/-- The message of a failure that has no form of its own. -/
def occurred (cause : String) : String := "An error occurred: " ++ cause

def message : Failure → String
  | .usage => "Usage: shmin <path_to_shader> [config.json]"
  | .fileNotFound path => "Error: File not found [" ++ path ++ "]"
  | .unreadable path reason => occurred ("failed to read " ++ path ++ ": " ++ reason)
  | .invalidConfig path cause => occurred ("invalid config " ++ path ++ ": " ++ cause)
  | .invalidName error => occurred error.message

def exitCode : Failure → Nat
  | .usage => 2
  | .fileNotFound _ => 3
  | _ => 1

/-- The failure of a run that cannot read the file at `path`. -/
def ofReadFault (path : String) : ReadFault → Failure
  | .notFound => .fileNotFound path
  | .refused reason => .unreadable path reason
  | .notText => .unreadable path "stream did not contain valid UTF-8"

end Failure

/-! ## §3. Runs.

A run looks at one file after the other, through `look`.  It does not look at the shader
before it has its options. -/

section

variable {m : Type → Type} [Monad m]

/-- A result that no further file is looked at for. -/
def settled {α : Type} (result : Except Failure α) : ExceptT Failure m α := .mk (pure result)

variable (format : OptionsFormat) (look : String → m (Except ReadFault String))

/-- The text of a file that a run names. -/
def readNamed (path : String) : ExceptT Failure m String :=
  .mk do return (← look path).mapError (Failure.ofReadFault path)

/-- The options of a run. -/
def readConfig : Option String → ExceptT Failure m Options
  | none => settled (.ok .default)
  | some path => do
    let text ← readNamed look path
    settled ((format.read text).mapError (Failure.invalidConfig path))

/-- The result of a run that looks at files through `look`. -/
def runLooking (args : List String) : ExceptT Failure m String :=
  match Invocation.ofArguments? args with
  | none => settled (.error .usage)
  | some invocation => do
    let options ← readConfig format look invocation.config
    let text ← readNamed look invocation.shader
    let result ← settled ((minify options [] text).mapError Failure.invalidName)
    settled (.ok result.content)

end

/-- The result of a run on files that read as `read` says. -/
def OptionsFormat.run (format : OptionsFormat) (read : String → Except ReadFault String)
    (args : List String) : Except Failure String :=
  Id.run (runLooking format (fun path => pure (read path)) args).run

/-- A run with the stand-in for the JSON library. -/
def run : (read : String → Except ReadFault String) → (args : List String) →
    Except Failure String :=
  OptionsFormat.standIn.run

/-- What a finished run prints and the code it exits with. -/
structure Outcome where
  output : String
  exitCode : Nat
  deriving DecidableEq, Repr

/-- A result is printed as it is, a failure as one line. -/
def Outcome.ofResult : Except Failure String → Outcome
  | .ok content => ⟨content, 0⟩
  | .error failure => ⟨failure.message ++ "\n", failure.exitCode⟩

end GlslMinifier
