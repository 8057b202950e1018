/-
  GlslMinifier.Main — the command line.
-/
import GlslMinifier.CommandLine.Program

namespace GlslMinifier

/-- The system's word for a failed read. -/
def readFaultOf : IO.Error → ReadFault
  | .noFileOrDirectory .. => .notFound
  | .inappropriateType _ code reason => .system reason code.toNat
  | .permissionDenied _ code reason => .system reason code.toNat
  | .invalidArgument _ code reason => .system reason code.toNat
  | .noSuchThing _ code reason => .system reason code.toNat
  | .resourceExhausted _ code reason => .system reason code.toNat
  | .resourceBusy code reason => .system reason code.toNat
  | .hardwareFault code reason => .system reason code.toNat
  | .unsupportedOperation code reason => .system reason code.toNat
  | .otherError code reason => .system reason code.toNat
  | error => .refused (toString error)

/-- Reads a file from disk. -/
def readDisk (path : String) : IO (Except ReadFault String) := do
  try
    return decodeText (← IO.FS.withFile path .read (·.readBinToEnd))
  catch error =>
    return .error (readFaultOf error)

/-- Writes to standard output. -/
def writeOutput (text : String) : IO (Except String Unit) := do
  try
    let out ← IO.getStdout
    out.putStr text
    out.flush
    return .ok ()
  catch error =>
    return .error (toString error)

/-- The system that the program is started on. -/
def systemHost : Host IO := ⟨readDisk, writeOutput, IO.eprintln⟩

end GlslMinifier

def main (args : List String) : IO UInt32 :=
  GlslMinifier.program GlslMinifier.OptionsFormat.standIn GlslMinifier.systemHost args
