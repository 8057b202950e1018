/-
  GlslMinifier.CommandLine.FileAccess — reading files as text.

  A run sees files through a function from paths to texts or faults.  `FileTree` is such a
  view of a directory that is held in memory; paths are relative to it.
-/

namespace GlslMinifier

/-! ## §1. Faults. -/

/-- Why a file cannot be read as text. -/
inductive ReadFault
  | notFound
  /-- The system refuses, for a reason that it words itself. -/
  | refused (reason : String)
  /-- The bytes are not UTF-8. -/
  | notText
  deriving DecidableEq, Repr

namespace ReadFault

/-- A refusal in the words of the system, with its error number. -/
def system (reason : String) (code : Nat) : ReadFault :=
  .refused (reason ++ " (os error " ++ toString code ++ ")")

def isDirectory : ReadFault := system "Is a directory" 21

def notDirectory : ReadFault := system "Not a directory" 20

def nameTooLong : ReadFault := system "File name too long" 36

def nulInPath : ReadFault := .refused "file name contained an unexpected NUL byte"

end ReadFault

/-- Bytes as text. -/
def decodeText (bytes : ByteArray) : Except ReadFault String :=
  match String.fromUTF8? bytes with
  | some text => .ok text
  | none => .error .notText

/-! ## §2. Directories in memory. -/

/-- What a path leads to. -/
inductive FileEntry
  | file (bytes : ByteArray)
  | directory

/-- A directory: its files and subdirectories by path. -/
structure FileTree where
  entries : List (String × FileEntry)

/-- Parts of a path between its slashes. -/
def pathParts (path : String) : List String := (path.toList.splitOn '/').map String.ofList

/-- A part of a path that leads to no other directory than the one it starts from. -/
def isHere (part : String) : Bool := part == "" || part == "."

namespace FileTree

/-- The entry at a path without detours.  A directory need not be listed if something is
    listed inside it. -/
def entry? (t : FileTree) (parts : List String) : Option FileEntry :=
  match t.entries.find? (pathParts ·.1 == parts) with
  | some found => some found.2
  | none =>
    if t.entries.any fun e => parts.isPrefixOf (pathParts e.1) then some .directory else none

/-- What further parts of a path lead to from the directory `here`.  Above the tree there
    are only directories of unknown content. -/
def walk (t : FileTree) (here : List String) : List String → Except ReadFault FileEntry
  | [] => .ok .directory
  | part :: rest =>
    if isHere part then t.walk here rest
    else if part == ".." then
      if here = [] then
        if rest.all fun p => isHere p || p == ".." then .ok .directory else .error .notFound
      else t.walk here.dropLast rest
    else if 255 < part.utf8ByteSize then .error .nameTooLong
    else
      match t.entry? (here ++ [part]) with
      | none => .error .notFound
      | some .directory => t.walk (here ++ [part]) rest
      | some (.file bytes) => if rest = [] then .ok (.file bytes) else .error .notDirectory

/-- The text of the file at a path. -/
def read (t : FileTree) (path : String) : Except ReadFault String :=
  if path == "" then .error .notFound
  else if path.toList.contains '\x00' then .error .nulInPath
  else if 4096 ≤ path.utf8ByteSize then .error .nameTooLong
  else
    match t.walk [] (pathParts path) with
    | .error e => .error e
    | .ok .directory => .error .isDirectory
    | .ok (.file bytes) => decodeText bytes

end FileTree

end GlslMinifier
