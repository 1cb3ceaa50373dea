import ProcessModel.Error
import ProcessModel.Files.Path

/-! What the library asks of a file system. -/

namespace ProcessModel

structure FileStat where
  isDir : Bool
  /-- The time of the last change; only the order of times counts. -/
  modified : Nat
  deriving DecidableEq, Repr

structure ProgramResult where
  status : Option Int
  stdout : String := ""
  stderr : String := ""
  deriving DecidableEq, Repr

/-- File operations in a monad. Open files are known by their paths. -/
class FileAccess (m : Type → Type) where
  /-- The absolute path without points and links. -/
  canonical : String → m (Except FileFault String)
  stat : String → m (Except FileFault FileStat)
  read : String → m (Except FileFault ByteArray)
  write : String → ByteArray → m (Except FileFault Unit)
  /-- Create a directory and those above it; one that exists is left alone. -/
  createDirs : String → m (Except FileFault Unit)
  /-- Give a file another path, in place of what is there. -/
  rename : String → String → m (Except FileFault Unit)
  remove : String → m (Except FileFault Unit)
  list : String → m (Except FileFault (List String))
  openRead : String → m (Except FileFault Unit)
  openUpdate : String → m (Except FileFault Unit)
  /-- Bytes from an offset on, exactly as many as asked for. -/
  readAt : String → Nat → Nat → m (Except FileFault ByteArray)
  /-- Overwrite bytes from an offset on; a gap before them is filled with zeros. -/
  writeAt : String → Nat → ByteArray → m (Except FileFault Unit)
  /-- A number that is not exceeded by the number of files. -/
  fileBound : m Nat
  launch : String → List String → String → m (Except FileFault ProgramResult)

namespace FileAccess

variable {m : Type → Type} [Monad m] [FileAccess m]

/-- An operation on `path` whose failure names the path. -/
def on {α : Type} (path : String) (op : m (Except FileFault α)) : ExceptT Error m α := do
  match ← op with
  | .ok a => return a
  | .error fault => throw (.file path fault)

def isFile (path : String) : m Bool := do
  match ← stat path with
  | .ok s => return !s.isDir
  | .error _ => return false

def isDir (path : String) : m Bool := do
  match ← stat path with
  | .ok s => return s.isDir
  | .error _ => return false

def readText (path : String) : m (Except FileFault String) := do
  match ← read path with
  | .error fault => return .error fault
  | .ok bytes =>
    match String.fromUTF8? bytes with
    | some text => return .ok text
    | none => return .error .notText

def writeText (path text : String) : m (Except FileFault Unit) := write path text.toUTF8

end FileAccess

end ProcessModel
