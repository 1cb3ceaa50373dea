import ProcessModel.Config
import ProcessModel.Files.Access

/-! Compilers that make artifacts of units. -/

namespace ProcessModel

structure BuildRequest where
  model : String
  unitPath : String
  /-- Where the headers are. -/
  includeDirs : List String
  /-- The directory to work in; the artifact is expected there. -/
  buildDir : String
  stem : String
  deriving DecidableEq, Repr

/-- A compiler. Its success does not say that the artifact is there. -/
structure Toolchain (m : Type → Type) where
  extension : String
  compile : BuildRequest → m (Except Error Unit)

namespace CompilerCommand

def arguments (c : CompilerCommand) (r : BuildRequest) : List String :=
  c.args ++ r.includeDirs.map ("-I" ++ ·) ++
    ["-o", Path.join r.buildDir (r.stem ++ "." ++ c.artifactExtension), r.unitPath] ++ c.linkArgs

/-- What a program that failed wrote: its errors, then its output unless that is blank. -/
def diagnostics (r : ProgramResult) : String :=
  if (Text.trim r.stdout.toList).isEmpty then r.stderr
  else if r.stderr.isEmpty || r.stderr.toList.getLast? = some '\n' then r.stderr ++ r.stdout
  else r.stderr ++ "\n" ++ r.stdout

/-- What the end of the compiler means. -/
def outcome (c : CompilerCommand) (model : String) :
    Except FileFault ProgramResult → Except Error Unit
  | .error fault =>
    .error (.toolchain model none ("could not start `" ++ c.program ++ "`: " ++ fault.message))
  | .ok r => if r.status = some 0 then .ok () else .error (.toolchain model r.status (diagnostics r))

variable {m : Type → Type} [Monad m] [FileAccess m]

def toolchain (c : CompilerCommand) : Toolchain m where
  extension := c.artifactExtension
  compile r := do
    return c.outcome r.model (← FileAccess.launch c.program (c.arguments r) r.buildDir)

end CompilerCommand

end ProcessModel
