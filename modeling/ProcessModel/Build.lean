import ProcessModel.Code.Unit
import ProcessModel.Toolchain

/-! Writing units and building their artifacts.

A unit is stale if it is missing or if a file that contributes to it changed after it. It is written
under another name first and then renamed, so that a failure leaves the unit before it in place. -/

namespace ProcessModel.Build

def unitPath (c : Config) (d : Definition) : String :=
  Path.join c.generator.unitDir (c.generator.unitFile d.name)

def assemble (c : Config) (d : Definition) : Except Error UnitFile :=
  UnitFile.assemble c.generator c.solver d

variable {m : Type → Type} [Monad m] [FileAccess m]

open FileAccess

/-- Whether one of the files changed after a time. Every file up to it must exist. -/
def anyNewer (time : Nat) : List String → ExceptT Error m Bool
  | [] => return false
  | path :: rest => do
    if time < (← on path (stat path)).modified then return true
    else anyNewer time rest

/-- Whether a model's unit is missing or older than a file that contributes to it. -/
def isStale (c : Config) (d : Definition) : ExceptT Error m Bool := do
  let path := unitPath c d
  match ← (stat path : m (Except FileFault FileStat)) with
  | .ok s => anyNewer s.modified d.contributors
  | .error .notFound => return true
  | .error fault => throw (.file path fault)

def inStage {α : Type} (model : String) (stage : Stage) (action : ExceptT Error m α) :
    ExceptT Error m α :=
  tryCatchThe Error action fun e => throw (e.inStage model stage)

/-- Write a file beside its place, then rename it. -/
def replaceFile (dir tmp path text : String) : ExceptT Error m Unit := do
  on dir (createDirs dir)
  on tmp (writeText tmp text)
  on path (rename tmp path)

def write (c : Config) (u : UnitFile) : ExceptT Error m String := do
  let dir := c.generator.unitDir
  let path := Path.join dir u.name
  let tmp := Path.join dir ("." ++ u.name ++ ".tmp")
  match ← ExceptT.lift (replaceFile dir tmp path u.text : ExceptT Error m Unit).run with
  | .ok () => return path
  | .error e =>
    let _ ← (remove tmp : m (Except FileFault Unit))
    throw (e.inStage u.model .writing)

def writeHeader (path text : String) : ExceptT Error m Unit := do
  match ← (readText path : m (Except FileFault String)) with
  | .ok current => if current = text then return
  | .error _ => pure ()
  on path (writeText path text)

def writeHeaders (c : Config) : ExceptT Error m Unit := do
  let dir := c.generator.unitDir
  on dir (createDirs dir)
  for (name, text) in Code.supportHeaders do
    writeHeader (Path.join dir name) text

/-- Write the unit of a model if it is stale. Returns whether it was. -/
def refresh (c : Config) (d : Definition) : ExceptT Error m Bool := do
  if !(← isStale c d) then return false
  let u ← (assemble c d : Except Error UnitFile)
  inStage u.model .writing (writeHeaders c)
  let _ ← write c u
  return true

/-- Move a file; if it cannot be renamed it is copied and removed. -/
def relocate (source target : String) : ExceptT Error m Unit := do
  match ← (rename source target : m (Except FileFault Unit)) with
  | .ok () => return
  | .error _ =>
    let bytes ← on target (read source)
    on target (FileAccess.write target bytes)
    on source (remove source)

def locate? (name : String) : List String → m (Option String)
  | [] => return none
  | dir :: rest => do
    if ← isFile (Path.join dir name) then return some (Path.join dir name)
    else locate? name rest

def buildDir (c : Config) : String := c.build.buildDir.getD (Path.join c.generator.unitDir "build")

/-- Compile the unit of a model and move the artifact to its directory. -/
def handOver (c : Config) (d : Definition) (t : Toolchain m) : ExceptT Error m String := do
  on (buildDir c) (createDirs (buildDir c))
  let stem := (Path.fileStem? (unitPath c d)).getD d.name
  ExceptT.mk (t.compile {
    model := d.name, unitPath := unitPath c d, includeDirs := [c.generator.unitDir]
    buildDir := buildDir c, stem })
  let artifact := stem ++ "." ++ t.extension
  let searched := [buildDir c, c.generator.unitDir]
  match ← (locate? artifact searched : m (Option String)) with
  | none => throw (.noArtifact d.name artifact searched)
  | some found =>
    on c.build.artifactDir (createDirs c.build.artifactDir)
    let target := Path.join c.build.artifactDir artifact
    relocate found target
    return target

/-- Bring the unit of a model up to date and build it. Returns the path of the artifact. -/
def build (c : Config) (d : Definition) (t : Toolchain m) : ExceptT Error m String := do
  let _ ← refresh c d
  inStage d.name .build (handOver c d t)

end ProcessModel.Build
