import ProcessModel.Build
import ProcessModel.Command.Help
import ProcessModel.Discovery
import ProcessModel.Scenario

/-! Running commands. -/

namespace ProcessModel

inductive CommandFault
  | library (error : Error)
  | configuration (path : String)
  | generatedMode
  | noManifests
  | keyValue (arg : String)
  | shape (arg : String)
  | values (arg : String)
  | step (idx : Nat)
  | generate (count : Nat)
  | check (count : Nat)
  | build (count : Nat)
  deriving DecidableEq, Repr

def CommandFault.message : CommandFault → String
  | .library e => e.message
  | .configuration path => s!"loading configuration {path}"
  | .generatedMode =>
    "the configuration selects generated execution; build the unit with `modelgen build` " ++
      "and load it from the host application, or pass --reference"
  | .noManifests => "no model manifests found"
  | .keyValue arg => s!"expected KEY=VALUE, got `{arg}`"
  | .shape arg => s!"invalid shape in `{arg}`"
  | .values arg => s!"invalid values in `{arg}`"
  | .step idx => s!"simulating step {idx}"
  | .generate count => s!"{count} model(s) failed to generate"
  | .check count => s!"{count} model(s) failed the check"
  | .build count => s!"{count} model(s) failed to build"

def CommandFault.code : CommandFault → Nat
  | .library e => if e.isFatal then 101 else 1
  | _ => 1

/-- What the program leaves: its exit code, what it printed, and the failure. -/
structure Outcome where
  code : Nat := 0
  stdout : List String := []
  error : Option String := none
  deriving DecidableEq, Repr

namespace Command

variable {m : Type → Type} [Monad m] [FileAccess m]

/-- Commands print lines and may fail; what was printed before a failure stays. -/
abbrev Action (m : Type → Type) := ExceptT CommandFault (StateT (List String) m)

def print (line : String) : Action m Unit := modify fun lines => lines ++ [line]

def onFiles {α : Type} (action : m α) : Action m α := ExceptT.lift (StateT.lift action)

/-- An action of the library, with its failure as a value unless that ends the program. -/
def attempt {α : Type} (action : ExceptT Error m α) : Action m (Except Error α) := do
  match ← onFiles action.run with
  | .ok a => return .ok a
  | .error e => if e.isFatal then throw (.library e) else return .error e

def ofResult {α : Type} (r : Except Error α) : Action m α :=
  match r with
  | .ok a => return a
  | .error e => throw (.library e)

def must {α : Type} (action : ExceptT Error m α) : Action m α := do ofResult (← attempt action)

def readConfig (path : String) : ExceptT Error m Config := do
  match Config.ofText? (← FileAccess.on path (FileAccess.readText path)) with
  | none => throw (.table path)
  | some c => (c.check : Except Error Config)

/-- The configuration of a command; without a path all settings have their defaults. -/
def loadConfig : Option String → Action m Config
  | none => return {}
  | some path => do
    match ← attempt (readConfig path) with
    | .ok c => return c
    | .error _ => throw (.configuration path)

def countFailures (models : List Definition) (action : Definition → Action m Bool) :
    Action m Nat :=
  models.foldlM (fun n d => do return if ← action d then n else n + 1) 0

def writeAnyway (c : Config) (d : Definition) : ExceptT Error m Unit := do
  let u ← (Build.assemble c d : Except Error UnitFile)
  Build.writeHeaders c
  let _ ← Build.write c u

def generateAll (c : Config) (models : List Definition) (force : Bool) : Action m Unit := do
  if models.isEmpty then throw .noManifests
  let failed ← countFailures models fun d => do
    let r ← attempt (if force then writeAnyway c d else do let _ ← Build.refresh c d)
    return r.toBool
  if failed ≠ 0 then throw (.generate failed)

def checkLine (model : Model) (u : UnitFile) : String :=
  let name := model.name
  let methods := model.methods.length
  let plan := model.plan.name
  let lines := (Text.lines u.text.toList).length
  let file := u.name
  s!"{name}: {methods} method(s), {plan} integration, {lines} line unit {file}"

def compileUnit (c : Config) (d : Definition) : Except Error (Model × UnitFile) := do
  let model ← Model.compile c.generator.dialect d
  return (model, ← Build.assemble c d)

def checkOne (c : Config) (staleness : Bool) (d : Definition) : Action m Bool := do
  match ← attempt (ExceptT.mk (pure (compileUnit c d))) with
  | .error _ => return false
  | .ok (model, u) =>
    print (checkLine model u)
    if staleness then
      let state := if ← must (Build.isStale c d) then "stale" else "up to date"
      print ("  " ++ Build.unitPath c d ++ ": " ++ state)
    return true

def checkAll (c : Config) (models : List Definition) (staleness : Bool) : Action m Unit := do
  let failed ← countFailures models (checkOne c staleness)
  if failed ≠ 0 then throw (.check failed)

def buildOne (c : Config) (compiler : CompilerCommand) (failFast : Bool) (d : Definition) :
    Action m Bool := do
  match ← attempt (Build.build c d compiler.toolchain) with
  | .ok artifact =>
    print artifact
    return true
  | .error e => if failFast then throw (.library e) else return false

def buildAll (c : Config) (models : List Definition) (compiler : Option String) (failFast : Bool) :
    Action m Unit := do
  if models.isEmpty then throw .noManifests
  let command := (compiler.map fun p => { program := p }).getD c.build.compiler
  let failed ← countFailures models (buildOne c command failFast)
  if failed ≠ 0 then throw (.build failed)

def keyValue (arg : String) : Except CommandFault (String × String) :=
  match Text.splitOnce '=' arg.toList with
  | some (key, value) => .ok (String.ofList (Text.trim key), String.ofList (Text.trim value))
  | none => .error (.keyValue arg)

def items (text : String) : List String := (Text.fields ',' text).map Text.trimmed

def applyShape (store : Store) (arg : String) : Except CommandFault Store := do
  let (key, dims) ← keyValue arg
  match (items dims).mapM Decimal.nat64? with
  | none => throw (.shape arg)
  | some shape => (store.setShape key shape).mapError .library

def applyValues (store : Store) (arg : String) : Except CommandFault Store := do
  let (key, texts) ← keyValue arg
  match (items texts).mapM Decimal.float? with
  | none => throw (.values arg)
  | some values =>
    let slot ← (store.slot key).mapError .library
    match slot.ndim, values with
    | 0, [value] => (store.setScalar key value).mapError .library
    | _, _ => (store.setFlat key values.toArray).mapError .library

def applyAll (r : SimulateRequest) (store : Store) : Except CommandFault Store := do
  let store ← r.shapes.foldlM applyShape store
  let store ← r.values.foldlM applyValues store
  return store.newToOld

def addSeries (plan : String → SeriesPlan) (args : List String) (cs : Channels) :
    Except CommandFault Channels :=
  args.foldlM (fun cs arg => do
    let (key, path) ← keyValue arg
    return cs.configure key (plan path)) cs

/-- The simulation of a manifest, which starts from zeros, or of a bundled model. -/
def prepare (c : Config) (model : String) : ExceptT Error m Simulation := do
  let dialect := c.generator.dialect
  if ← (FileAccess.isFile model : m Bool) then
    let d ← Manifest.load model
    (Simulation.ofDefinition dialect c.solver d : Except Error Simulation)
  else
    (match model with
      | "decay" => Scenario.decay dialect c.solver 1.0 1.0
      | "counter" => Scenario.counter dialect c.solver 1.0 0.0
      | "lstorage" => Scenario.lstorage dialect c.solver [1.0, 2.0] 0.1 0.0 0.0
      | name => Scenario.simulation dialect c.solver name : Except Error Simulation)

def simulateSteps : Nat → Nat → Simulation → Action m Simulation
  | 0, _, s => return s
  | n + 1, idx, s => do
    match ← onFiles (s.simulate idx) with
    | (s, .ok ()) => simulateSteps n (idx + 1) s
    | (_, .error _) => throw (.step idx)

def slotLine (key : String) (slot : Slot) : String :=
  key ++ " = " ++ Text.bracketed (slot.data.toList.map Decimal.literal.render)

def isPrinted (key : String) : Bool :=
  [GroupKind.states, .fluxes].any fun k => Text.startsWith key.toList (k.name ++ ".").toList

def simulateModel (c : Config) (r : SimulateRequest) : Action m Unit := do
  if c.generator.mode = .generated && !r.reference then throw .generatedMode
  let s ← must (prepare c r.model)
  let store ← (applyAll r s.store : Except CommandFault Store)
  let channels ← (addSeries SeriesPlan.readFrom r.inputs s.channels : Except CommandFault Channels)
  let channels ← (addSeries SeriesPlan.writeTo r.outputs channels : Except CommandFault Channels)
  let (channels, opened) ← onFiles (channels.openAll)
  ofResult opened
  let s ← simulateSteps r.steps 0 { s with store, channels }
  for (key, slot) in s.store do
    if isPrinted key then print (slotLine key slot)

def listOne (materialize : Option String) (model : BundledModel) : Action m Unit := do
  print (if model.requires.isEmpty then model.name
    else model.name ++ " (uses " ++ Text.joinWith ", " model.requires ++ ")")
  match materialize with
  | none => return
  | some dir =>
    let _ ← must (Bundle.materialize model.name dir)

/-- Run a command under a configuration; the file of the configuration is no manifest. -/
def execute (c : Config) (ignore : List String) : Command → Action m Unit
  | .generate paths force => do generateAll c (← must (Discovery.load paths ignore)) force
  | .check paths staleness => do checkAll c (← must (Discovery.load paths ignore)) staleness
  | .build paths compiler failFast => do
    buildAll c (← must (Discovery.load paths ignore)) compiler failFast
  | .simulate request => simulateModel c request
  | .list materialize => Bundle.all.forM (listOne materialize)

def run (args : List String) : m Outcome := do
  match CommandLine.parse args with
  | .error .invalid => return { code := 2 }
  | .error .version => return { stdout := [CommandLine.versionText] }
  | .error (.help topic) => return { stdout := CommandLine.helpLines topic }
  | .ok i =>
    let action : Action m Unit := do
      execute (← loadConfig i.config) i.config.toList i.command
    match ← action.run.run [] with
    | (.ok (), stdout) => return { stdout }
    | (.error fault, stdout) =>
      return { code := fault.code, stdout, error := some fault.message }

end Command

end ProcessModel
