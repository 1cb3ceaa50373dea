import ProcessModel.Dialect
import ProcessModel.Files.Path
import ProcessModel.Solver.Settings
import ProcessModel.Toml.Decode

/-! Configurations of generation, simulation and building. -/

namespace ProcessModel

inductive ExecutionMode
  | generated | reference
  deriving DecidableEq, Repr

namespace ExecutionMode

def name : ExecutionMode → String
  | .generated => "generated"
  | .reference => "reference"

def ofName? (s : String) : Option ExecutionMode :=
  [generated, reference].find? fun m => m.name == s

end ExecutionMode

structure GeneratorSettings where
  outputDir : String := "."
  subdir : String := "autogen"
  unitPrefix : String := "c_"
  extension : String := "c"
  dialect : Dialect := {}
  mode : ExecutionMode := .generated
  deriving DecidableEq, Repr

namespace GeneratorSettings

def unitDir (g : GeneratorSettings) : String := Path.join g.outputDir g.subdir

def unitFile (g : GeneratorSettings) (model : String) : String :=
  g.unitPrefix ++ model ++ "." ++ g.extension

def fault? (g : GeneratorSettings) : Option ConfigFault :=
  ([("unit_extension", g.extension), ("accumulator_prefix", g.dialect.accumulator),
    ("fastaccess_marker", g.dialect.fastMarker), ("slowpath_marker", g.dialect.slowMarker),
    ("helper_module", g.dialect.helpers)].find? fun s => s.2.isEmpty).map
    fun s => .emptySetting s.1

end GeneratorSettings

structure CompilerCommand where
  program : String := "cc"
  args : List String := ["-std=c99", "-O2", "-shared", "-fPIC"]
  linkArgs : List String := ["-lm"]
  artifactExtension : String := "so"
  deriving DecidableEq, Repr

structure BuildSettings where
  compiler : CompilerCommand := {}
  artifactDir : String := "lib"
  /-- The directory the compiler works in, if not one below the units. -/
  buildDir : Option String := none
  deriving DecidableEq, Repr

structure Config where
  generator : GeneratorSettings := {}
  solver : Settings Float := .standard
  build : BuildSettings := {}

namespace Config

open Toml

def generatorFields : List String :=
  ["output_dir", "autogen_subdir", "unit_prefix", "unit_extension", "accumulator_prefix",
    "fastaccess_marker", "slowpath_marker", "helper_module", "mode"]

def generator? (t : Toml) : Option GeneratorSettings := do
  let r ← record? generatorFields false t
  let d : GeneratorSettings := {}
  return {
    outputDir := ← r.optional "output_dir" d.outputDir string?
    subdir := ← r.optional "autogen_subdir" d.subdir string?
    unitPrefix := ← r.optional "unit_prefix" d.unitPrefix string?
    extension := ← r.optional "unit_extension" d.extension string?
    dialect := {
      accumulator := ← r.optional "accumulator_prefix" d.dialect.accumulator string?
      fastMarker := ← r.optional "fastaccess_marker" d.dialect.fastMarker string?
      slowMarker := ← r.optional "slowpath_marker" d.dialect.slowMarker string?
      helpers := ← r.optional "helper_module" d.dialect.helpers string? }
    mode := ← r.optional "mode" d.mode fun v => (alternative? v).bind ExecutionMode.ofName? }

def solverFields : List String :=
  ["abs_error_max", "rel_error_max", "rel_dt_min", "rel_dt_max", "dt_increase", "dt_decrease",
    "accepts_before_growth"]

def solver? (t : Toml) : Option (Settings Float) := do
  let r ← record? solverFields false t
  let d : Settings Float := .standard
  return {
    absErrorMax := ← r.optional "abs_error_max" d.absErrorMax Toml.float?
    relErrorMax := ← r.optional "rel_error_max" d.relErrorMax fun v => (Toml.float? v).map some
    relDtMin := ← r.optional "rel_dt_min" d.relDtMin Toml.float?
    relDtMax := ← r.optional "rel_dt_max" d.relDtMax Toml.float?
    dtIncrease := ← r.optional "dt_increase" d.dtIncrease Toml.float?
    dtDecrease := ← r.optional "dt_decrease" d.dtDecrease Toml.float?
    acceptsBeforeGrowth := ← r.optional "accepts_before_growth" d.acceptsBeforeGrowth
      (nat? (Nat.pow 2 32 - 1)) }

/-- A compiler; the table names its type, of which there is one. -/
def compiler? (t : Toml) : Option CompilerCommand := do
  let es ← entries? t
  let r ← record? [] false (.table es)
  if (← r.required "type" string?) ≠ "CommandToolchain" then none
  let d : CompilerCommand := {}
  return {
    program := ← r.optional "program" d.program string?
    args := ← r.optional "args" d.args (list? string?)
    linkArgs := ← r.optional "link_args" d.linkArgs (list? string?)
    artifactExtension := ← r.optional "artifact_extension" d.artifactExtension string? }

def build? (t : Toml) : Option BuildSettings := do
  let r ← record? ["toolchain", "artifact_dir", "build_dir"] false t
  let d : BuildSettings := {}
  return {
    compiler := ← r.optional "toolchain" d.compiler compiler?
    artifactDir := ← r.optional "artifact_dir" d.artifactDir string?
    buildDir := ← r.optional "build_dir" d.buildDir fun v => (string? v).map some }

/-- The configuration that a document describes. All settings have defaults, and other tables and
keys do not count. -/
def ofText? (text : String) : Option Config := do
  let r ← record? ["generator", "solver", "build"] false (.table (← parse? text))
  return {
    generator := ← r.optional "generator" {} generator?
    solver := ← r.optional "solver" .standard solver?
    build := ← r.optional "build" {} build? }

def fault? (c : Config) : Option ConfigFault :=
  (c.solver.fault?.map .solver).or c.generator.fault?

def check (c : Config) : Except Error Config :=
  match c.fault? with
  | some fault => .error (.config fault)
  | none => .ok c

end Config

end ProcessModel
