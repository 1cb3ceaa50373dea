import ProcessModel.Command.Words

/-! The commands of the program and how they are given. -/

namespace ProcessModel

structure SimulateRequest where
  /-- A bundled model or the path of a manifest. -/
  model : String
  steps : Nat := 1
  shapes : List String := []
  values : List String := []
  inputs : List String := []
  outputs : List String := []
  /-- Interpret the model whatever the configuration says. -/
  reference : Bool := false
  deriving DecidableEq, Repr

inductive Command
  | generate (paths : List String) (force : Bool)
  | check (paths : List String) (staleness : Bool)
  | build (paths : List String) (compiler : Option String) (failFast : Bool)
  | simulate (request : SimulateRequest)
  | list (materialize : Option String)
  deriving DecidableEq, Repr

structure Invocation where
  config : Option String
  command : Command
  deriving DecidableEq, Repr

namespace CommandLine

structure CommandSpec where
  about : String
  options : List OptionSpec := []
  operand : Option OperandSpec := none
  deriving DecidableEq, Repr

def globalOptions : List OptionSpec := [
  { long := "log-level", short := some 'l', value := some ("LOG_LEVEL", .text)
    help := "Log level (trace, debug, info, warn, error)", fallback := some "info" },
  { long := "config", short := some 'c', value := some ("CONFIG", .path)
    help := "Configuration file; defaults apply when omitted" }]

def pathsOperand : OperandSpec where
  name := "PATHS"
  kind := .path
  help := "Manifests, or directories searched for manifests"
  many := true

def generateSpec : CommandSpec where
  about := "Write generated units that are missing or stale"
  options := [{ long := "force", help := "Regenerate even when the unit is up to date" }]
  operand := some pathsOperand

def checkSpec : CommandSpec where
  about := "Run the generation pipeline without writing anything"
  options := [{ long := "staleness", help := "Also report whether the unit on disk is stale" }]
  operand := some pathsOperand

def buildSpec : CommandSpec where
  about := "Generate units and hand them to the configured toolchain"
  options := [
    { long := "compiler", value := some ("COMPILER", .text)
      help := "Compiler program, overriding the configured toolchain" },
    { long := "fail-fast", help := "Stop at the first model that fails" }]
  operand := some pathsOperand

def simulateSpec : CommandSpec where
  about := "Simulate a model with the reference runtime"
  options := [
    { long := "steps", short := some 's', value := some ("STEPS", .count)
      help := "Number of macro steps", fallback := some "1" },
    { long := "shape", value := some ("KEY=DIMS", .text), repeats := true
      help := "Resize a variable before assigning values, e.g. `states.s=3`" },
    { long := "set", value := some ("KEY=VALUES", .text), repeats := true
      help := "Assign values in row-major order, e.g. `control.k=0.5` or `control.area=1,2`" },
    { long := "input", value := some ("KEY=PATH", .text), repeats := true
      help := "Read a sequence from a file of native-endian doubles" },
    { long := "output", value := some ("KEY=PATH", .text), repeats := true
      help := "Write a sequence to a file of native-endian doubles" },
    { long := "reference"
      help := "Run with the reference runtime even if the configuration selects generated units" }]
  operand := some {
    name := "MODEL", kind := .text, help := "Name of a bundled model or path of a manifest" }

def listSpec : CommandSpec where
  about := "List the bundled models"
  options := [{ long := "materialize", value := some ("DIR", .path)
                help := "Write every bundled model below this directory" }]

inductive Verb
  | generate | check | build | simulate | list
  deriving DecidableEq, Repr

namespace Verb

def all : List Verb := [.generate, .check, .build, .simulate, .list]

def name : Verb → String
  | .generate => "generate"
  | .check => "check"
  | .build => "build"
  | .simulate => "simulate"
  | .list => "list"

def ofName? (s : String) : Option Verb := all.find? fun v => v.name == s

def spec : Verb → CommandSpec
  | .generate => generateSpec
  | .check => checkSpec
  | .build => buildSpec
  | .simulate => simulateSpec
  | .list => listSpec

def command? (w : Words) : Verb → Option Command
  | .generate => some (.generate w.operands (w.has "force"))
  | .check => some (.check w.operands (w.has "staleness"))
  | .build => some (.build w.operands (w.value? "compiler") (w.has "fail-fast"))
  | .simulate => w.operands.head?.map fun model => .simulate {
      model
      steps := ((w.value? "steps").bind Decimal.nat64?).getD 1
      shapes := w.values "shape"
      values := w.values "set"
      inputs := w.values "input"
      outputs := w.values "output"
      reference := w.has "reference" }
  | .list => some (.list (w.value? "materialize"))

end Verb

def helpSpec : CommandSpec where
  about := "Print this message or the help of the given subcommand(s)"
  operand := some {
    name := "COMMAND", kind := .text, help := "Print help for the subcommand(s)"
    many := true, canLack := true }

def helpName : String := "help"

inductive Topic
  | program
  | command (verb : Verb)
  | help
  deriving DecidableEq, Repr

/-- How a command line ends that gives no command. -/
inductive Ending
  | help (topic : Topic)
  | version
  | invalid
  deriving DecidableEq, Repr

def Ending.ofFault (topic : Topic) : WordFault → Ending
  | .help => .help topic
  | .version => .version
  | .invalid => .invalid

def helpEnding : List String → Ending
  | [] => .help .program
  | [name] =>
    match Verb.ofName? name with
    | some verb => .help (.command verb)
    | none => if name = helpName then .help .help else .invalid
  | _ => .invalid

def parseCommand (verb : Verb) (args : List String) : Except Ending (Words × Command) := do
  let spec := verb.spec
  let (w, extra) ← (scan (spec.options ++ globalOptions ++ [helpOption]) spec.operand args
    {}).mapError (.ofFault (.command verb))
  let w ← w.settle.mapError (.ofFault (.command verb))
  if !(extra.isEmpty || extra = ["--"]) then throw .invalid
  if spec.operand.isSome && w.operands.isEmpty then throw .invalid
  match verb.command? w with
  | some command => return (w, command)
  | none => throw .invalid

/-- Read a command line. The options of the program may stand before and after the name of the
command; those after it win. Help on a command comes before a fault of the option that stands just
before its name. -/
def parse (args : List String) : Except Ending Invocation := do
  let (top, rest) ← (scan (globalOptions ++ [helpOption, versionOption]) none args {}).mapError
    (.ofFault .program)
  match rest with
  | [] => throw .invalid
  | name :: rest =>
    if name = helpName then throw (helpEnding rest)
    match Verb.ofName? name with
    | none => throw .invalid
    | some verb =>
      let (w, command) ← parseCommand verb rest
      let top ← top.settle.mapError (.ofFault .program)
      return ⟨(w.value? "config").or (top.value? "config"), command⟩

end CommandLine

end ProcessModel
