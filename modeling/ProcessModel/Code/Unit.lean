import ProcessModel.Code.Headers
import ProcessModel.Code.Method
import ProcessModel.Code.Series
import ProcessModel.Code.Solve
import ProcessModel.Config

/-! Generated units: the code of a model and its sub-models. -/

namespace ProcessModel

/-- The code of a model and its sub-models, sub-models first. -/
structure GeneratedUnit where
  model : String
  sources : List String
  structs : List (List Code.Struct)
  series : List Code.Function
  methods : List Code.Function
  scaffold : List Code.Function

namespace GeneratedUnit

def functions (u : GeneratedUnit) : List Code.Function := u.series ++ u.methods ++ u.scaffold

def renderFunctions (fs : List Code.Function) : String :=
  String.join (fs.map fun f => f.render ++ "\n")

def trimEnd (text : String) : String := String.ofList (go text.toList.reverse).reverse
where
  go : List Char → List Char
    | '\n' :: '\n' :: rest => go ('\n' :: rest)
    | rest => rest

def heading (u : GeneratedUnit) : List String :=
  let model := u.model
  s!"/* Generated by modelgen for model `{model}`. Do not edit. */" ::
    if u.sources.isEmpty then [] else ["/* Sources: " ++ Text.joinWith ", " u.sources ++ " */"]

def includes : List String :=
  (Code.systemHeaders.map fun h => "#include <" ++ h ++ ">") ++
    Code.supportHeaders.map fun h => "#include \"" ++ h.1 ++ "\""

def text (u : GeneratedUnit) : String :=
  trimEnd <| Text.ofLines (u.heading ++ [""] ++ includes ++ [""]) ++
    String.join (u.structs.map fun ss => Code.renderStructs ss ++ "\n") ++
    Text.ofLines ((u.methods.map fun f => f.signature ++ ";") ++ [""]) ++
    renderFunctions u.functions

/-- A sub-model is reached through its helpers only. -/
def submodelFault? (m : Model) : Option DefinitionFault :=
  let kinds := MethodKind.all.filter fun k => k != .add && !(m.methodsOf k).isEmpty
  if kinds.isEmpty then none else some (.submodelMethods m.name (kinds.map MethodKind.name))

/-- Links are pointers or arrays of pointers. -/
def linkFault? (m : Model) : Option DefinitionFault :=
  (m.definition.groups.filter fun g => g.kind.isLink).findSome? fun g =>
    (g.vars.find? fun v => 1 < v.ndim).map fun v =>
      .linkRank g.kind.name v.name m.name v.ndim

/-- The first fault of a list of models, as a failure of a stage. -/
def checkAll (root : String) (stage : Stage) (fault? : Model → Option DefinitionFault)
    (models : List Model) : Except Error Unit :=
  match models.findSome? fault? with
  | some fault => .error ((Error.definition fault).inStage root stage)
  | none => .ok ()

def ofModel (m : Model) (settings : Settings Float) : Except Error GeneratedUnit := do
  let root := m.name
  let models := m.dependencyOrder
  checkAll root .scaffold submodelFault? (models.filter fun s => s.name != root)
  checkAll root .declarations linkFault? models
  let methods ← (models.flatMap fun s => s.methods.map fun f => Code.Function.ofMethod s f).mapM
    fun r => r.mapError (Error.inStage root .lowering)
  return {
    model := root
    sources := m.definition.sourcePaths.filterMap Path.fileName?
    structs := models.map Code.structs
    series := models.flatMap fun s => Code.seriesFunctions s (s.name == root)
    methods
    scaffold := models.flatMap fun s => Code.scaffoldFunctions s settings (s.name == root) }

end GeneratedUnit

structure UnitFile where
  model : String
  name : String
  text : String
  deriving DecidableEq, Repr

def UnitFile.assemble (g : GeneratorSettings) (settings : Settings Float) (d : Definition) :
    Except Error UnitFile := do
  let m ← Model.compile g.dialect d
  let u ← GeneratedUnit.ofModel m settings
  return ⟨d.name, g.unitFile d.name, u.text⟩

end ProcessModel
