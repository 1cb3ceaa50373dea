import ProcessModel.Files.Path
import ProcessModel.Keyed
import ProcessModel.Method

/-! Model definitions: the groups, methods, references, aliases and sub-models of a model.

`Definition.build` checks a draft and brings it into canonical form. -/

namespace ProcessModel

structure Source where
  path : String
  text : String
  deriving DecidableEq, Repr

structure Definition where
  name : String
  manifest : Option String := none
  sources : List Source := []
  groups : List Group := []
  methods : MethodLists := {}
  references : Keyed References := []
  /-- Further names, dotted ones too, for the models and groups they stand for. -/
  aliases : Keyed String := []
  submodels : List (String × Definition) := []

/-- How a model advances over one step. -/
inductive Plan
  /-- Trials of several orders with estimated errors. -/
  | adaptive
  /-- Every right-hand side once, then every update once. -/
  | direct
  /-- There is nothing to integrate. -/
  | static
  deriving DecidableEq, Repr

def Plan.name : Plan → String
  | .adaptive => "Adaptive"
  | .direct => "Direct"
  | .static => "None"

namespace Definition

def group? (d : Definition) (k : GroupKind) : Option Group := d.groups.find? fun g => g.kind == k

def var? (d : Definition) (k : GroupKind) (name : String) : Option Variable :=
  (d.group? k).bind fun g => g.get? name

def submodel? (d : Definition) (name : String) : Option Definition :=
  (d.submodels.find? fun s => s.1 == name).map (·.2)

def descend? (d : Definition) : List String → Option Definition
  | [] => some d
  | name :: rest => (d.submodel? name).bind fun s => s.descend? rest

def isNumeric (d : Definition) : Bool := d.groups.any fun g => !g.numeric.isEmpty

def plan (d : Definition) : Plan :=
  if !d.methods.partOde.isEmpty && d.isNumeric then .adaptive
  else if !d.methods.partOde.isEmpty || !d.methods.fullOde.isEmpty then .direct
  else .static

def numeric (d : Definition) (k : GroupKind) : List Variable :=
  ((d.group? k).map Group.numeric).getD []

def hasOldStates (d : Definition) : Bool := (d.group? .states).any fun g => !g.isEmpty

def hasFamily (d : Definition) (f : Family) : Bool :=
  d.groups.any fun g => g.kind.family == f && !g.isEmpty

mutual

/-- Append the files of a model to a list, each unless it is there: its manifest if `manifests`, its
sources, then those of its sub-models. -/
def collectPaths (manifests : Bool) : Definition → List String → List String
  | ⟨_, manifest, sources, _, _, _, _, submodels⟩, paths =>
    collectPathsAll manifests submodels
      (((if manifests then manifest.toList else []) ++ sources.map (·.path)).foldl
        Path.insertNew paths)

def collectPathsAll (manifests : Bool) : List (String × Definition) → List String → List String
  | [], paths => paths
  | (_, d) :: rest, paths => collectPathsAll manifests rest (collectPaths manifests d paths)

end

/-- Files whose change makes a generated unit stale. -/
def contributors (d : Definition) : List String := d.collectPaths true []

def sourcePaths (d : Definition) : List String := d.collectPaths false []

def reservedNames : List String :=
  ["model", "self", "parameters", "sequences", "numconsts", "numvars"]

def solverParameters : List String := ["abserrormax", "relerrormax", "reldtmin", "reldtmax"]

def sortGroups (groups : List Group) : List Group :=
  groups.mergeSort fun a b => a.kind.rank ≤ b.kind.rank

def repeatedKind? : List Group → Option GroupKind
  | a :: b :: rest => if a.kind = b.kind then some a.kind else repeatedKind? (b :: rest)
  | _ => none

/-- The first fault in a list of methods that follow the methods `before` them. -/
def methodFault? (model : String) (before : List String) :
    List (MethodKind × String) → Option DefinitionFault
  | [] => none
  | (kind, name) :: rest =>
    if !isIdentifier name then some (.methodName kind.name name model)
    else if before.contains name then some (.methodTwice name model)
    else methodFault? model (name :: before) rest

/-- The first fault in a list of sub-model names that follow the names `before` them. -/
def submodelFault? (d : Definition) (before : List String) : List String → Option DefinitionFault
  | [] => none
  | name :: rest =>
    if !isIdentifier name || reservedNames.contains name || d.methods.contains name ||
        before.contains name then
      some (.submodelName name d.name)
    else submodelFault? d (name :: before) rest

def fault? (d : Definition) : Option DefinitionFault :=
  if !isIdentifier d.name then some (.modelName d.name) else
  ((repeatedKind? d.groups).map fun k => DefinitionFault.groupTwice d.name k.name).or <|
  (d.groups.findSome? Group.fault?).or <|
  (methodFault? d.name [] d.methods.entries).or <|
  ((d.references.keys.find? fun m => !d.methods.contains m).map
    fun m => DefinitionFault.referencesOfUnknown m d.name).or <|
  (submodelFault? d [] (d.submodels.map (·.1))).or <|
  ((d.aliases.keys.find? fun a => !(Text.fields '.' a).all isIdentifier).map
    fun a => DefinitionFault.aliasName a d.name)

def addSolverParameters (g : Group) : Group :=
  { g with vars := g.vars ++
      (solverParameters.filter fun n => (g.get? n).isNone).map fun n => { name := n } }

def withSolverParameters (d : Definition) : Definition :=
  let groups := if (d.group? .solver).isSome then d.groups
    else sortGroups (d.groups ++ [{ kind := .solver }])
  { d with groups := groups.map fun g => if g.kind = .solver then addSolverParameters g else g }

/-- The canonical form of a draft: groups in order, solver parameters present where the model is
integrated adaptively. A draft with a fault is refused. -/
def build (draft : Definition) : Except DefinitionFault Definition :=
  let d := { draft with groups := sortGroups draft.groups }
  match d.fault? with
  | some fault => .error fault
  | none => .ok (if d.plan = .adaptive then d.withSolverParameters else d)

end Definition

end ProcessModel
