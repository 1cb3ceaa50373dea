import ProcessModel.Code.Line
import ProcessModel.Decimal.Layout
import ProcessModel.Model
import ProcessModel.Solver.State

/-! The structs that hold the variables of a model. -/

namespace ProcessModel.Code

/-- A member: `pointers` counts the stars before its name, `extents` are the lengths of an array. -/
structure Member where
  name : String
  type : String
  pointers : Nat := 0
  extents : List Nat := []
  deriving DecidableEq, Repr

def Member.declare (m : Member) : String :=
  m.type ++ " " ++ String.ofList (List.replicate m.pointers '*') ++ m.name ++
    String.join (m.extents.map fun n => s!"[{n}]") ++ ";"

structure Struct where
  name : String
  members : List Member
  deriving DecidableEq, Repr

def Struct.render (s : Struct) : String :=
  Lines.render (plainLine ("typedef struct " ++ s.name ++ " \x7b") ++
    nested (plainLines (s.members.map Member.declare)) ++ plainLine ("\x7d " ++ s.name ++ ";"))

def groupStructName (model : String) (k : GroupKind) : String := model ++ "_" ++ k.structName

def oldStatesStructName (model : String) : String := model ++ "_OldStateSequences"

def familyStructName (model : String) (f : Family) : String := model ++ "_" ++ f.structName

def numConstsStructName (model : String) : String := model ++ "_NumConsts"

def numVarsStructName (model : String) : String := model ++ "_NumVars"

/-- The member that holds a variable. A link points to the variable of another model. -/
def valueMember (k : GroupKind) (v : Variable) : Member :=
  if k.isLink then { name := v.name, type := "double", pointers := v.ndim + 1 }
  else { name := v.name, type := v.element.cType, pointers := v.ndim }

def lengthMembers (v : Variable) : List Member :=
  let x := v.name
  [⟨s!"_{x}_ndim", "int", 0, []⟩, ⟨s!"_{x}_length", "int", 0, []⟩] ++
    (List.range v.ndim).map fun axis => ⟨s!"_{x}_length_{axis}", "int", 0, []⟩

def seriesMembers (x : String) : List Member :=
  [⟨s!"_{x}_diskflag_reading", "bool", 0, []⟩, ⟨s!"_{x}_diskflag_writing", "bool", 0, []⟩,
    ⟨s!"_{x}_path", "char", 1, []⟩, ⟨s!"_{x}_file", "FILE", 1, []⟩,
    ⟨s!"_{x}_ramflag", "bool", 0, []⟩, ⟨s!"_{x}_array", "double", 1, []⟩]

def bufferMembers (k : GroupKind) (v : Variable) : List Member :=
  (v.buffers k).map fun b => ⟨b.fieldName v.name, "double", 1, []⟩

def variableMembers (adaptive : Bool) (k : GroupKind) (v : Variable) : List Member :=
  valueMember k v ::
    ((if k.family = .sequences then lengthMembers v else []) ++
      (if k.hasSeries then seriesMembers v.name else []) ++
      (if adaptive then bufferMembers k v else []))

def groupStruct (model : String) (adaptive : Bool) (g : Group) : Struct where
  name := groupStructName model g.kind
  members := g.vars.flatMap (variableMembers adaptive g.kind)

def oldStatesStruct (model : String) (states : Group) : Struct where
  name := oldStatesStructName model
  members := states.vars.map (valueMember .states)

def filledGroups (d : Definition) : List Group := d.groups.filter fun g => !g.isEmpty

def familyStruct (d : Definition) (f : Family) : Struct where
  name := familyStructName d.name f
  members :=
    (((filledGroups d).filter fun g => g.kind.family == f).map fun g =>
      ⟨g.kind.name, groupStructName d.name g.kind, 0, []⟩) ++
    (if f = .sequences && d.hasOldStates then
      [⟨GroupRef.oldStates.name, oldStatesStructName d.name, 0, []⟩] else [])

def filledFamilies (d : Definition) : List Family :=
  [Family.parameters, .sequences].filter fun f => d.hasFamily f

def numConstsStruct (model : String) : Struct where
  name := numConstsStructName model
  members :=
    let n := RungeKutta.methods
    [⟨"nmb_methods", "int", 0, []⟩, ⟨"nmb_stages", "int", 0, []⟩, ⟨"dt_increase", "double", 0, []⟩,
      ⟨"dt_decrease", "double", 0, []⟩, ⟨"accepts_before_growth", "int", 0, []⟩,
      ⟨"a_coefs", "double", 0, [n, n, n]⟩]

def numVars : List (Member × String) :=
  let estimate := Decimal.literal.render noEstimate
  [(⟨"nmb_calls", "int", 0, []⟩, "0"), (⟨"idx_method", "int", 0, []⟩, "0"),
    (⟨"idx_stage", "int", 0, []⟩, "0"), (⟨"t0", "double", 0, []⟩, "0.0"),
    (⟨"t1", "double", 0, []⟩, "1.0"), (⟨"dt", "double", 0, []⟩, "1.0"),
    (⟨"dt_est", "double", 0, []⟩, "1.0"), (⟨"abserror", "double", 0, []⟩, "0.0"),
    (⟨"relerror", "double", 0, []⟩, "0.0"), (⟨"last_abserror", "double", 0, []⟩, "INFINITY"),
    (⟨"last_relerror", "double", 0, []⟩, "INFINITY"),
    (⟨"extrapolated_abserror", "double", 0, []⟩, estimate),
    (⟨"extrapolated_relerror", "double", 0, []⟩, estimate), (⟨"f0_ready", "bool", 0, []⟩, "false"),
    (⟨"use_relerror", "bool", 0, []⟩, "false"), (⟨"nmb_accepted", "int", 0, []⟩, "0")]

def numVarsStruct (model : String) : Struct where
  name := numVarsStructName model
  members := numVars.map (·.1)

def modelStruct (m : Model) : Struct where
  name := modelStructName m.name
  members :=
    ((filledFamilies m.definition).map fun f => ⟨f.name, familyStructName m.name f, 0, []⟩) ++
    (if m.plan = .adaptive then [⟨"numconsts", numConstsStructName m.name, 0, []⟩] else []) ++
    (if m.plan = .static then [] else [⟨"numvars", numVarsStructName m.name, 0, []⟩]) ++
    m.submodels.map fun s => ⟨s.1, modelStructName s.2.name, 0, []⟩

/-- The structs of a model; each follows those it has members of. -/
def structs (m : Model) : List Struct :=
  let d := m.definition
  (filledGroups d).map (groupStruct d.name (m.plan = .adaptive)) ++
    ((filledGroups d).filter fun g => g.kind == .states).map (oldStatesStruct d.name) ++
    (filledFamilies d).map (familyStruct d) ++
    (if m.plan = .adaptive then [numConstsStruct d.name] else []) ++
    (if m.plan = .static then [] else [numVarsStruct d.name]) ++ [modelStruct m]

def renderStructs (ss : List Struct) : String := Text.joinWith "\n" (ss.map Struct.render)

end ProcessModel.Code
