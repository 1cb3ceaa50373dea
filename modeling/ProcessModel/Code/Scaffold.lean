import ProcessModel.Code.Element
import ProcessModel.Code.Struct

/-! The functions of a unit that prepare a model and put its methods in order. -/

namespace ProcessModel.Code

def selfFunction (m : Model) (routine : String) (exported : Bool) (body : Lines) : Function where
  name := functionName m.name routine
  exported
  params := [selfParam (modelStructName m.name)]
  body

def groupAccess (k : GroupKind) : String := "self->sequences." ++ k.name ++ "."

def number (x : Float) : String := Decimal.literal.render x

/-- The weights of all methods that are not zero, with their places counted from zero. -/
def weightLines : Lines :=
  (List.range RungeKutta.methods).flatMap fun method =>
    (List.range RungeKutta.methods).flatMap fun stage =>
      (List.range RungeKutta.methods).flatMap fun point =>
        let w : Float := RungeKutta.weight (method + 1) (stage + 1) point
        if w == 0.0 then []
        else plainLine (s!"self->numconsts.a_coefs[{method}][{stage}][{point}] = " ++ number w ++ ";")

def initNumConsts (m : Model) (s : Settings Float) : Function :=
  let n := RungeKutta.methods
  let accepts := s.acceptsBeforeGrowth
  selfFunction m "init_numconsts" false
    (plainLines [
        "memset(self->numconsts.a_coefs, 0, sizeof(self->numconsts.a_coefs));",
        s!"self->numconsts.nmb_methods = {n};",
        s!"self->numconsts.nmb_stages = {n};",
        "self->numconsts.dt_increase = " ++ number s.dtIncrease ++ ";",
        "self->numconsts.dt_decrease = " ++ number s.dtDecrease ++ ";",
        s!"self->numconsts.accepts_before_growth = {accepts};"] ++
      weightLines)

def parameterWords (s : Settings Float) : List String :=
  [number s.absErrorMax, (s.relErrorMax.map number).getD "NAN", number s.relDtMin,
    number s.relDtMax]

/-- The series of a variable are off and its buffers are not there. -/
def initVariable (adaptive : Bool) (k : GroupKind) (v : Variable) : Lines :=
  let g := groupAccess k
  let x := v.name
  (if k.hasSeries then plainLines [
      s!"{g}_{x}_diskflag_reading = false;", s!"{g}_{x}_diskflag_writing = false;",
      s!"{g}_{x}_ramflag = false;", s!"{g}_{x}_file = NULL;"] else []) ++
    (if adaptive then plainLines ((v.buffers k).map fun b => g ++ b.fieldName x ++ " = NULL;")
      else [])

def submodelCalls (m : Model) (routine : String) : Lines :=
  plainLines (m.submodels.map fun s =>
    functionName s.2.name routine ++ "(&self->" ++ s.1 ++ ");")

def init (m : Model) (s : Settings Float) (exported : Bool) : Function :=
  let adaptive : Bool := m.plan = .adaptive
  selfFunction m "init" exported
    ((if adaptive then plainLine (callSelf m.name "init_numconsts") else []) ++
      (if m.plan = .static then []
        else plainLines (numVars.map fun v => "self->numvars." ++ v.1.name ++ " = " ++ v.2 ++ ";")) ++
      (if adaptive then plainLines ((Definition.solverParameters.zip (parameterWords s)).map fun p =>
        "self->parameters.solver." ++ p.1 ++ " = " ++ p.2 ++ ";") else []) ++
      (m.definition.groups.flatMap fun g => g.vars.flatMap (initVariable adaptive g.kind)) ++
      submodelCalls m "init")

def stateVariables (d : Definition) : List Variable :=
  ((d.group? .states).map (·.vars)).getD []

def newToOld (m : Model) (exported : Bool) : Function :=
  let states := stateVariables m.definition
  selfFunction m "new2old" exported
    (countersOf states ++
      (states.flatMap fun v => forElements (groupAccess .states) v.name v.ndim fun p =>
        plainLine ("self->sequences.old_states." ++ v.name ++ p.indices ++ " = " ++
          groupAccess .states ++ v.name ++ p.indices ++ ";")) ++
      submodelCalls m "new2old")

def methodCalls (m : Model) (k : MethodKind) : Lines :=
  plainLines ((m.methodsOf k).map fun f => callSelf m.name f.name)

def sequencers (m : Model) : List Function :=
  [("update_inlets", MethodKind.inlet), ("run", .run), ("update_outlets", .outlet),
    ("update_receivers", .receiver), ("update_senders", .sender)].map fun p =>
    selfFunction m p.1 true (methodCalls m p.2)

def termFunctions (m : Model) : List Function :=
  if m.plan = .static then []
  else [
    selfFunction m "calculate_single_terms" false
      (plainLine "self->numvars.nmb_calls++;" ++ methodCalls m .partOde),
    selfFunction m "calculate_full_terms" false (methodCalls m .fullOde)]

def simulate (m : Model) : Function :=
  let transfer := fun routine =>
    guarded (functionName m.name routine ++ "(self, idx) != 0") (plainLine "return 1;")
  { name := functionName m.name "simulate"
    exported := true
    result := "int"
    params := [selfParam (modelStructName m.name), "int idx"]
    body := transfer "load_data" ++
      plainLines (["update_inlets", "solve", "run", "update_outlets", "new2old"].map
        (callSelf m.name)) ++
      transfer "save_data" ++ plainLine "return 0;" }

end ProcessModel.Code
