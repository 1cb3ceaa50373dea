import ProcessModel.Code.Element
import ProcessModel.Code.Struct

/-! The functions of a unit that load and save series.

Every function returns zero on success. After a failure the functions of a model close all its
files. -/

namespace ProcessModel.Code

inductive SeriesRoutine
  | closeFiles | openFiles | loadData | saveData
  deriving DecidableEq, Repr

namespace SeriesRoutine

def name : SeriesRoutine → String
  | .closeFiles => "close_files"
  | .openFiles => "open_files"
  | .loadData => "load_data"
  | .saveData => "save_data"

def takesStep : SeriesRoutine → Bool
  | .loadData | .saveData => true
  | _ => false

def params (r : SeriesRoutine) (struct : String) : List String :=
  selfParam struct :: if r.takesStep then ["int idx"] else []

def call (r : SeriesRoutine) (owner access : String) : String :=
  functionName owner r.name ++ "(" ++ access ++ (if r.takesStep then ", idx" else "") ++ ")"

end SeriesRoutine

def closeBody (vs : List Variable) : Lines :=
  vs.flatMap fun v =>
    let x := v.name
    guarded s!"self->_{x}_file != NULL"
      (plainLines [s!"fclose(self->_{x}_file);", s!"self->_{x}_file = NULL;"])

def openBody (struct : String) (vs : List Variable) : Lines :=
  vs.flatMap fun v =>
    let x := v.name
    guarded s!"self->_{x}_diskflag_reading || self->_{x}_diskflag_writing"
      (plainLines [
          s!"const char *mode = self->_{x}_diskflag_reading ? " ++
            s!"(self->_{x}_diskflag_writing ? \"r+b\" : \"rb\") : \"wb\";",
          s!"self->_{x}_file = fopen(self->_{x}_path, mode);"] ++
        guarded s!"self->_{x}_file == NULL"
          (plainLines [SeriesRoutine.closeFiles.call struct "self" ++ ";", "return 1;"]))

def seekLines (x : String) : Lines :=
  guarded (s!"fseek(self->_{x}_file, (long) idx * self->_{x}_length * (long) sizeof(double), " ++
    "SEEK_SET) != 0") (plainLine "return 1;")

def castFromDouble : Element → String
  | .float => ""
  | .int => "(int) "
  | .bool => "(bool) "

def transferLines (routine x : String) : Lines :=
  guarded s!"{routine}(&value, sizeof(double), 1, self->_{x}_file) != 1" (plainLine "return 1;")

def loadVariable (v : Variable) : Lines :=
  let x := v.name
  let cast := castFromDouble v.element
  choice [
    (s!"self->_{x}_diskflag_reading", seekLines x ++
      forElements "self->" x v.ndim fun p =>
        transferLines "fread" x ++
          plainLine ("self->" ++ x ++ p.indices ++ " = " ++ cast ++ "value;")),
    (s!"self->_{x}_ramflag", forElements "self->" x v.ndim fun p =>
      plainLine ("self->" ++ x ++ p.indices ++ " = " ++ cast ++
        s!"self->_{x}_array[idx * self->_{x}_length + " ++ p.number ++ "];"))] none

def saveVariable (v : Variable) : Lines :=
  let x := v.name
  guarded s!"self->_{x}_diskflag_writing" (seekLines x ++
      forElements "self->" x v.ndim fun p =>
        plainLine ("value = (double) self->" ++ x ++ p.indices ++ ";") ++
          transferLines "fwrite" x) ++
    guarded s!"self->_{x}_ramflag" (forElements "self->" x v.ndim fun p =>
      plainLine (s!"self->_{x}_array[idx * self->_{x}_length + " ++ p.number ++
        "] = (double) self->" ++ x ++ p.indices ++ ";"))

def groupBody (struct : String) (vs : List Variable) : SeriesRoutine → Lines
  | .closeFiles => closeBody vs
  | .openFiles => openBody struct vs
  | .loadData => countersOf vs ++ plainLine "double value;" ++ vs.flatMap loadVariable
  | .saveData => countersOf vs ++ plainLine "double value;" ++ vs.flatMap saveVariable

def groupRoutine (model : String) (g : Group) (r : SeriesRoutine) : Function :=
  let struct := groupStructName model g.kind
  { name := functionName struct r.name
    result := "int"
    params := r.params struct
    body := groupBody struct g.vars r ++ plainLine "return 0;" }

def routines : List SeriesRoutine := [.closeFiles, .openFiles, .loadData, .saveData]

def seriesGroups (d : Definition) : List Group :=
  (filledGroups d).filter fun g => g.kind.hasSeries

def partCalls (m : Model) (r : SeriesRoutine) : List String :=
  ((seriesGroups m.definition).map fun g =>
    r.call (groupStructName m.name g.kind)
      ("&self->" ++ g.kind.family.name ++ "." ++ g.kind.name)) ++
    m.submodels.map fun s => r.call s.2.name ("&self->" ++ s.1)

/-- What a routine of a model does: closing goes on in any case, the others stop at a failure. -/
def modelBody (m : Model) : SeriesRoutine → Lines
  | .closeFiles => plainLines ((partCalls m .closeFiles).map (· ++ ";"))
  | r => (partCalls m r).flatMap fun call =>
      guarded (call ++ " != 0")
        (plainLines [SeriesRoutine.closeFiles.call m.name "self" ++ ";", "return 1;"])

def modelRoutine (m : Model) (exported : Bool) (r : SeriesRoutine) : Function where
  name := functionName m.name r.name
  exported
  result := "int"
  params := r.params (modelStructName m.name)
  body := modelBody m r ++ plainLine "return 0;"

def seriesFunctions (m : Model) (exported : Bool) : List Function :=
  (seriesGroups m.definition).flatMap (fun g => routines.map (groupRoutine m.name g)) ++
    routines.map (modelRoutine m exported)

end ProcessModel.Code
