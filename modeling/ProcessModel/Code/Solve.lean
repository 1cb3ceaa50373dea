import ProcessModel.Code.Scaffold

/-! The functions of a unit that integrate a model. -/

namespace ProcessModel.Code

def integrated (d : Definition) : List (GroupKind × Variable) :=
  [GroupKind.fluxes, .states].flatMap fun k => (d.numeric k).map fun v => (k, v)

/-- The buffers of all integrated variables: the buffer, its member and the members of its
variable. -/
def buffers (d : Definition) : List (Buffer × String × String) :=
  (integrated d).flatMap fun (k, v) =>
    (v.buffers k).map fun b =>
      (b, groupAccess k ++ b.fieldName v.name, groupAccess k ++ "_" ++ v.name)

def rowsFactor : Buffer → String
  | .points => "(self->numconsts.nmb_stages + 1) * "
  | .results => "(self->numconsts.nmb_methods + 1) * "
  | .integrals | .sum => ""

def freeNumerics (m : Model) : Function :=
  selfFunction m "free_numerics" true
    ((buffers m.definition).flatMap fun (_, field, _) =>
      plainLines [s!"free({field});", s!"{field} = NULL;"])

def allocateNumerics (m : Model) : Function :=
  { selfFunction m "allocate_numerics" true
      (((buffers m.definition).flatMap fun (b, field, x) =>
        plainLine (s!"{field} = (double *) calloc((size_t) (" ++ rowsFactor b ++
          s!"{x}_length), sizeof(double));") ++
        guarded s!"{field} == NULL" (plainLines [callSelf m.name "free_numerics", "return 1;"])) ++
      plainLine "return 0;") with
    result := "int" }

/-- Something done for every element of the integrated variables of a kind: `body` is given the
variable's own member, the start of the names of its other members and the element's number. -/
def forNumeric (d : Definition) (k : GroupKind) (body : String → String → String → Lines) : Lines :=
  (d.numeric k).flatMap fun v =>
    forElements (groupAccess k) v.name v.ndim fun p =>
      body (groupAccess k ++ v.name ++ p.indices) (groupAccess k ++ "_" ++ v.name) p.number

def bufferFunction (m : Model) (routine : String) (k : GroupKind)
    (body : String → String → String → Lines) : Function :=
  selfFunction m routine false
    (countersOf (m.definition.numeric k) ++ forNumeric m.definition k body)

def keepFunction (m : Model) (routine : String) (k : GroupKind) (b : Buffer) (row : String) :
    Function :=
  let role := b.name
  bufferFunction m routine k fun element x i =>
    plainLine s!"{x}_{role}[self->numvars.{row} * {x}_length + {i}] = {element};"

/-- The weighted sum of the fluxes at the stages so far, times the step size. -/
def integrateFluxes (m : Model) : Function :=
  selfFunction m "integrate_fluxes" false
    (plainLine "int jdx;" ++ countersOf (m.definition.numeric .fluxes) ++
      forNumeric m.definition .fluxes fun element x i =>
        plainLine s!"{element} = 0.0;" ++
        block "for (jdx = 0; jdx < self->numvars.idx_stage; jdx++)"
          (plainLine (s!"{element} += self->numconsts.a_coefs[self->numvars.idx_method - 1]" ++
            s!"[self->numvars.idx_stage - 1][jdx] * {x}_points[jdx * {x}_length + {i}];")) ++
        plainLines [s!"{element} = self->numvars.dt * {element};",
          s!"{x}_integrals[{i}] = {element};"])

def calculateError (m : Model) : Function :=
  selfFunction m "calculate_error" false
    (plainLines ["double diff;", "double result;"] ++ countersOf (m.definition.numeric .fluxes) ++
      plainLines ["self->numvars.abserror = 0.0;", "self->numvars.relerror = 0.0;"] ++
      forNumeric m.definition .fluxes fun _ x i =>
        plainLines [
          s!"result = {x}_results[self->numvars.idx_method * {x}_length + {i}];",
          s!"diff = fabs(result - {x}_results[(self->numvars.idx_method - 1) * {x}_length + {i}]);",
          "self->numvars.abserror = fmax(self->numvars.abserror, diff);"] ++
        guarded "self->numvars.use_relerror"
          (choice [("result == 0.0", plainLine "self->numvars.relerror = INFINITY;")]
            (some (plainLine ("self->numvars.relerror = " ++
              "fmax(self->numvars.relerror, fabs(diff / result));")))))

def extrapolateLines (error : String) : Lines :=
  let estimate := number noEstimate
  choice [
    ("self->numvars.idx_method <= 2",
      plainLine s!"self->numvars.extrapolated_{error} = {estimate};"),
    (s!"self->numvars.{error} > 0.0",
      plainLine (s!"self->numvars.extrapolated_{error} = exp(log(self->numvars.{error}) + " ++
        s!"(log(self->numvars.{error}) - log(self->numvars.last_{error})) * " ++
        "(self->numconsts.nmb_methods - self->numvars.idx_method));")),
    (s!"self->numvars.{error} == 0.0",
      plainLine s!"self->numvars.extrapolated_{error} = 0.0;")]
    (some (plainLine s!"self->numvars.extrapolated_{error} = {estimate};"))

def extrapolateError (m : Model) : Function :=
  selfFunction m "extrapolate_error" false
    (extrapolateLines "abserror" ++ extrapolateLines "relerror")

def acceptStep (m : Model) : Function :=
  selfFunction m "accept_step" false
    (plainLines [callSelf m.name "addup_fluxes", "self->numvars.t0 += self->numvars.dt;",
        callSelf m.name "new2old", "self->numvars.f0_ready = false;",
        "self->numvars.nmb_accepted++;"] ++
      guarded "self->numvars.nmb_accepted >= self->numconsts.accepts_before_growth"
        (plainLine ("self->numvars.dt_est = fmin(fmax(self->numvars.dt_est, self->numvars.dt) * " ++
          "self->numconsts.dt_increase, self->parameters.solver.reldtmax);")))

def rejectStep (m : Model) : Function :=
  selfFunction m "reject_step" false (plainLines [
    "self->numvars.dt_est = fmax(self->numvars.dt / self->numconsts.dt_decrease, " ++
      "self->parameters.solver.reldtmin);",
    "self->numvars.f0_ready = true;", "self->numvars.nmb_accepted = 0;"])

def bufferFunctions (m : Model) : List Function := [
  keepFunction m "set_point_states" .states .points "idx_stage",
  keepFunction m "set_point_fluxes" .fluxes .points "idx_stage",
  keepFunction m "set_result_states" .states .results "idx_method",
  keepFunction m "set_result_fluxes" .fluxes .results "idx_method",
  integrateFluxes m,
  bufferFunction m "reset_sum_fluxes" .fluxes fun _ x i => plainLine s!"{x}_sum[{i}] = 0.0;",
  bufferFunction m "addup_fluxes" .fluxes fun _ x i =>
    plainLine s!"{x}_sum[{i}] += {x}_integrals[{i}];",
  bufferFunction m "get_sum_fluxes" .fluxes fun element x i =>
    plainLine s!"{element} = {x}_sum[{i}];",
  calculateError m, extrapolateError m, acceptStep m, rejectStep m]

/-- Evaluate the right-hand side at the start of a trial unless it is known. -/
def startLines (n : String) : Lines :=
  guarded "!v->f0_ready" (plainLines [callSelf n "calculate_single_terms", "v->idx_stage = 0;",
    callSelf n "set_point_states", callSelf n "set_point_fluxes", "v->f0_ready = true;"])

def stageLines (n : String) : Lines :=
  block "for (v->idx_stage = 1; v->idx_stage <= v->idx_method; v->idx_stage++)"
    (plainLines [callSelf n "integrate_fluxes", callSelf n "calculate_full_terms",
        callSelf n "set_point_states"] ++
      guarded "v->idx_stage < v->idx_method"
        (plainLines [callSelf n "calculate_single_terms", callSelf n "set_point_fluxes"]))

/-- A decision ends the trial. -/
def decideLines (n routine : String) : Lines :=
  plainLines [callSelf n routine, "decided = true;", "break;"]

def decisionLines (n : String) : Lines :=
  guarded "v->idx_method >= 2"
    (plainLines [callSelf n "calculate_error", callSelf n "extrapolate_error"] ++
      guarded ("(v->abserror <= self->parameters.solver.abserrormax) || " ++
          "(v->use_relerror && (v->relerror <= self->parameters.solver.relerrormax))")
        (decideLines n "accept_step") ++
      guarded ("(v->dt > self->parameters.solver.reldtmin) && " ++
          "(v->extrapolated_abserror > self->parameters.solver.abserrormax) && " ++
          "(!v->use_relerror || " ++
          "(v->extrapolated_relerror > self->parameters.solver.relerrormax))")
        (decideLines n "reject_step") ++
      plainLines ["v->last_abserror = v->abserror;", "v->last_relerror = v->relerror;"])

def trialLines (n : String) : Lines :=
  plainLine ("v->dt = fmin(v->t1 - v->t0, fmin(self->parameters.solver.reldtmax, " ++
      "fmax(v->dt_est, self->parameters.solver.reldtmin)));") ++
    startLines n ++
    plainLines ["v->last_abserror = INFINITY;", "v->last_relerror = INFINITY;",
      "decided = false;"] ++
    block ("for (v->idx_method = 1; v->idx_method <= self->numconsts.nmb_methods; " ++
        "v->idx_method++)")
      (stageLines n ++
        plainLines [callSelf n "set_result_fluxes", callSelf n "set_result_states"] ++
        decisionLines n) ++
    guarded "!decided"
      (choice [("v->dt <= self->parameters.solver.reldtmin", plainLine (callSelf n "accept_step"))]
        (some (plainLine (callSelf n "reject_step"))))

def adaptiveSolve (m : Model) : Function :=
  let n := m.name
  selfFunction m "solve" true
    (plainLines [
        numVarsStructName n ++ " *v = &self->numvars;", "bool decided;", "v->nmb_calls = 0;",
        "v->use_relerror = !isnan(self->parameters.solver.relerrormax);", "v->t0 = 0.0;",
        "v->t1 = 1.0;", "v->dt_est = self->parameters.solver.reldtmax;", "v->f0_ready = false;",
        "v->nmb_accepted = 0;", callSelf n "reset_sum_fluxes"] ++
      block ("while (v->t0 < v->t1 - " ++ number timeEpsilon ++ ")") (trialLines n) ++
      plainLine (callSelf n "get_sum_fluxes"))

def directSolve (m : Model) : Function :=
  selfFunction m "solve" true (plainLines ["self->numvars.nmb_calls = 0;",
    callSelf m.name "calculate_single_terms", callSelf m.name "calculate_full_terms"])

def solveFunctions (m : Model) : List Function :=
  match m.plan with
  | .adaptive => [freeNumerics m, allocateNumerics m] ++ bufferFunctions m ++ [adaptiveSolve m]
  | .direct => [directSolve m]
  | .static => [selfFunction m "solve" true []]

/-- The functions of a model that come from no method. Only the model of a unit itself, not its
sub-models, is simulated. -/
def scaffoldFunctions (m : Model) (s : Settings Float) (root : Bool) : List Function :=
  (if m.plan = .adaptive then [initNumConsts m s] else []) ++
    [init m s root, newToOld m root] ++
    (if root then sequencers m ++ termFunctions m ++ solveFunctions m ++ [simulate m] else [])

end ProcessModel.Code
