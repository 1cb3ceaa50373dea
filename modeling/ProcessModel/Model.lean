import ProcessModel.Tree.StmtParser

/-! Compiled models: definitions whose methods are read into trees. -/

namespace ProcessModel

structure Method where
  source : MethodSource
  body : Body

namespace Method

def name (m : Method) : String := m.source.name

def kind (m : Method) : MethodKind := m.source.kind

/-- Read method `name` of a definition through all stages. Only helpers take arguments and return
values. -/
def compile (d : Definition) (dialect : Dialect) (kind : MethodKind) (name : String) :
    Except Error Method := do
  let within {α : Type} (stage : Stage) (r : Except Error α) : Except Error α :=
    r.mapError (Error.inStage d.name stage)
  let source ← within .introspection (MethodSource.find d dialect.fastMarker name kind)
  if kind ≠ .add && !source.args.isEmpty then
    throw ((Error.unsupported d.name name source.line .argumentsOutsideAdd).inStage d.name
      .introspection)
  let resolved ← within .resolution
    (Script.inMethod d.name name (ResolvedBody.ofMethod d dialect source))
  let normal ← within .normalization
    (Script.inMethod d.name name
      (NormalBody.ofLines dialect name source.args source.locals resolved.lines))
  let body ← within .parsing
    (Script.inMethod d.name name (Body.ofNormal d name kind source.doc normal))
  if kind ≠ .add && body.returnsValue then
    throw ((Error.unsupported d.name name source.line .valueOutsideAdd).inStage d.name .parsing)
  return ⟨source, body⟩

end Method

structure Model where
  definition : Definition
  methods : List Method
  submodels : List (String × Model)

namespace Model

def name (m : Model) : String := m.definition.name

def plan (m : Model) : Plan := m.definition.plan

def method? (m : Model) (name : String) : Option Method := m.methods.find? fun f => f.name == name

def methodsOf (m : Model) (kind : MethodKind) : List Method :=
  m.methods.filter fun f => f.kind == kind

def submodel? (m : Model) (name : String) : Option Model :=
  (m.submodels.find? fun s => s.1 == name).map (·.2)

def descend? (m : Model) : List String → Option Model
  | [] => some m
  | name :: rest => (m.submodel? name).bind fun s => s.descend? rest

mutual

def postorder : Model → List Model
  | ⟨d, methods, submodels⟩ => postorderAll submodels ++ [⟨d, methods, submodels⟩]

def postorderAll : List (String × Model) → List Model
  | [] => []
  | (_, m) :: rest => postorder m ++ postorderAll rest

end

def distinctNames : List String → List Model → List Model
  | _, [] => []
  | seen, m :: rest =>
    if seen.contains m.name then distinctNames seen rest
    else m :: distinctNames (m.name :: seen) rest

def dependencyOrder (m : Model) : List Model := distinctNames [] m.postorder

mutual

/-- Read all methods of a definition, those of its sub-models first. -/
def read (dialect : Dialect) : Definition → Except Error Model
  | ⟨name, manifest, sources, groups, methods, references, aliases, submodels⟩ => do
    let d : Definition := ⟨name, manifest, sources, groups, methods, references, aliases, submodels⟩
    let subs ← readAll dialect submodels
    let compiled ← d.methods.entries.mapM fun e => Method.compile d dialect e.1 e.2
    return ⟨d, compiled, subs⟩

def readAll (dialect : Dialect) : List (String × Definition) → Except Error (List (String × Model))
  | [] => .ok []
  | (name, d) :: rest => do
    let m ← read dialect d
    let ms ← readAll dialect rest
    return (name, m) :: ms

end

/-- What is wrong with a call: it names no method, or one with another number of arguments. -/
def callFault? (m : Model) : Expr → Option Construct
  | .call (.method owner name) args =>
    match (m.descend? owner).bind fun s => s.method? name with
    | none => some (.unknownMethod name)
    | some f =>
      if f.body.args.length = args.length then none
      else some (.arity name f.body.args.length args.length)
  | _ => none

/-- What is wrong with the use of a call as a value: the method returns none. -/
def valueFault? (m : Model) : Expr → Option Construct
  | .call (.method owner name) _ =>
    if ((m.descend? owner).bind fun s => s.method? name).any fun f => f.body.returnsValue then none
    else some (.noValue name)
  | _ => none

def methodFault? (m : Model) (f : Method) : Option Construct :=
  (f.body.methodCalls.findSome? fun o => m.callFault? o.expr).or
    (f.body.valueCalls.findSome? fun o => m.valueFault? o.expr)

mutual

/-- The first method of a tree with a faulty call: its model, the method and the fault. -/
def treeFault? : Model → Option (String × Method × Construct)
  | ⟨d, methods, submodels⟩ =>
    (methods.findSome? fun f =>
      (methodFault? ⟨d, methods, submodels⟩ f).map fun c => (d.name, f, c)).or
      (treeFaultAll? submodels)

def treeFaultAll? : List (String × Model) → Option (String × Method × Construct)
  | [] => none
  | (_, m) :: rest => (treeFault? m).or (treeFaultAll? rest)

end

/-- Read a definition and check all calls in its tree. -/
def compile (dialect : Dialect) (d : Definition) : Except Error Model := do
  let m ← read dialect d
  match m.treeFault? with
  | none => return m
  | some (model, f, cause) =>
    throw ((Error.unsupported model f.name f.source.line cause).inStage d.name .parsing)

end Model

end ProcessModel
