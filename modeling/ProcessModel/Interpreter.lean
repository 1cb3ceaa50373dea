import ProcessModel.Model
import ProcessModel.Store

/-! Running method bodies on the storage of a model.

Expressions and statements are evaluated along their trees; a bound limits the depth of nested
calls and the turns of every loop. What was written before a failure stays written. -/

namespace ProcessModel

namespace Interpreter

/-- The values of the running method and the storage of the whole model. -/
structure Frame where
  locals : Keyed Value
  store : Store

abbrev Exec := EStateM (Stop Error) Frame

abbrev OnStore := EStateM (Stop Error) Store

structure Context where
  body : Body
  owner : List String
  /-- How methods are called: the owner seen from the whole model, the name, the arguments. -/
  call : List String → String → List Value → OnStore (Option Value)
  bound : Nat

inductive Flow
  | next
  | ret (value : Option Value)

def onStore {α : Type} (action : OnStore α) : Exec α := fun f =>
  match action f.store with
  | .ok a s => .ok a { f with store := s }
  | .error e s => .error e { f with store := s }

def ofExcept {σ α : Type} : Except Error α → EStateM (Stop Error) σ α
  | .ok a => pure a
  | .error e => throw (.failed e)

def fault {α : Type} (c : Context) (f : RunFault) : Exec α := throw (.failed (.run c.body.name f))

def wholeNumber (c : Context) (v : Value) : Exec Int64 :=
  match v.toInt? with
  | some n => pure n
  | none => fault c (.notAnInteger v.toFloat)

mutual

def eval (c : Context) : Expr → Exec Value
  | .int n => pure (.int n)
  | .float x _ => pure (.float x)
  | .bool b => pure (.bool b)
  | .loc x => do
    match (← get).locals.get? x with
    | some v => return v
    | none => fault c (.unknownLocal x)
  | .var path indices => do
    let index ← evalIndices c indices
    let (element, raw) ← ofExcept ((← get).store.read (path.below c.owner) index)
    return .ofElement element raw
  | .unary op e => do return .unary op (← eval c e)
  | .binary .and l r => do
    if (← eval c l).isTrue then return .bool (← eval c r).isTrue
    return .bool false
  | .binary .or l r => do
    if (← eval c l).isTrue then return .bool true
    return .bool (← eval c r).isTrue
  | .binary op l r => do
    let a ← eval c l
    let b ← eval c r
    return .binary op a b
  | .call (.builtin f) args => do return .builtin f (← evalAll c args)
  | .call (.method owner name) args => do
    let values ← evalAll c args
    return (← onStore (c.call (c.owner ++ owner) name values)).getD (.float 0.0)

def evalAll (c : Context) : List Expr → Exec (List Value)
  | [] => pure []
  | e :: es => do
    let v ← eval c e
    return v :: (← evalAll c es)

def evalIndices (c : Context) : List Expr → Exec (List Int64)
  | [] => pure []
  | e :: es => do
    let i ← wholeNumber c (← eval c e)
    return i :: (← evalIndices c es)

end

def assign (c : Context) (x : String) (v : Value) : Exec Unit := do
  let f ← get
  match c.body.typeOf? x, f.locals.get? x with
  | some t, some _ => set { f with locals := f.locals.insert x (v.cast t) }
  | _, _ => fault c (.unknownLocal x)

def writeVar (path : VarPath) (index : List Int64) (v : Value) : Exec Unit := do
  let f ← get
  let s ← ofExcept (f.store.write path index v.toFloat)
  set { f with store := s }

def isBefore (step stop counter : Int64) : Bool :=
  (0 < step && counter < stop) || (step < 0 && stop < counter)

def countLoop (set : Int64 → Exec Unit) (body : Exec Flow) (step stop : Int64) :
    Nat → Int64 → Exec Flow
  | 0, _ => throw .exhausted
  | n + 1, counter => do
    set counter
    if isBefore step stop counter then
      match ← body with
      | .ret v => return .ret v
      | .next => countLoop set body step stop n (counter + step)
    else return .next

def testLoop (test : Exec Bool) (body : Exec Flow) : Nat → Exec Flow
  | 0 => throw .exhausted
  | n + 1 => do
    if ← test then
      match ← body with
      | .ret v => return .ret v
      | .next => testLoop test body n
    else return .next

mutual

def exec (c : Context) : Stmt → Exec Flow
  | .assign _ (.loc x) e => do
    assign c x (← eval c e)
    return .next
  | .assign _ (.var path indices) e => do
    let v ← eval c e
    let index ← evalIndices c indices
    writeVar (path.below c.owner) index v
    return .next
  | .count _ x start stop step body => do
    let start ← wholeNumber c (← eval c start)
    let stop ← wholeNumber c (← eval c stop)
    countLoop (fun n => assign c x (.int n)) (execAll c body) step stop c.bound start
  | .choose _ clauses otherwise => execClauses c clauses (execAll c otherwise)
  | .loop _ test body =>
    testLoop (do return (← eval c test).isTrue) (execAll c body) c.bound
  | .ret _ none => return .ret none
  | .ret _ (some e) => do return .ret (some (← eval c e))
  | .pass => return .next
  | .call _ e => do
    let _ ← eval c e
    return .next

def execAll (c : Context) : List Stmt → Exec Flow
  | [] => return .next
  | s :: rest => do
    match ← exec c s with
    | .ret v => return .ret v
    | .next => execAll c rest

def execClauses (c : Context) : List Clause → Exec Flow → Exec Flow
  | [], otherwise => otherwise
  | ⟨test, body⟩ :: rest, otherwise => do
    if (← eval c test).isTrue then execAll c body else execClauses c rest otherwise

end

def initialLocals (body : Body) (args : List Value) : Keyed Value :=
  .ofList (body.locals.map (fun l => (l.name, Value.cast l.type (.int 0))) ++
    (body.args.zip args).map fun p => (p.1.name, p.2.cast p.1.type))

/-- The body that a call runs, if the model has one for this number of arguments. -/
def target (model : Model) (owner : List String) (name : String) (count : Nat) :
    Except RunFault Body :=
  match model.descend? owner with
  | none => .error (.noSubmodel (Text.joinWith "." owner))
  | some m =>
    match m.method? name with
    | none => .error (.noMethod m.name)
    | some f =>
      if f.body.args.length = count then .ok f.body
      else .error (.argumentCount f.body.args.length count)

/-- Call method `name` of the model reached through `owner`. The value it returns, if any, is a
floating point number. -/
def call (model : Model) : Nat → List String → String → List Value → OnStore (Option Value)
  | 0, _, _, _ => throw .exhausted
  | n + 1, owner, name, args => fun store =>
    match target model owner name args.length with
    | .error f => .error (.failed (.run name f)) store
    | .ok body =>
      match execAll ⟨body, owner, call model n, n⟩ body.stmts ⟨initialLocals body args, store⟩ with
      | .ok (.ret (some v)) frame => .ok (some (.float v.toFloat)) frame.store
      | .ok _ frame => .ok none frame.store
      | .error e frame => .error e frame.store

/-- Run the methods of one kind, which take no arguments, in the order of their declaration. -/
def runMethods (model : Model) (bound : Nat) (kind : MethodKind) : OnStore Unit :=
  (model.methodsOf kind).forM fun f => do
    let _ ← call model bound [] f.name []

end Interpreter

end ProcessModel
