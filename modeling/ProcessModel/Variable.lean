import ProcessModel.Error

/-! Variables of a model and the groups they are declared in. -/

namespace ProcessModel

/-- An ASCII letter or underscore, followed by such and digits. -/
def isIdentifier (name : String) : Bool :=
  match name.toList with
  | [] => false
  | c :: cs => (c.isAlpha || c == '_') && cs.all fun c => c.isAlphanum || c == '_'

inductive Element
  | bool | int | float
  deriving DecidableEq, Repr

namespace Element

def all : List Element := [.bool, .int, .float]

def name : Element → String
  | .bool => "bool"
  | .int => "int"
  | .float => "float"

def ofName? (s : String) : Option Element := all.find? fun e => e.name == s

def cType : Element → String
  | .bool => "bool"
  | .int => "int"
  | .float => "double"

end Element

inductive Family
  | parameters | sequences
  deriving DecidableEq, Repr

namespace Family

def name : Family → String
  | .parameters => "parameters"
  | .sequences => "sequences"

def ofName? (s : String) : Option Family :=
  if s = "parameters" then some .parameters
  else if s = "sequences" then some .sequences
  else none

def structName : Family → String
  | .parameters => "Parameters"
  | .sequences => "Sequences"

end Family

/-- The kinds of variable groups, in the order in which they are declared. -/
inductive GroupKind
  | control | derived | fixed | solver
  | inputs | factors | fluxes | states | logs | aides
  | inlets | outlets | receivers | senders
  deriving DecidableEq, Repr

namespace GroupKind

def all : List GroupKind :=
  [.control, .derived, .fixed, .solver, .inputs, .factors, .fluxes, .states, .logs, .aides,
    .inlets, .outlets, .receivers, .senders]

def rank (k : GroupKind) : Nat := k.ctorIdx

def family : GroupKind → Family
  | .control | .derived | .fixed | .solver => .parameters
  | _ => .sequences

def name : GroupKind → String
  | .control => "control"
  | .derived => "derived"
  | .fixed => "fixed"
  | .solver => "solver"
  | .inputs => "inputs"
  | .factors => "factors"
  | .fluxes => "fluxes"
  | .states => "states"
  | .logs => "logs"
  | .aides => "aides"
  | .inlets => "inlets"
  | .outlets => "outlets"
  | .receivers => "receivers"
  | .senders => "senders"

def ofName? (s : String) : Option GroupKind := all.find? fun k => k.name == s

/-- The short name every method body may use for the group. -/
def shortcut : GroupKind → String
  | .control => "con"
  | .derived => "der"
  | .fixed => "fix"
  | .solver => "sol"
  | .inputs => "inp"
  | .factors => "fac"
  | .fluxes => "flu"
  | .states => "sta"
  | .logs => "log"
  | .aides => "aid"
  | .inlets => "inl"
  | .outlets => "out"
  | .receivers => "rec"
  | .senders => "sen"

def structName : GroupKind → String
  | .control => "ControlParameters"
  | .derived => "DerivedParameters"
  | .fixed => "FixedParameters"
  | .solver => "SolverParameters"
  | .inputs => "InputSequences"
  | .factors => "FactorSequences"
  | .fluxes => "FluxSequences"
  | .states => "StateSequences"
  | .logs => "LogSequences"
  | .aides => "AideSequences"
  | .inlets => "InletSequences"
  | .outlets => "OutletSequences"
  | .receivers => "ReceiverSequences"
  | .senders => "SenderSequences"

def hasSeries : GroupKind → Bool
  | .inputs | .factors | .fluxes | .states => true
  | _ => false

def isLink : GroupKind → Bool
  | .inlets | .outlets | .receivers | .senders => true
  | _ => false

def isIntegrable : GroupKind → Bool
  | .fluxes | .states => true
  | _ => false

end GroupKind

/-- The buffers the solver keeps for an integrated variable. -/
inductive Buffer
  /-- Values at every stage of the current trial. -/
  | points
  /-- Results of every order of the current trial. -/
  | results
  /-- The integral of a flux over the current trial. -/
  | integrals
  /-- The sum of a flux over the accepted trials. -/
  | sum
  deriving DecidableEq, Repr

namespace Buffer

def name : Buffer → String
  | .points => "points"
  | .results => "results"
  | .integrals => "integrals"
  | .sum => "sum"

def fieldName (b : Buffer) (x : String) : String := s!"_{x}_" ++ b.name

end Buffer

structure Variable where
  name : String
  ndim : Nat := 0
  element : Element := .float
  /-- Whether it takes part in numerical integration. -/
  numeric : Bool := false
  deriving DecidableEq, Repr

def maxRank : Nat := 3

def Variable.buffers (v : Variable) (k : GroupKind) : List Buffer :=
  if v.numeric then
    match k with
    | .states => [.points, .results]
    | .fluxes => [.points, .results, .integrals, .sum]
    | _ => []
  else []

structure Group where
  kind : GroupKind
  vars : List Variable := []
  deriving DecidableEq, Repr

namespace Group

def get? (g : Group) (name : String) : Option Variable := g.vars.find? fun v => v.name == name

def isEmpty (g : Group) : Bool := g.vars.isEmpty

def numeric (g : Group) : List Variable := g.vars.filter (·.numeric)

/-- The first fault of variable `v`, which follows the variables `before` it. -/
def variableFault? (kind : GroupKind) (before : List Variable) (v : Variable) :
    Option DefinitionFault :=
  if !isIdentifier v.name then some (.variableName v.name kind.name)
  else if before.any fun w => w.name == v.name then some (.variableTwice v.name kind.name)
  else if maxRank < v.ndim then some (.rank v.name kind.name v.ndim maxRank)
  else if v.numeric && (!kind.isIntegrable || v.element != .float) then
    some (.notIntegrable v.name kind.name)
  else if kind.isLink && v.element != .float then some (.linkElement v.name kind.name)
  else none

def faultFrom? (kind : GroupKind) : List Variable → List Variable → Option DefinitionFault
  | _, [] => none
  | before, v :: rest => (variableFault? kind before v).or (faultFrom? kind (before ++ [v]) rest)

def fault? (g : Group) : Option DefinitionFault := faultFrom? g.kind [] g.vars

end Group

/-- A group as a method body sees it: one of the declared groups, or the states at the start of the
step. -/
inductive GroupRef
  | kind (k : GroupKind)
  | oldStates
  deriving DecidableEq, Repr

namespace GroupRef

def name : GroupRef → String
  | .kind k => k.name
  | .oldStates => "old_states"

def family : GroupRef → Family
  | .kind k => k.family
  | .oldStates => .sequences

def declaring : GroupRef → GroupKind
  | .kind k => k
  | .oldStates => .states

def ofName? (family : Family) (s : String) : Option GroupRef :=
  if family = .sequences ∧ s = "old_states" then some .oldStates
  else ((GroupKind.ofName? s).filter fun k => k.family = family).map .kind

end GroupRef

/-- A variable as seen from a model: the sub-models on the way to its owner, its group, its name. -/
structure VarPath where
  owner : List String := []
  group : GroupRef
  name : String
  deriving DecidableEq, Repr

namespace VarPath

/-- The key of the variable's storage, such as `states.y` or `loss.control.c`. -/
def key (p : VarPath) : String := Text.joinWith "." (p.owner ++ [p.group.name, p.name])

/-- The same variable seen from a model further up. -/
def below (p : VarPath) (owner : List String) : VarPath := { p with owner := owner ++ p.owner }

def member (p : VarPath) : String :=
  Text.joinWith "." (p.owner ++ [p.group.family.name, p.group.name, p.name])

/-- The variable as it is written in method bodies after all names are resolved. -/
def text (p : VarPath) : String := "self." ++ p.member

end VarPath

end ProcessModel
