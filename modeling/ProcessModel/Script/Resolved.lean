import ProcessModel.Script.Alias

/-! Method bodies whose names are resolved.

Every dotted chain of a body is matched with the names in force, the longest first, and followed
through the model: a variable becomes `self.<sub-models>.<family>.<group>.<variable>`, a called
method `self.<sub-models>.<method>`. -/

namespace ProcessModel

/-- What the names of a method body mean. -/
structure Scope where
  definition : Definition
  dialect : Dialect
  aliases : AliasTable
  /-- The variables of the model that the method may use, if it declares any. -/
  declared : Option (List (GroupRef × String)) := none

namespace Scope

def model (s : Scope) (owner : List String) : Except Construct Definition :=
  match s.definition.descend? owner with
  | some d => .ok d
  | none => .error (.unknownSubmodel (Text.joinWith "." owner))

/-- Follow one more name. Only the last name of a call can be a method. -/
def step (s : Scope) (call last : Bool) (segment : String) :
    Designation → Except Construct Designation
  | .model owner => do
    let d ← s.model owner
    match Family.ofName? segment with
    | some f => .ok (.family owner f)
    | none =>
      if (d.submodel? segment).isSome then .ok (.model (owner ++ [segment]))
      else if last && call && d.methods.contains segment then .ok (.method owner segment)
      else .error (.unknownMember segment d.name)
  | .family owner f => do
    let d ← s.model owner
    match GroupRef.ofName? f segment with
    | some g =>
      if (d.group? g.declaring).isSome then .ok (.group owner g)
      else .error (.unknownGroupIn segment f.name d.name)
    | none => .error (.unknownGroupIn segment f.name d.name)
  | .group owner g =>
    if segment = s.dialect.fastMarker then .ok (.group owner g)
    else do
      let d ← s.model owner
      if (d.group? g.declaring).isNone then .error (.unknownGroupOf g.name d.name)
      else if (d.var? g.declaring segment).isNone then
        .error (.unknownVariableIn segment g.name)
      else .ok (.var ⟨owner, g, segment⟩)
  | .var path => .error (.attributeOfVariable segment path.name)
  | .method _ name => .error (.attributeOfMethod segment name)

def walk (s : Scope) (call : Bool) (start : Designation) : List String → Except Construct Designation
  | [] => .ok start
  | segment :: rest => do s.walk call (← s.step call rest.isEmpty segment start) rest

/-- Where a chain starts, and the names to follow from there. -/
def start (s : Scope) (unknown : String → Construct) (chain : List String) :
    Except Construct (Designation × List String) :=
  match s.aliases.longest? chain with
  | some (n, target) => .ok (target, chain.drop n)
  | none =>
    if chain.head? = some "model" then .ok (.model [], chain.drop 1)
    else .error (unknown (Text.joinWith "." chain))

/-- What a chain to be named stands for: a model, a family or a group. -/
def target (s : Scope) (chain : List String) : Except Construct Designation := do
  let (first, rest) ← s.start .unknownTarget chain
  match ← s.walk false first rest with
  | .var _ | .method _ _ => .error (.unaliasable (Text.joinWith "." chain))
  | found => .ok found

def counterpart? : GroupRef → Option GroupRef
  | .oldStates => some (.kind .states)
  | .kind .states => some .oldStates
  | _ => none

/-- Whether the method may use a variable: one of a sub-model, or one it declares, the states and
the old states being one. -/
def permits (s : Scope) (path : VarPath) : Bool :=
  match s.declared with
  | none => true
  | some declared =>
    !path.owner.isEmpty || declared.contains (path.group, path.name) ||
      (counterpart? path.group).any fun g => declared.contains (g, path.name)

def chainTokens : List String → List Token
  | [] => []
  | s :: rest => .ofName s :: rest.flatMap fun s => [.ofOp ".", .ofName s]

/-- The tokens that take the place of a chain; `none` leaves a single name as it is. -/
def use (s : Scope) (chain : List String) (call : Bool) : Except Construct (Option (List Token)) :=
  let alone := chain.length = 1
  let unknown := (s.aliases.longest? chain).isNone
  let head := chain.headD ""
  if alone && call then .ok none
  else if alone && (head = "model" || s.aliases.isContainer head) then .error (.bareAlias head)
  else if alone && unknown then .ok none
  else if head = s.dialect.helpers && chain.length = 2 && unknown then
    .ok (some (chainTokens (chain.drop 1)))
  else do
    let (first, rest) ← s.start .unknownObject chain
    match ← s.walk call first rest with
    | .var path =>
      if s.permits path then
        .ok (some (chainTokens ("self" :: path.owner ++
          [path.group.family.name, path.group.name, path.name])))
      else .error (.undeclaredUse path.group.name path.name)
    | .method owner name => .ok (some (chainTokens ("self" :: owner ++ [name])))
    | _ => .error (.notAVariable (Text.joinWith "." chain))

/-- The names that follow a first one, each after a point, and the tokens behind them. -/
def chainRest : List Token → List String × List Token
  | d :: t :: rest =>
    if d.isOp "." && t.kind = .name then (t.text :: (chainRest rest).1, (chainRest rest).2)
    else ([], d :: t :: rest)
  | ts => ([], ts)

theorem chainRest_length (ts : List Token) : (chainRest ts).2.length ≤ ts.length := by
  fun_induction chainRest ts with
  | case1 d t rest h ih => simp only [List.length_cons]; omega
  | case2 => exact Nat.le_refl _
  | case3 => exact Nat.le_refl _

def tokens (s : Scope) (afterPoint : Bool) : List Token → Except Construct (List Token)
  | [] => .ok []
  | t :: rest =>
    if t.kind ≠ .name || afterPoint then do return t :: (← s.tokens (t.isOp ".") rest)
    else if t.text = "self" then .error .reservedSelf
    else
      have : (chainRest rest).2.length < (t :: rest).length :=
        Nat.lt_succ_of_le (chainRest_length rest)
      do
        let call := (chainRest rest).2.head?.any fun t => t.isOp "("
        let found ← s.use (t.text :: (chainRest rest).1) call
        return found.getD [t] ++ (← s.tokens false (chainRest rest).2)
termination_by ts => ts.length
decreasing_by
  · simp
  · exact this

/-- The names of a chain that consists of nothing but names and points. -/
def chainOf? : List Token → Option (List String)
  | [] => none
  | t :: rest =>
    if t.kind = .name && (chainRest rest).2.isEmpty then some (t.text :: (chainRest rest).1)
    else none

/-- The name and the chain of a binding `name = <chain>.<marker>`. -/
def binding? (marker : String) : List Token → Option (String × List String)
  | x :: eq :: rest =>
    match rest.reverse with
    | m :: d :: chain =>
      if x.kind = .name && eq.isOp "=" && m.isName marker && d.isOp "." then
        (chainOf? chain.reverse).map fun c => (x.text, c)
      else none
    | _ => none
  | _ => none

def bind (s : Scope) (line : LogicalLine) : Except Construct Scope :=
  match binding? s.dialect.fastMarker line.tokens with
  | none => .error (.misplacedMarker s.dialect.fastMarker)
  | some (name, chain) => do return { s with aliases := s.aliases.insert name (← s.target chain) }

open Script in
/-- The lines of a body with their names resolved, and the scope at its end. Statements on the slow
path are left out; bindings stay as they are. -/
def lines (s : Scope) : List LogicalLine → Except Unsupported (List LogicalLine × Scope)
  | [] => .ok ([], s)
  | l :: rest =>
    if l.containsName s.dialect.slowMarker then
      if l.isHeader then .error ⟨l.line, .slowHeader⟩ else s.lines rest
    else if l.containsName s.dialect.fastMarker then do
      let (ls, s') ← (← onLine l.line (s.bind l)).lines rest
      return (l :: ls, s')
    else do
      let ts ← onLine l.line (s.tokens false l.tokens)
      let (ls, s') ← s.lines rest
      return ({ l with tokens := ts } :: ls, s')

def withAliases (s : Scope) : List (String × String) → Except Construct Scope
  | [] => .ok s
  | (name, chain) :: rest => do
    let found ← s.target (Text.fields '.' chain)
    { s with aliases := s.aliases.insert name found }.withAliases rest

/-- The group of a declared reference: a name of one of the model's groups, or the group's own. -/
def declaredGroup? (s : Scope) (name : String) : Option GroupRef :=
  match s.aliases.longest? [name] with
  | some (_, .group [] g) => some g
  | _ => (GroupRef.ofName? .parameters name).or (GroupRef.ofName? .sequences name)

def declaredVariable (s : Scope) (r : DeclaredRef) : Except Construct (GroupRef × String) :=
  match (s.declaredGroup? r.group).filter
      fun g => (s.definition.var? g.declaring r.name).isSome with
  | some g => .ok (g, r.name)
  | none => .error (.declaredReference r.text)

def ofMethod (d : Definition) (dialect : Dialect) (m : MethodSource) : Except Construct Scope := do
  let s ← { definition := d, dialect, aliases := .shortcuts : Scope }.withAliases d.aliases
  if m.references.isEmpty then return s
  return { s with declared := some (← m.references.all.mapM s.declaredVariable) }

end Scope

structure ResolvedBody where
  lines : List LogicalLine
  /-- All names that were in force at the end. -/
  aliases : List String
  deriving DecidableEq, Repr

namespace ResolvedBody

def text (b : ResolvedBody) : String := linesText b.lines

open Script in
def ofMethod (d : Definition) (dialect : Dialect) (m : MethodSource) :
    Except Unsupported ResolvedBody := do
  let s ← onLine m.line (Scope.ofMethod d dialect m)
  let block ← tokensOf m.source m.line
  let (lines, s') ← s.lines (block.lines.drop 1)
  return ⟨lines, s'.aliases.names⟩

end ResolvedBody

end ProcessModel
