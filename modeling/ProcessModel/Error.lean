import ProcessModel.Decimal.Layout
import ProcessModel.Text.Quoted

/-! Causes of failure and their wording.

Every failure is a value that says what went wrong; the texts are in the `message` functions of
this module and nowhere else. -/

namespace ProcessModel

inductive Stage
  | introspection | resolution | normalization | parsing | declarations | lowering | scaffold
  | writing | build
  deriving DecidableEq, Repr

def Stage.all : List Stage :=
  [.introspection, .resolution, .normalization, .parsing, .declarations, .lowering, .scaffold,
    .writing, .build]

def Stage.title : Stage → String
  | .introspection => "source introspection"
  | .resolution => "variable reference rewriting"
  | .normalization => "statement normalization"
  | .parsing => "parsing"
  | .declarations => "declaration emission"
  | .lowering => "method lowering"
  | .scaffold => "integration scaffold synthesis"
  | .writing => "unit writing"
  | .build => "build handoff"

inductive LexFault
  | strayBackslash
  | openString
  | unmatched (bracket : String)
  | openBracket
  | character (c : Char)
  deriving DecidableEq, Repr

def LexFault.message : LexFault → String
  | .strayBackslash => "unexpected `\\` inside a line"
  | .openString => "unterminated string literal"
  | .unmatched bracket => s!"unmatched `{bracket}`"
  | .openBracket => "unclosed bracket at end of block"
  | .character c => s!"unexpected character `{c}`"

inductive Construct
  | lexical (fault : LexFault)
  | emptyBlock
  /-- The common indentation of a documentation ends inside a character. -/
  | splitCharacter
  | malformedHeader (text : String)
  | noBody
  | parameterForm
  | firstParameter
  | argumentsOutsideAdd
  | declaredReference (reference : String)
  | slowHeader
  | misplacedMarker (marker : String)
  | unaliasable (chain : String)
  | reservedSelf
  | bareAlias (name : String)
  | notAVariable (chain : String)
  | unknownObject (chain : String)
  | unknownTarget (chain : String)
  | unknownMember (segment model : String)
  | unknownGroupIn (segment family model : String)
  | unknownGroupOf (group model : String)
  | unknownVariableIn (segment group : String)
  | attributeOfVariable (segment name : String)
  | attributeOfMethod (segment name : String)
  | unknownSubmodel (path : String)
  | undeclaredUse (group name : String)
  | stringLiteral
  | unqualifiedMethod
  | undeclared (name : String)
  | unexpectedIndent
  | unexpectedDedent
  | noSuite
  | orphanClause (word : String)
  | unsupportedStatement (text : String)
  | valueStatement
  | malformedElse
  | malformedLoop
  | rangeStep
  | noCondition
  | assignmentTarget
  | mixedReturns
  | noExpression
  | unexpected (text : String)
  | expected (op : String)
  | chainedComparison
  | endOfExpression
  | invalidNumber (text : String)
  | unknownFunction (name : String)
  | arity (name : String) (expected got : Nat)
  | indexedLocal (name : String)
  | nameAfterDot
  | bareSelf
  | uncalled (name : String)
  | malformedReference (chain : String)
  | unknownGroup (name : String)
  | unknownPath (path : String)
  | dimensions (name : String) (declared got : Nat)
  | unknownMethod (name : String)
  | noValue (name : String)
  | valueOutsideAdd
  | loopCounter (name : String)
  deriving DecidableEq, Repr

def Construct.message : Construct → String
  | .lexical fault => fault.message
  | .emptyBlock => "empty method block"
  | .splitCharacter => "the indentation of the documentation ends inside a character"
  | .malformedHeader text => s!"malformed header `{text}`"
  | .noBody => "method has no indented body"
  | .parameterForm => "parameters may not carry defaults, annotations or unpacking"
  | .firstParameter => "the first parameter of a method must be `model`"
  | .argumentsOutsideAdd => "only add methods take arguments besides `model`"
  | .declaredReference reference => s!"declared reference `{reference}` does not name a variable"
  | .slowHeader => "a block header may not reference the slow path"
  | .misplacedMarker marker =>
    s!"`{marker}` may only appear in an alias binding `name = <group>.{marker}`"
  | .unaliasable chain => s!"`{chain}` cannot be aliased; only models and groups can"
  | .reservedSelf => "`self` is reserved and may not be used in method source"
  | .bareAlias name => s!"bare `{name}` cannot be used as a value"
  | .notAVariable chain => s!"`{chain}` does not designate a variable"
  | .unknownObject chain => s!"attribute access on unknown object `{chain}`"
  | .unknownTarget chain => s!"attribute access on unknown alias target `{chain}`"
  | .unknownMember segment model =>
    s!"`{segment}` is neither a variable family, a sub-model nor a method of model `{model}`"
  | .unknownGroupIn segment family model =>
    s!"unknown group `{segment}` in {family} of model `{model}`"
  | .unknownGroupOf group model => s!"unknown group `{group}` of model `{model}`"
  | .unknownVariableIn segment group => s!"unknown variable `{segment}` in group `{group}`"
  | .attributeOfVariable segment name => s!"attribute access `{segment}` on variable `{name}`"
  | .attributeOfMethod segment name => s!"attribute access `{segment}` on method `{name}`"
  | .unknownSubmodel path => s!"unknown sub-model `{path}`"
  | .undeclaredUse group name =>
    s!"`{group}.{name}` is used but not declared in the method\x27s references"
  | .stringLiteral => "string literals are not supported"
  | .unqualifiedMethod => "methods must be called through `model`"
  | .undeclared name => s!"undeclared identifier `{name}`"
  | .unexpectedIndent => "unexpected indent"
  | .unexpectedDedent => "unexpected dedent"
  | .noSuite => "expected an indented block"
  | .orphanClause word => s!"`{word}` without `if`"
  | .unsupportedStatement text => s!"unsupported statement `{text}`"
  | .valueStatement => "only method calls can be used as statements"
  | .malformedElse => "malformed `else`"
  | .malformedLoop => "loops must have the form `for name in range(...):`"
  | .rangeStep => "the step of a range must be a non-zero integer literal"
  | .noCondition => "expected `condition:`"
  | .assignmentTarget => "only locals and model variables can be assigned to"
  | .mixedReturns => "a method either always or never returns a value"
  | .noExpression => "expected an expression"
  | .unexpected text => s!"unexpected `{text}`"
  | .expected op => s!"expected `{op}`"
  | .chainedComparison => "chained comparisons are not supported"
  | .endOfExpression => "unexpected end of expression"
  | .invalidNumber text => s!"invalid number `{text}`"
  | .unknownFunction name => s!"unknown function `{name}`"
  | .arity name want got => s!"`{name}` takes {want} argument(s), got {got}"
  | .indexedLocal name => s!"local `{name}` cannot be indexed"
  | .nameAfterDot => "expected a name after `.`"
  | .bareSelf => "bare `self`"
  | .uncalled name => s!"`{name}` must be called"
  | .malformedReference chain => s!"malformed reference `self.{chain}`"
  | .unknownGroup name => s!"unknown group `{name}`"
  | .unknownPath path => s!"unknown variable `{path}`"
  | .dimensions name declared got =>
    s!"`{name}` has {declared} dimension(s) but is indexed with {got}"
  | .unknownMethod name => s!"call of unknown method `{name}`"
  | .noValue name => s!"`{name}` returns no value"
  | .valueOutsideAdd => "only add methods may return a value"
  | .loopCounter name => s!"loop variable `{name}` must be an integer local"

inductive DefinitionFault
  | stated (text : String)
  | modelName (name : String)
  | groupTwice (model group : String)
  | variableName (name group : String)
  | variableTwice (name group : String)
  | rank (name group : String) (ndim limit : Nat)
  | notIntegrable (name group : String)
  | linkElement (name group : String)
  | methodName (kind name model : String)
  | methodTwice (name model : String)
  | referencesOfUnknown (method model : String)
  | submodelName (name model : String)
  | aliasName (nick model : String)
  | referenceForm (item method : String)
  | unresolved (path : String)
  | cycle
  | noManifest (path : String)
  | noBundle (name : String) (known : List String)
  | submodelMethods (model : String) (kinds : List String)
  | linkRank (group name model : String) (ndim : Nat)
  deriving DecidableEq, Repr

def DefinitionFault.message : DefinitionFault → String
  | .stated text => text
  | .modelName name => s!"model name `{name}` is not a valid identifier"
  | .groupTwice model group => s!"model `{model}` declares group `{group}` twice"
  | .variableName name group => s!"`{name}` in group `{group}` is not a valid identifier"
  | .variableTwice name group => s!"variable `{name}` is declared twice in group `{group}`"
  | .rank name group ndim limit =>
    s!"variable `{name}` in group `{group}` has {ndim} dimensions, at most {limit} are supported"
  | .notIntegrable name group =>
    s!"variable `{name}` in group `{group}` cannot be numerically integrated; " ++
      "only float states and fluxes can"
  | .linkElement name group =>
    s!"link variable `{name}` in group `{group}` must be of type float"
  | .methodName kind name model =>
    s!"{kind} method `{name}` of model `{model}` is not a valid identifier"
  | .methodTwice name model => s!"method `{name}` of model `{model}` is classified more than once"
  | .referencesOfUnknown method model =>
    s!"references declared for unknown method `{method}` of model `{model}`"
  | .submodelName name model => s!"`{name}` cannot name a sub-model of `{model}`"
  | .aliasName nick model => s!"alias `{nick}` of model `{model}` is not a dotted identifier"
  | .referenceForm item method =>
    s!"reference `{item}` of method `{method}` must have the form `group.variable`"
  | .unresolved path => s!"manifest {path} was not resolved"
  | .cycle => "sub-model manifests form a cycle"
  | .noManifest path => s!"{path} is neither a manifest nor a directory"
  | .noBundle name known =>
    s!"no bundled model `{name}`, expected one of " ++ Text.bracketed (known.map Text.quoted)
  | .submodelMethods model kinds =>
    s!"sub-model `{model}` declares " ++ Text.joinWith ", " kinds ++
      " methods; sub-models may only declare add methods"
  | .linkRank group name model ndim =>
    s!"link variable `{group}.{name}` of model `{model}` has {ndim} dimensions; " ++
      "links support at most one"

/-- Why solver settings are refused; `α` is the type of the numbers. -/
inductive SettingsFault (α : Type)
  | notPositive (name : String) (value : α)
  | stepOrder (least most : α)
  | stepTooLong (most : α)
  | factors
  | growth
  deriving DecidableEq, Repr

def SettingsFault.message : SettingsFault Float → String
  | .notPositive name value =>
    s!"solver.{name} must be a positive finite number, got " ++ Decimal.plain.render value
  | .stepOrder least most =>
    "solver.rel_dt_min (" ++ Decimal.plain.render least ++ ") exceeds solver.rel_dt_max (" ++
      Decimal.plain.render most ++ ")"
  | .stepTooLong most =>
    "solver.rel_dt_max must not exceed one macro step, got " ++ Decimal.plain.render most
  | .factors => "solver.dt_increase and solver.dt_decrease must both be greater than one"
  | .growth => "solver.accepts_before_growth must be at least one"

inductive ConfigFault
  | solver (fault : SettingsFault Float)
  | emptySetting (name : String)
  deriving DecidableEq, Repr

def ConfigFault.message : ConfigFault → String
  | .solver fault => fault.message
  | .emptySetting name => s!"generator.{name} must not be empty"

inductive FileFault
  | notFound | exists | notDirectory | isDirectory | invalid | denied | busy | nameTooLong
  | notText | shortRead
  | zeroInPath
  | zeroInCommand
  /-- A failure with another code of the system. -/
  | system (code : Nat)
  deriving DecidableEq, Repr

def FileFault.message : FileFault → String
  | .notFound => "No such file or directory (os error 2)"
  | .exists => "File exists (os error 17)"
  | .notDirectory => "Not a directory (os error 20)"
  | .isDirectory => "Is a directory (os error 21)"
  | .invalid => "Invalid argument (os error 22)"
  | .denied => "Permission denied (os error 13)"
  | .busy => "Device or resource busy (os error 16)"
  | .nameTooLong => "File name too long (os error 36)"
  | .notText => "stream did not contain valid UTF-8"
  | .shortRead => "failed to fill whole buffer"
  | .zeroInPath => "file name contained an unexpected NUL byte"
  | .zeroInCommand => "nul byte found in provided data"
  | .system code => s!"system failure (os error {code})"

inductive RunFault
  | unknownLocal (name : String)
  | noSubmodel (path : String)
  | noMethod (model : String)
  | argumentCount (expected got : Nat)
  | notAnInteger (value : Float)
  | noStep (key : String) (step : Nat)
  | notOpen (key : String)
  deriving DecidableEq, Repr

def RunFault.message : RunFault → String
  | .unknownLocal name => s!"unknown local `{name}`"
  | .noSubmodel path => s!"no sub-model at `{path}`"
  | .noMethod model => s!"model `{model}` has no such method"
  | .argumentCount expected got => s!"expected {expected} argument(s), got {got}"
  | .notAnInteger value => "expected an integer, got " ++ Decimal.plain.render value
  | .noStep key step => s!"RAM series of `{key}` holds no step {step}"
  | .notOpen key => s!"file of sequence `{key}` is not open"

inductive SourceGap
  | noSources
  | notIn (method : String) (searched : List String)
  deriving DecidableEq, Repr

def SourceGap.message : SourceGap → String
  | .noSources => "the model has no source files"
  | .notIn method searched => s!"no `def {method}(` in " ++ Text.joinWith ", " searched

inductive Error
  | noPath (key : String)
  | noSource (model method : String) (gap : SourceGap)
  | unsupported (model method : String) (line : Nat) (construct : Construct)
  | toolchain (model : String) (status : Option Int) (diagnostics : String)
  | noArtifact (model artifact : String) (searched : List String)
  | generation (model : String) (stage : Stage) (cause : Error)
  | definition (fault : DefinitionFault)
  | config (fault : ConfigFault)
  | file (path : String) (fault : FileFault)
  | table (path : String)
  | unknownVariable (key : String)
  | shapeMismatch (key : String) (expected : Nat) (got : List Nat)
  /-- No array has this shape. -/
  | tooLarge (key : String) (shape : List Nat)
  | outOfBounds (key : String) (index : List Int) (shape : List Nat)
  | run (method : String) (fault : RunFault)
  deriving DecidableEq, Repr

namespace Error

def message : Error → String
  | .noPath key => s!"sequence `{key}` is flagged for disk I/O but has no path"
  | .noSource model method gap =>
    s!"model `{model}`: no source text for method `{method}` (" ++ gap.message ++ ")"
  | .unsupported model method line construct =>
    s!"model `{model}`, method `{method}`, line {line}: " ++ construct.message
  | .toolchain model status diagnostics =>
    let shown := match status with
      | none => "None"
      | some code => s!"Some({code})"
    s!"building model `{model}` failed (status {shown}):\n{diagnostics}"
  | .noArtifact model artifact searched =>
    s!"the toolchain reported success for model `{model}` but no artifact `{artifact}` " ++
      "was found in " ++ Text.bracketed (searched.map Text.quotedName)
  | .generation model stage cause =>
    s!"generating model `{model}` failed during " ++ stage.title ++ ": " ++ cause.message
  | .definition fault => "invalid model definition: " ++ fault.message
  | .config fault => "invalid configuration: " ++ fault.message
  | .file path fault => s!"I/O error on {path}: " ++ fault.message
  | .table path => s!"could not parse {path}"
  | .unknownVariable key => s!"unknown variable `{key}`"
  | .shapeMismatch key expected got =>
    s!"shape mismatch for `{key}`: expected {expected} dimension(s), got shape " ++
      Text.bracketed (got.map toString)
  | .tooLarge key shape =>
    s!"no array for `{key}` has the shape " ++ Text.bracketed (shape.map toString)
  | .outOfBounds key index shape =>
    "index " ++ Text.bracketed (index.map toString) ++ s!" is out of bounds for `{key}` " ++
      "with shape " ++ Text.bracketed (shape.map toString)
  | .run method fault => s!"runtime error in method `{method}`: " ++ fault.message

/-- Name the model and the stage a failure happened in. The first stage named stays. -/
def inStage (model : String) (stage : Stage) : Error → Error
  | .generation m s cause => .generation m s cause
  | cause => .generation model stage cause

def root : Error → Error
  | .generation _ _ cause => cause.root
  | cause => cause

/-- Whether a failure ends the program, also where it goes on after others. -/
def isFatal (e : Error) : Bool :=
  match e.root with
  | .tooLarge _ _ => true
  | .unsupported _ _ _ .splitCharacter => true
  | _ => false

end Error

/-- Why a computation stopped without a value: a failure, the bound on its steps was reached, or a
vector has no component of an index, which ends the program. -/
inductive Stop (ε : Type)
  | failed (error : ε)
  | exhausted
  | outOfRange
  deriving DecidableEq, Repr

end ProcessModel
