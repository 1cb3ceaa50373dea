import ProcessModel.Definition
import ProcessModel.Files.Access
import ProcessModel.Toml.Decode

/-! Manifests: files that define models.

A manifest names the sources of a model and the manifests of its sub-models by paths that start
from its own directory. -/

namespace ProcessModel

structure SubmodelEntry where
  name : String
  manifest : String
  deriving DecidableEq, Repr

structure ReferenceTexts where
  requires : List String := []
  results : List String := []
  updates : List String := []
  deriving DecidableEq, Repr

structure Manifest where
  name : String
  sources : List String := []
  groups : List Group := []
  methods : MethodLists := {}
  references : Keyed ReferenceTexts := []
  aliases : Keyed String := []
  submodels : List SubmodelEntry := []
  deriving DecidableEq, Repr

namespace Manifest

open Toml

def variableOf? (t : Toml) : Option Variable := do
  let r ← record? ["name", "ndim", "type", "numeric"] false t
  return {
    name := ← r.required "name" string?
    ndim := ← r.optional "ndim" 0 (nat? (Nat.pow 2 64 - 1))
    element := ← r.optional "type" .float fun v => (alternative? v).bind Element.ofName?
    numeric := ← r.optional "numeric" false bool? }

def groupOf? (t : Toml) : Option Group := do
  let r ← record? ["kind", "variables"] false t
  return {
    kind := ← r.required "kind" fun v => (alternative? v).bind GroupKind.ofName?
    vars := ← r.optional "variables" [] (list? variableOf?) }

def methodsOf? (t : Toml) : Option MethodLists := do
  let r ← record? (MethodKind.all.map MethodKind.name) true t
  let names := fun (k : MethodKind) => r.optional k.name [] (list? string?)
  return {
    inlet := ← names .inlet
    outlet := ← names .outlet
    receiver := ← names .receiver
    sender := ← names .sender
    run := ← names .run
    partOde := ← names .partOde
    fullOde := ← names .fullOde
    add := ← names .add }

def referencesOf? (t : Toml) : Option ReferenceTexts := do
  let r ← record? ["requires", "results", "updates"] true t
  return {
    requires := ← r.optional "requires" [] (list? string?)
    results := ← r.optional "results" [] (list? string?)
    updates := ← r.optional "updates" [] (list? string?) }

def submodelOf? (t : Toml) : Option SubmodelEntry := do
  let r ← record? ["name", "manifest"] true t
  return ⟨← r.required "name" string?, ← r.required "manifest" string?⟩

def tableOf? {α : Type} (item? : Toml → Option α) (t : Toml) : Option (Keyed α) := do
  let es ← (← entries? t).mapM fun e => do return (e.1, ← item? e.2)
  return .ofList es

def ofText? (text : String) : Option Manifest := do
  let r ← record? ["name", "sources", "groups", "methods", "references", "aliases", "submodels"]
    true (.table (← parse? text))
  return {
    name := ← r.required "name" string?
    sources := ← r.optional "sources" [] (list? string?)
    groups := ← r.optional "groups" [] (list? groupOf?)
    methods := ← r.optional "methods" {} methodsOf?
    references := ← r.optional "references" [] (tableOf? referencesOf?)
    aliases := ← r.optional "aliases" [] (tableOf? string?)
    submodels := ← r.optional "submodels" [] (list? submodelOf?) }

abbrev Library := List (String × Manifest)

namespace Library

def get? (l : Library) (path : String) : Option Manifest :=
  (l.find? fun e => e.1 == path).map (·.2)

end Library

def parseReference (method item : String) : Except DefinitionFault DeclaredRef :=
  match DeclaredRef.parse? item with
  | some ref => .ok ref
  | none => .error (.referenceForm item method)

def parseReferences (method : String) (r : ReferenceTexts) : Except DefinitionFault References := do
  let requires ← r.requires.mapM (parseReference method)
  let results ← r.results.mapM (parseReference method)
  let updates ← r.updates.mapM (parseReference method)
  return { requires, results, updates }

/-- The unchecked definition of a manifest at `path`, with what its files, references and sub-models
say. -/
def draft (manifest : Manifest) (path : String) (sources : List Source)
    (references : Keyed References) (submodels : List (String × Definition)) : Definition := {
  name := manifest.name, manifest := some path, sources, groups := manifest.groups
  methods := manifest.methods, references, aliases := manifest.aliases, submodels }

variable {m : Type → Type} [Monad m] [FileAccess m]

open FileAccess

def read (path : String) : ExceptT Error m Manifest := do
  match ofText? (← on path (readText path)) with
  | some manifest => return manifest
  | none => throw (.table path)

def childPath (path : String) (entry : SubmodelEntry) : ExceptT Error m String :=
  let child := Path.join (Path.parent path) entry.manifest
  on child (canonical child)

abbrev Link := String × String

/-- A search for manifests: the paths that were found and not looked at yet, the last one first, the
manifests that were read, and the references in them. -/
structure Search where
  pending : List String
  library : Library := []
  links : List Link := []

/-- The pending paths from the first one on whose manifest was not read. -/
def Search.unread (s : Search) : List String :=
  s.pending.dropWhile fun path => (s.library.get? path).isSome

/-- Read the manifests that can be reached from those that are pending. Every pass reads one that was
not read before; the search ends with a pass that finds none. -/
def collect : Nat → Search → ExceptT Error m Search
  | 0, s => return s
  | n + 1, s =>
    match s.unread with
    | [] => return { s with pending := [] }
    | path :: rest => do
      let manifest ← read path
      let children ← manifest.submodels.mapM fun entry => childPath path entry
      collect n {
        pending := children.reverse ++ rest
        library := s.library ++ [(path, manifest)]
        links := s.links ++ children.map fun child => (path, child) }

/-- The links left after dropping those to manifests without links of their own. -/
def prune (links : List Link) : List Link :=
  links.filter fun l => links.any fun k => k.1 == l.2

/-- Whether links form a cycle: pruning never empties them then. -/
def isCyclic (links : List Link) : Bool := !(Nat.repeat prune links.length links).isEmpty

def accept {α : Type} : Except DefinitionFault α → ExceptT Error m α
  | .ok a => return a
  | .error fault => throw (.definition fault)

/-- The definition that a manifest of a library describes, if `below` gives those of its
sub-models. -/
def defineOver (library : Library) (below : String → ExceptT Error m Definition) (path : String) :
    ExceptT Error m Definition :=
  match library.get? path with
  | none => throw (.definition (.unresolved path))
  | some manifest => do
    let sources ← manifest.sources.mapM fun source => do
      let file := Path.join (Path.parent path) source
      return Source.mk file (← on file (readText file))
    let references ← manifest.references.mapM fun e => do
      return (e.1, ← accept (parseReferences e.1 e.2))
    let submodels ← manifest.submodels.mapM fun entry => do
      return (entry.name, ← below (← childPath path entry))
    accept (manifest.draft path sources references submodels).build

/-- The definition that a manifest of a library without cycles describes, with at most `n` manifests
below each other. -/
def define (library : Library) : Nat → String → ExceptT Error m Definition
  | 0, path => throw (.definition (.unresolved path))
  | n + 1, path => defineOver library (define library n) path

def load (path : String) : ExceptT Error m Definition := do
  let root ← on path (canonical path)
  let found ← collect ((← (fileBound : m Nat)) + 1) { pending := [root] }
  if isCyclic found.links then throw (.definition .cycle)
  define found.library (found.library.length + 1) root

end Manifest

end ProcessModel
