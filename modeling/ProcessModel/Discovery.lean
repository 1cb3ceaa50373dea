import ProcessModel.Manifest

/-! Finding the manifests below given paths. -/

namespace ProcessModel.Discovery

variable {m : Type → Type} [Monad m] [FileAccess m]

open FileAccess

/-- The most directories inside each other. -/
def bound : Nat := Nat.pow 2 62

/-- All files below a directory. A directory that cannot be listed counts as empty. -/
def filesBelow : Nat → String → m (List String)
  | 0, _ => return []
  | n + 1, dir => do
    match ← list dir with
    | .error _ => return []
    | .ok names =>
      let found ← names.mapM fun name => do
        let path := Path.join dir name
        if ← isDir path then filesBelow n path
        else if ← isFile path then return [path]
        else return []
      return found.flatten

def manifestsBelow (dir : String) : m (List String) := do
  let files ← filesBelow bound dir
  return (files.filter fun p => Path.extension? p == some "toml").mergeSort Path.le

def canonical? (path : String) : m (Option String) := do return (← canonical path).toOption

def tryLoad (ignored : List String) (path : String) : m (Option Definition) := do
  match ← canonical? path with
  | some place => if ignored.contains place then return none
  | none => pure ()
  return (← (Manifest.load path).run).toOption

/-- The models of one path: a manifest's own, or all that are found below a directory. -/
def modelsAt (ignored : List String) (path : String) :
    ExceptT Error m (List Definition × List Definition) := do
  if ← (isDir path : m Bool) then
    let paths ← (manifestsBelow path : m (List String))
    let loaded ← (paths.mapM fun p => tryLoad ignored p : m (List (Option Definition)))
    return ([], loaded.filterMap id)
  else if ← (isFile path : m Bool) then return ([← Manifest.load path], [])
  else throw (.definition (.noManifest path))

def embedded (models : List Definition) : List String :=
  models.flatMap fun d => d.submodels.map fun s => s.2.name

/-- Load the models that paths name: manifests, which must load, and directories, whose files are
skipped if they do not. Below a directory, files in `ignore` are passed over and models that are
sub-models of others are left out. -/
def load (paths ignore : List String) : ExceptT Error m (List Definition) := do
  let ignored ← (ignore.mapM fun p => canonical? p : m (List (Option String)))
  let found ← paths.mapM fun p => modelsAt (ignored.filterMap id) p
  let explicit := found.flatMap (·.1)
  let discovered := found.flatMap (·.2)
  let inner := embedded (explicit ++ discovered)
  return explicit ++ discovered.filter fun d => !inner.contains d.name

end ProcessModel.Discovery
