import ProcessModel.Script.Method

/-! Names for models, families and groups. -/

namespace ProcessModel

/-- What a dotted chain of names stands for, seen from the model that owns the method. -/
inductive Designation
  | model (owner : List String)
  | family (owner : List String) (family : Family)
  | group (owner : List String) (group : GroupRef)
  | var (path : VarPath)
  | method (owner : List String) (name : String)
  deriving DecidableEq, Repr

/-- Dotted names and what they stand for, the latest last. -/
abbrev AliasTable := List (List String × Designation)

namespace AliasTable

def insert (t : AliasTable) (name : String) (target : Designation) : AliasTable :=
  let key := Text.fields '.' name
  (t.filter fun e => e.1 != key) ++ [(key, target)]

/-- The names of the groups of a model that all its methods may use. -/
def shortcuts : AliasTable :=
  (GroupKind.all.map fun k => ([k.shortcut], Designation.group [] (.kind k))) ++
    [(["new"], .group [] (.kind .states)), (["old"], .group [] .oldStates)]

/-- The longest name at the start of a chain: its length and what it stands for. -/
def longest? (t : AliasTable) (chain : List String) : Option (Nat × Designation) :=
  t.foldl (fun best e =>
    if e.1.isPrefixOf chain && best.all fun b => b.1 ≤ e.1.length then some (e.1.length, e.2)
    else best) none

def names (t : AliasTable) : List String := t.map fun e => Text.joinWith "." e.1

def isContainer (t : AliasTable) (name : String) : Bool :=
  t.any fun e => e.1 == [name] && match e.2 with
    | .var _ => false
    | _ => true

end AliasTable

end ProcessModel
