/-! Tables from names to values, kept in increasing order of the names. -/

namespace ProcessModel

/-- A list of named values. The operations below keep the names increasing and distinct. -/
abbrev Keyed (α : Type) := List (String × α)

namespace Keyed

variable {α : Type}

def insert (key : String) (value : α) : Keyed α → Keyed α
  | [] => [(key, value)]
  | (k, v) :: rest =>
    if key < k then (key, value) :: (k, v) :: rest
    else if key = k then (key, value) :: rest
    else (k, v) :: insert key value rest

def get? (table : Keyed α) (key : String) : Option α :=
  (table.find? fun p => p.1 == key).map (·.2)

def ofList (entries : List (String × α)) : Keyed α :=
  entries.foldl (fun table p => insert p.1 p.2 table) []

def keys (table : Keyed α) : List String := table.map (·.1)

end Keyed

end ProcessModel
