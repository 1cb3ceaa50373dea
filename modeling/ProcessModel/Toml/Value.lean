/-! Values of TOML documents and the tables that statements build. -/

namespace ProcessModel

inductive Toml
  | str (text : String)
  | int (value : Int64)
  | float (value : Float)
  | bool (value : Bool)
  /-- A date, a time or both, as written. -/
  | time (text : String)
  | array (items : List Toml)
  | table (entries : List (String × Toml))

namespace Toml

mutual

/-- What stands under a key while a document is read. -/
inductive Node
  | value (value : Toml)
  | table (table : Draft)
  /-- The tables of an array that headers in double brackets extend. -/
  | tables (tables : List Draft)

/-- A table that may still grow. -/
inductive Draft
  /-- `implicit`: no header of its own so far; `dotted`: made by a dotted key. -/
  | mk (implicit dotted : Bool) (entries : List (String × Node))

end

namespace Draft

def implicit : Draft → Bool
  | ⟨i, _, _⟩ => i

def dotted : Draft → Bool
  | ⟨_, d, _⟩ => d

def entries : Draft → List (String × Node)
  | ⟨_, _, es⟩ => es

def empty : Draft := ⟨false, false, []⟩

def get? (t : Draft) (key : String) : Option Node :=
  (t.entries.find? fun e => e.1 == key).map (·.2)

def put (t : Draft) (key : String) (node : Node) : Draft :=
  if (t.get? key).isSome then
    ⟨t.implicit, t.dotted, t.entries.map fun e => if e.1 == key then (key, node) else e⟩
  else ⟨t.implicit, t.dotted, t.entries ++ [(key, node)]⟩

/-- Change the table at the end of a path. Missing tables are made on the way, and of an array of
tables the last one counts. A dotted key does not enter a table that has a header. -/
def update (dotted : Bool) (change : Draft → Option Draft) : List String → Draft → Option Draft
  | [], t => change t
  | key :: rest, t =>
    match t.get? key with
    | none => do return t.put key (.table (← update dotted change rest ⟨true, dotted, []⟩))
    | some (.value _) => none
    | some (.tables ts) =>
      match ts.getLast? with
      | none => none
      | some last => do
        return t.put key (.tables (ts.dropLast ++ [← update dotted change rest last]))
    | some (.table child) =>
      if dotted && !child.implicit then none
      else do return t.put key (.table (← update dotted change rest child))

def addValue (path : List String) (key : String) (value : Toml) (t : Draft) : Option Draft :=
  update true (fun t =>
    if t.dotted == path.isEmpty || (t.get? key).isSome then none
    else some (t.put key (.value value))) path t

/-- Start the table of a header. A table made by headers below it becomes it. -/
def addTable (path : List String) (key : String) (t : Draft) : Option Draft :=
  update false (fun t =>
    match t.get? key with
    | none => some (t.put key (.table empty))
    | some (.table child) =>
      if child.implicit && !child.dotted then
        some (t.put key (.table ⟨false, false, child.entries⟩))
      else none
    | some _ => none) path t

def addArrayTable (path : List String) (key : String) (t : Draft) : Option Draft :=
  update false (fun t =>
    match t.get? key with
    | none => some (t.put key (.tables [empty]))
    | some (.tables ts) => some (t.put key (.tables (ts ++ [empty])))
    | some _ => none) path t

mutual

def finish : Draft → List (String × Toml)
  | ⟨_, _, es⟩ => finishAll es

def finishAll : List (String × Node) → List (String × Toml)
  | [] => []
  | (key, node) :: rest => (key, finishNode node) :: finishAll rest

def finishNode : Node → Toml
  | .value v => v
  | .table t => .table (finish t)
  | .tables ts => .array (finishTables ts)

def finishTables : List Draft → List Toml
  | [] => []
  | t :: rest => .table (finish t) :: finishTables rest

end

end Draft

end Toml

end ProcessModel
