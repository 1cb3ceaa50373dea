import ProcessModel.Toml.Document

/-! Reading records from TOML values. -/

namespace ProcessModel.Toml

def string? : Toml → Option String
  | .str s => some s
  | _ => none

def bool? : Toml → Option Bool
  | .bool b => some b
  | _ => none

def float? : Toml → Option Float
  | .float x => some x
  | .int n => some (.ofModel (.ofInt64 n))
  | _ => none

def nat? (most : Nat) : Toml → Option Nat
  | .int n => if 0 ≤ n.toInt ∧ n.toInt ≤ most then some n.toInt.toNat else none
  | _ => none

def list? {α : Type} (item? : Toml → Option α) : Toml → Option (List α)
  | .array items => items.mapM item?
  | _ => none

/-- The name of an alternative: a text, or a table with nothing but an empty value under it. -/
def alternative? : Toml → Option String
  | .str s => some s
  | .table [(name, .table [])] => some name
  | .table [(name, .array [])] => some name
  | _ => none

/-- The key that the text of a date or time has when it is read as a table. -/
def timeKey : String := "$__toml_private_datetime"

/-- The entries of a table. A date or time counts as a table of its text alone. -/
def entries? : Toml → Option (List (String × Toml))
  | .table es => some es
  | .time text => some [(timeKey, .str text)]
  | _ => none

structure Record where
  get? : String → Option Toml

/-- Read a record with the given fields from a table, or from an array of their values in order.
If `strict`, a table may have no other keys. -/
def record? (fields : List String) (strict : Bool) : Toml → Option Record
  | .array items => some ⟨fun name => ((fields.zip items).find? fun p => p.1 == name).map (·.2)⟩
  | t => do
    let es ← entries? t
    if strict && es.any fun e => !fields.contains e.1 then none
    return ⟨fun name => (es.find? fun e => e.1 == name).map (·.2)⟩

def Record.required {α : Type} (r : Record) (name : String) (read? : Toml → Option α) : Option α :=
  (r.get? name).bind read?

def Record.optional {α : Type} (r : Record) (name : String) (fallback : α)
    (read? : Toml → Option α) : Option α :=
  match r.get? name with
  | none => some fallback
  | some v => read? v

end ProcessModel.Toml
