import ProcessModel.Definition
import ProcessModel.Value

/-! Storage for the variables of a model and its sub-models.

Every variable has a slot under the key of its path, every state a second one for its value at the
start of the step. -/

namespace ProcessModel

def shapeSize (shape : List Nat) : Nat := shape.foldr (· * ·) 1

/-- Whether there are arrays of a shape: the doubles of one, and the product of the axes that are
not empty, are counted by signed words of 64 bits. -/
def isShape (shape : List Nat) : Bool :=
  shapeSize shape * 8 < Nat.pow 2 63 && shapeSize (shape.filter (· ≠ 0)) < Nat.pow 2 63

/-- The place of an element in row-major order; `none` outside the array. -/
def offset? : List Nat → List Int64 → Option Nat
  | [], [] => some 0
  | n :: ns, i :: is =>
    if 0 ≤ i.toInt ∧ i.toInt < n then (offset? ns is).map fun k => i.toInt.toNat * shapeSize ns + k
    else none
  | _, _ => none

structure Slot where
  path : VarPath
  element : Element
  shape : List Nat
  data : Array Float

namespace Slot

def fresh (path : VarPath) (element : Element) (ndim : Nat) : Slot where
  path
  element
  shape := List.replicate ndim 0
  data := Array.replicate (shapeSize (List.replicate ndim 0)) 0.0

def ndim (s : Slot) : Nat := s.shape.length

/-- Replace shape and elements; elements are cast to the element type. -/
def fill (s : Slot) (shape : List Nat) (data : Array Float) : Slot :=
  { s with shape, data := data.map s.element.cast }

def set (s : Slot) (i : Nat) (value : Float) : Slot :=
  { s with data := s.data.setIfInBounds i (s.element.cast value) }

end Slot

abbrev Store := Keyed Slot

namespace Store

def slotsOf (owner : List String) (k : GroupKind) (v : Variable) : List Slot :=
  (if k = .states then [GroupRef.kind k, .oldStates] else [.kind k]).map fun g =>
    .fresh ⟨owner, g, v.name⟩ v.element v.ndim

mutual

/-- The fresh slots of a definition below `owner`, in the order of declaration. -/
def freshSlots (owner : List String) : Definition → List Slot
  | ⟨_, _, _, groups, _, _, _, submodels⟩ =>
    (groups.flatMap fun g => g.vars.flatMap (slotsOf owner g.kind)) ++
      freshSlotsAll owner submodels

def freshSlotsAll (owner : List String) : List (String × Definition) → List Slot
  | [] => []
  | (name, d) :: rest => freshSlots (owner ++ [name]) d ++ freshSlotsAll owner rest

end

def ofDefinition (d : Definition) : Store :=
  .ofList ((freshSlots [] d).map fun s => (s.path.key, s))

def slot (s : Store) (key : String) : Except Error Slot :=
  match s.get? key with
  | some slot => .ok slot
  | none => .error (.unknownVariable key)

def put (s : Store) (key : String) (slot : Slot) : Store :=
  s.map fun e => if e.1 = key then (e.1, slot) else e

def scalar (s : Store) (key : String) : Except Error Float := do
  let slot ← s.slot key
  if slot.ndim ≠ 0 then throw (.shapeMismatch key slot.ndim [])
  return slot.data[0]?.getD 0.0

def flat (s : Store) (key : String) : Except Error (Array Float) := do
  return (← s.slot key).data

def oldKey? (slot : Slot) : Option String :=
  if slot.path.group = .kind .states then some { slot.path with group := .oldStates }.key else none

/-- Replace shape and elements of a variable; the number of dimensions stays. A state with a new
shape takes its old values along. -/
def setArray (s : Store) (key : String) (shape : List Nat) (data : Array Float) :
    Except Error Store := do
  let slot ← s.slot key
  if slot.ndim ≠ shape.length then throw (.shapeMismatch key slot.ndim shape)
  let filled := slot.fill shape data
  let s := s.put key filled
  if slot.shape = shape then return s
  match oldKey? slot with
  | none => return s
  | some old =>
    let oldSlot ← s.slot old
    return s.put old { oldSlot with shape := filled.shape, data := filled.data }

def setScalar (s : Store) (key : String) (value : Float) : Except Error Store :=
  s.setArray key [] #[value]

def setShape (s : Store) (key : String) (shape : List Nat) : Except Error Store := do
  let slot ← s.slot key
  if slot.ndim ≠ shape.length then throw (.shapeMismatch key slot.ndim shape)
  if !isShape shape then throw (.tooLarge key shape)
  s.setArray key shape (Array.replicate (shapeSize shape) 0.0)

def setFlat (s : Store) (key : String) (data : Array Float) : Except Error Store := do
  let slot ← s.slot key
  if slot.data.size ≠ data.size then throw (.shapeMismatch key slot.ndim [data.size])
  return s.put key (slot.fill slot.shape data)

def offset (key : String) (slot : Slot) (index : List Int64) : Except Error Nat :=
  match offset? slot.shape index with
  | some i => .ok i
  | none => .error (.outOfBounds key (index.map Int64.toInt) slot.shape)

def read (s : Store) (path : VarPath) (index : List Int64) : Except Error (Element × Float) := do
  let slot ← s.slot path.key
  let i ← offset path.key slot index
  return (slot.element, slot.data[i]?.getD 0.0)

def write (s : Store) (path : VarPath) (index : List Int64) (value : Float) : Except Error Store := do
  let slot ← s.slot path.key
  let i ← offset path.key slot index
  return s.put path.key (slot.set i value)

def newToOld (s : Store) : Store :=
  s.map fun e =>
    if e.2.path.group = .oldStates then
      match s.get? { e.2.path with group := .kind .states }.key with
      | some new => (e.1, { e.2 with shape := new.shape, data := new.data })
      | none => e
    else e

end Store

/-- The integrated variables of one kind, seen as one vector. -/
abbrev NumericKeys := List String

namespace NumericKeys

def ofDefinition (d : Definition) (k : GroupKind) : NumericKeys :=
  (d.numeric k).map fun v => k.name ++ "." ++ v.name

def gather (keys : NumericKeys) (s : Store) : Except Error (List Float) := do
  return (← keys.mapM fun key => do return (← s.flat key).toList).flatten

/-- Set the elements of all variables; each takes as many values as it has elements. On failure
the variables before keep what they were given. -/
def scatter (s : Store) : NumericKeys → List Float → Store × Except Error Unit
  | [], _ => (s, .ok ())
  | key :: keys, values =>
    match s.slot key with
    | .error e => (s, .error e)
    | .ok slot =>
      match s.setFlat key (values.take slot.data.size).toArray with
      | .error e => (s, .error e)
      | .ok s => scatter s keys (values.drop slot.data.size)

end NumericKeys

end ProcessModel
