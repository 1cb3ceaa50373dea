import ProcessModel.Files.Access
import ProcessModel.Store

/-! Series of variables on disk and in memory.

A file holds one record for every step: the elements of the variable as doubles of eight bytes, the
lowest byte first. The series in memory has the same layout. -/

namespace ProcessModel

namespace Series

def encodeOne (x : Float) : List UInt8 :=
  (List.range 8).map fun i => UInt8.ofNat (x.toBits.toNat / Nat.pow 2 (8 * i) % Nat.pow 2 8)

def decodeOne (bytes : List UInt8) : Float :=
  .ofBits (UInt64.ofNat (bytes.foldr (fun b n => b.toNat + Nat.pow 2 8 * n) 0))

def encode (values : List Float) : ByteArray := ⟨(values.flatMap encodeOne).toArray⟩

/-- The doubles of a list of bytes; bytes left over at the end do not count. -/
def decodeList : List UInt8 → List Float
  | b0 :: b1 :: b2 :: b3 :: b4 :: b5 :: b6 :: b7 :: rest =>
    decodeOne [b0, b1, b2, b3, b4, b5, b6, b7] :: decodeList rest
  | _ => []

def decode (bytes : ByteArray) : List Float := decodeList bytes.data.toList

def valueSize : Nat := 8

/-- Where the record of step `idx` starts, counted in values. It is a 64-bit word, so that the
records of steps beyond its range fall on earlier ones. -/
def recordStart (length idx : Nat) : Nat := idx * length % Nat.pow 2 64

def recordOffset (length idx : Nat) : Nat := idx * length * valueSize % Nat.pow 2 64

/-- Put a record at an offset; what is missing before it becomes zeros. -/
def setRecord (series : List Float) (offset : Nat) (record : List Float) : List Float :=
  let long := series ++ List.replicate (offset + record.length - series.length) 0.0
  long.take offset ++ record ++ long.drop (offset + record.length)

def getRecord? (series : List Float) (offset length : Nat) : Option (List Float) :=
  if offset + length ≤ series.length then some ((series.drop offset).take length) else none

end Series

structure SeriesPlan where
  reading : Bool := false
  writing : Bool := false
  path : Option String := none
  /-- Whether the series is kept in memory. -/
  ram : Bool := false
  deriving DecidableEq, Repr

namespace SeriesPlan

def readFrom (path : String) : SeriesPlan := { reading := true, path := some path }

def writeTo (path : String) : SeriesPlan := { writing := true, path := some path }

def usesDisk (p : SeriesPlan) : Bool := p.reading || p.writing

end SeriesPlan

structure Channel where
  key : String
  plan : SeriesPlan
  isOpen : Bool := false
  series : List Float := []

namespace Channel

def close (c : Channel) : Channel := { c with isOpen := false }

def shownPath (c : Channel) : String := c.plan.path.getD c.key

end Channel

/-- The series of a model's variables, each variable at most once. -/
abbrev Channels := List Channel

namespace Channels

/-- Plan the series of a variable; an earlier plan for it is dropped. -/
def configure (cs : Channels) (key : String) (plan : SeriesPlan) : Channels :=
  (cs.filter fun c => c.key != key) ++ [{ key := key, plan := plan }]

def close (cs : Channels) : Channels := cs.map Channel.close

def series? (cs : Channels) (key : String) : Option (List Float) :=
  (cs.find? fun c => c.key == key).map (·.series)

def setSeries (cs : Channels) (key : String) (values : List Float) : Except Error Channels :=
  if cs.any fun c => c.key == key then
    .ok (cs.map fun c => if c.key == key then { c with series := values } else c)
  else .error (.unknownVariable key)

variable {m : Type → Type} [Monad m] [FileAccess m]

/-- Open the file of a channel: for reading and writing it must exist, for writing alone it is
emptied. -/
def openFile (plan : SeriesPlan) (path : String) : m (Except FileFault Unit) :=
  if plan.reading && plan.writing then FileAccess.openUpdate path
  else if plan.reading then FileAccess.openRead path
  else FileAccess.write path .empty

/-- Open the channels after those that are `done`. After a failure all channels are closed. -/
def openFrom (done : Channels) : Channels → m (Channels × Except Error Unit)
  | [] => return (done, .ok ())
  | c :: rest =>
    if c.plan.usesDisk then
      match c.plan.path with
      | none => return (close (done ++ c :: rest), .error (.noPath c.key))
      | some path => do
        match ← openFile c.plan path with
        | .ok () => openFrom (done ++ [{ c with isOpen := true }]) rest
        | .error fault => return (close (done ++ c :: rest), .error (.file path fault))
    else openFrom (done ++ [c]) rest

def openAll (cs : Channels) : m (Channels × Except Error Unit) := openFrom [] cs

/-- The record of step `idx` that a channel loads, if it loads any. -/
def record (c : Channel) (length idx : Nat) : m (Except Error (Option (List Float))) :=
  if c.plan.reading then
    if c.isOpen then do
      match ← FileAccess.readAt c.shownPath (Series.recordOffset length idx)
          (length * Series.valueSize) with
      | .ok bytes => return .ok (some (Series.decode bytes))
      | .error fault => return .error (.file c.shownPath fault)
    else return .error (.run "load_data" (.notOpen c.key))
  else if c.plan.ram then
    match Series.getRecord? c.series (Series.recordStart length idx) length with
    | some values => return .ok (some values)
    | none => return .error (.run "load_data" (.noStep c.key idx))
  else return .ok none

/-- Load step `idx` of all channels that read. Variables loaded before a failure keep their
values. -/
def load (store : Store) (idx : Nat) : Channels → m (Store × Except Error Unit)
  | [] => return (store, .ok ())
  | c :: rest =>
    match store.flat c.key with
    | .error e => return (store, .error e)
    | .ok values => do
      match ← record c values.size idx with
      | .error e => return (store, .error e)
      | .ok none => load store idx rest
      | .ok (some values) =>
        match store.setFlat c.key values.toArray with
        | .error e => return (store, .error e)
        | .ok store => load store idx rest

def saveOne (c : Channel) (values : List Float) (idx : Nat) : m (Except Error Channel) := do
  let length := values.length
  let written ← (if c.plan.writing then
    if c.isOpen then do
      match ← FileAccess.writeAt c.shownPath (Series.recordOffset length idx)
          (Series.encode values) with
      | .ok () => return .ok ()
      | .error fault => return .error (.file c.shownPath fault)
    else return .error (.run "save_data" (.notOpen c.key))
  else return .ok () : m (Except Error Unit))
  match written with
  | .error e => return .error e
  | .ok () =>
    if c.plan.ram then
      return .ok { c with
        series := Series.setRecord c.series (Series.recordStart length idx) values }
    else return .ok c

/-- Save step `idx` of all channels that write or keep a series. Channels saved before a failure
keep what was saved. -/
def save (store : Store) (idx : Nat) : Channels → m (Channels × Except Error Unit)
  | [] => return ([], .ok ())
  | c :: rest =>
    match store.flat c.key with
    | .error e => return (c :: rest, .error e)
    | .ok values => do
      match ← saveOne c values.toList idx with
      | .error e => return (c :: rest, .error e)
      | .ok c =>
        let (cs, r) ← save store idx rest
        return (c :: cs, r)

end Channels

end ProcessModel
