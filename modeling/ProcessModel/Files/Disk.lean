import ProcessModel.Files.Access

/-! A file system held in memory.

Paths are followed name by name. A name that is missing, is no directory or is too long stops the
walk there, so the first fault on the way is the one that is reported. -/

namespace ProcessModel

inductive DiskEntry
  | dir (modified : Nat)
  | file (content : ByteArray) (modified : Nat)

namespace DiskEntry

def isDir : DiskEntry → Bool
  | .dir _ => true
  | .file _ _ => false

def modified : DiskEntry → Nat
  | .dir t => t
  | .file _ t => t

end DiskEntry

/-- Files and directories by the names on the way to them from the root. -/
structure Disk where
  entries : List (List String × DiskEntry) := []
  cwd : List String := []
  clock : Nat := 0
  programs : List (String × ProgramResult) := []

namespace Disk

def lookup? (d : Disk) (place : List String) : Option DiskEntry :=
  if place.isEmpty then some (.dir 0)
  else (d.entries.find? fun e => e.1 == place).map (·.2)

/-- Follow names from a place. All but the last must lead to directories. -/
def walk (d : Disk) (place : List String) : List String → Except FileFault (List String)
  | [] => .ok place
  | name :: rest =>
    match d.lookup? place with
    | none => .error .notFound
    | some (.file _ _) => .error .notDirectory
    | some (.dir _) =>
      if Path.isIdle name then d.walk place rest
      else if name = ".." then d.walk place.dropLast rest
      else if Path.isTooLong name then .error .nameTooLong
      else d.walk (place ++ [name]) rest

structure Way where
  start : List String
  names : List String

def anyWay (d : Disk) (path : String) : Except FileFault Way :=
  if Path.hasZero path then .error .zeroInPath
  else if path.isEmpty then .error .notFound
  else .ok ⟨if Path.isAbsolute path then [] else d.cwd, Text.fields '/' path⟩

def way (d : Disk) (path : String) : Except FileFault Way := do
  let w ← d.anyWay path
  if Path.lengthLimit ≤ Text.byteLength path.toList then throw .nameTooLong
  return w

/-- The place at the end of a way and what is there. -/
def follow (d : Disk) (w : Way) : Except FileFault (List String × DiskEntry) := do
  let place ← d.walk w.start w.names
  match d.lookup? place with
  | some e => return (place, e)
  | none => throw .notFound

def find (d : Disk) (path : String) : Except FileFault (List String × DiskEntry) := do
  d.follow (← d.way path)

def pathOf (place : List String) : String := "/" ++ Text.joinWith "/" place

def put (d : Disk) (place : List String) (e : DiskEntry) : Disk :=
  { d with entries := (d.entries.filter fun x => x.1 != place) ++ [(place, e)] }

def erase (d : Disk) (place : List String) : Disk :=
  { d with entries := d.entries.filter fun x => x.1 != place }

def tick (d : Disk) : Disk := { d with clock := d.clock + 1 }

/-- The last step of a way, from a directory that exists. -/
structure LastStep where
  dir : List String
  /-- The name that the way ends in. A way to the root or one that ends in points has none: it
  leads to a directory that is there. -/
  name? : Option String
  /-- Whether a separator follows the name, so that only a directory can be meant. -/
  separated : Bool

def lastStep (d : Disk) (w : Way) : Except FileFault LastStep := do
  let kept := (w.names.reverse.dropWhile (· == "")).reverse
  let dir ← d.walk w.start kept.dropLast
  match d.lookup? dir with
  | none => throw .notFound
  | some (.file _ _) => throw .notDirectory
  | some (.dir _) =>
    return ⟨dir, kept.getLast?.filter fun n => n != "." && n != "..",
      kept.length < w.names.length⟩

def LastStep.place (s : LastStep) (name : String) : Except FileFault (List String) :=
  if Path.isTooLong name then .error .nameTooLong else .ok (s.dir ++ [name])

def writeFile (d : Disk) (path : String) (content : ByteArray) : Except FileFault Disk := do
  let step ← d.lastStep (← d.way path)
  match step.name? with
  | none => throw .isDirectory
  | some name =>
    if step.separated then throw .isDirectory
    let place ← step.place name
    match d.lookup? place with
    | some (.dir _) => throw .isDirectory
    | _ => return d.tick.put place (.file content d.tick.clock)

def makeDir (d : Disk) (w : Way) : Except FileFault Disk := do
  let step ← d.lastStep w
  match step.name? with
  | none => throw .exists
  | some name =>
    let place ← step.place name
    match d.lookup? place with
    | some _ => throw .exists
    | none => return d.tick.put place (.dir d.tick.clock)

def leadsToDir (d : Disk) (w : Way) : Bool :=
  match d.follow w with
  | .ok (_, e) => e.isDir
  | .error _ => false

def ensureDir (d : Disk) (w : Way) : Disk × Except FileFault Unit :=
  match d.makeDir w with
  | .ok d => (d, .ok ())
  | .error fault => (d, if d.leadsToDir w then .ok () else .error fault)

/-- Create a directory, and those above it if it has no place yet. Directories made before a
failure stay. -/
def makeDirs (d : Disk) (start : List String) : List String → Disk × Except FileFault Unit
  | [] => (d, .ok ())
  | name :: rest =>
    let w : Way := ⟨start, name :: rest⟩
    match d.makeDir w with
    | .error .notFound =>
      match d.makeDirs start (Path.parentWay (name :: rest)) with
      | (d, .error fault) => (d, .error fault)
      | (d, .ok ()) => d.ensureDir w
    | _ => d.ensureDir w
termination_by names => names.length
decreasing_by exact Path.parentWay_length_lt _ (List.cons_ne_nil _ _)

def names (d : Disk) (place : List String) : List String :=
  d.entries.filterMap fun e => if e.1.dropLast == place then e.1.getLast? else none

def content (d : Disk) (path : String) : Except FileFault ByteArray := do
  match ← d.find path with
  | (_, .dir _) => throw .isDirectory
  | (_, .file bytes _) => return bytes

/-- The size of the largest file: `2 ^ 32 - 1` blocks of `2 ^ 12` bytes. -/
def sizeLimit : Nat := (Nat.pow 2 32 - 1) * Nat.pow 2 12

def checkOffset (offset : Nat) : Except FileFault Unit :=
  if offset ≤ sizeLimit then .ok () else .error .invalid

def patch (old : ByteArray) (offset : Nat) (bytes : ByteArray) : ByteArray :=
  if bytes.size = 0 then old
  else
    let gap : ByteArray := ⟨Array.replicate (offset - old.size) 0⟩
    old.extract 0 (min offset old.size) ++ gap ++ bytes ++
      old.extract (offset + bytes.size) old.size

def moveFile (d : Disk) (source target : String) : Except FileFault Disk := do
  let origin ← d.lastStep (← d.way source)
  let goal ← d.lastStep (← d.way target)
  match origin.name?, goal.name? with
  | some name, some newName =>
    let place ← origin.place name
    match d.lookup? place with
    | none => throw .notFound
    | some e =>
      let newPlace ← goal.place newName
      if !e.isDir && (origin.separated || goal.separated) then throw .notDirectory
      match e, d.lookup? newPlace with
      | .file _ _, some (.dir _) => throw .isDirectory
      | .dir _, some (.file _ _) => throw .notDirectory
      | _, _ => return (d.erase place).put newPlace e
  | _, _ => throw .busy

def removeFile (d : Disk) (path : String) : Except FileFault Disk := do
  match ← d.find path with
  | (_, .dir _) => throw .isDirectory
  | (place, .file _ _) => return d.erase place

/-- Why a program does not start in a directory, if it is none of those that run. A name with a
separator is a path from that directory, and no file may be run. -/
def launchFault (d : Disk) (dir program : String) (args : List String) : FileFault :=
  if (program :: args).any Path.hasZero then .zeroInCommand
  else if program.toList.contains '/' then
    match d.find (Path.join dir program) with
    | .ok _ => .denied
    | .error fault => fault
  else if Path.isTooLong program then .nameTooLong
  else .notFound

def asking {α : Type} (f : Disk → Except FileFault α) : StateM Disk (Except FileFault α) := do
  return f (← get)

/-- A change of the disk; a failure leaves it as it is. -/
def changing (f : Disk → Except FileFault Disk) : StateM Disk (Except FileFault Unit) := do
  match f (← get) with
  | .ok d =>
    set d
    return .ok ()
  | .error fault => return .error fault

instance : FileAccess (StateM Disk) where
  canonical path := asking fun d => do return pathOf (← d.follow (← d.anyWay path)).1
  stat path := asking fun d => do
    let (_, e) ← d.find path
    return ⟨e.isDir, e.modified⟩
  read path := asking fun d => d.content path
  write path bytes := changing fun d => d.writeFile path bytes
  createDirs path := do
    if path.isEmpty then return .ok ()
    let d ← get
    match d.way path with
    | .error fault => return .error fault
    | .ok w =>
      let (d, result) := d.makeDirs w.start w.names
      set d
      return result
  rename source target := changing fun d => d.moveFile source target
  remove path := changing fun d => d.removeFile path
  list path := asking fun d => do
    match ← d.find path with
    | (place, .dir _) => return d.names place
    | (_, .file _ _) => throw .notDirectory
  openRead path := asking fun d => do
    let _ ← d.find path
    return ()
  openUpdate path := asking fun d => do
    let _ ← d.content path
    return ()
  readAt path offset length := asking fun d => do
    checkOffset offset
    if length = 0 then return .empty
    let bytes ← d.content path
    if bytes.size < offset + length then throw .shortRead
    return bytes.extract offset (offset + length)
  writeAt path offset bytes := changing fun d => do
    checkOffset offset
    let old ← d.content path
    d.writeFile path (patch old offset bytes)
  fileBound := return (← get).entries.length + 1
  launch program args dir := asking fun d =>
    match d.programs.find? fun p => p.1 == program with
    | some p => if args.any Path.hasZero then .error .zeroInCommand else .ok p.2
    | none => .error (d.launchFault dir program args)

end Disk

end ProcessModel
