import ProcessModel.Command.Run

/-! The program. Its files are those of the system; it starts no other programs. -/

namespace ProcessModel.Machine

def faultOf : IO.Error → FileFault
  | .noFileOrDirectory _ _ _ => .notFound
  | .alreadyExists _ _ _ => .exists
  | .inappropriateType _ code _ => if code = 20 then .notDirectory else .isDirectory
  | .invalidArgument _ code _ => if code = 36 then .nameTooLong else .invalid
  | .resourceBusy _ _ => .busy
  | .permissionDenied _ _ _ => .denied
  | .otherError code _ => .system code.toNat
  | _ => .system 5

def attempt {α : Type} (action : IO α) : IO (Except FileFault α) := do
  try return .ok (← action)
  catch e => return .error (faultOf e)

def nanoseconds (t : IO.FS.SystemTime) : Nat := (t.sec * 1000000000 + t.nsec.toNat).toNat

instance : FileAccess IO where
  canonical path := attempt do return toString (← IO.FS.realPath path)
  stat path := attempt do
    let data ← (← IO.FS.realPath path).metadata
    return { isDir := data.type == .dir, modified := nanoseconds data.modified }
  read path := attempt (IO.FS.readBinFile path)
  write path bytes := attempt (IO.FS.writeBinFile path bytes)
  createDirs path := attempt (IO.FS.createDirAll path)
  rename source target := attempt (IO.FS.rename source target)
  remove path := attempt (IO.FS.removeFile path)
  list path := attempt do
    return (← (← IO.FS.realPath path).readDir).toList.map (·.fileName)
  openRead path := attempt do
    let _ ← IO.FS.Handle.mk path .read
  openUpdate path := attempt do
    let _ ← IO.FS.Handle.mk path .readWrite
  readAt path offset length := do
    match ← attempt (IO.FS.readBinFile path) with
    | .error fault => return .error fault
    | .ok bytes =>
      if bytes.size < offset + length then return .error .shortRead
      else return .ok (bytes.extract offset (offset + length))
  writeAt path offset bytes := attempt do
    IO.FS.writeBinFile path (Disk.patch (← IO.FS.readBinFile path) offset bytes)
  -- files are numbered by words
  fileBound := return Nat.pow 2 64
  launch _ _ _ := return .error .notFound

end ProcessModel.Machine

def main (args : List String) : IO UInt32 := do
  let outcome ← (ProcessModel.Command.run args : IO ProcessModel.Outcome)
  for line in outcome.stdout do
    IO.println line
  if let some message := outcome.error then
    IO.eprintln ("Error: " ++ message)
  return UInt32.ofNat outcome.code
