import MatlabOutline.Command.Run

/-!
The command line. Files are read before a request is carried out: the settings file, the source
tree, and the file that the request names.
-/

namespace MatlabOutline

namespace Main

/-- Reads a file, or a folder with all that is in it. -/
partial def readTree (path : String) : IO FileTree := do
  let place ← IO.FS.realPath path
  if ← place.isDir then
    let entries ← place.readDir
    let read ← entries.toList.mapM fun entry => do
      return (entry.fileName, ← readTree (PathText.join path entry.fileName))
    return .folder read
  else return .file (← IO.FS.readBinFile path).data.toList

/-- Puts the folders on the way to a path on the disk. -/
def readWay (disk : Disk) (path : String) : IO Disk := do
  let ends := (List.range (path.length + 1)).filter fun n => path.toList[n]? == some '/'
  let ways := ends.map fun n => String.ofList (path.toList.take (n + 1))
  ways.foldlM (fun (disk : Disk) (way : String) => do
    let isFolder ← try (← IO.FS.realPath way).isDir catch _ => pure false
    return if isFolder then disk.makeFolder way else disk) disk

/-- Puts what stands at a path on the disk, if anything does. -/
def readPath (disk : Disk) (path : String) : IO Disk := do
  let disk ← readWay disk path
  try return disk.write path (← readTree path) catch _ => return disk

/-- Reads what an invocation needs. -/
def readDisk (i : Command.Invocation) : IO Disk := do
  let start := (← IO.currentDir).toString
  let base := (PathText.parts start).map String.ofList
  let disk ← readPath (({ base := base } : Disk).makeFolder start) (i.config.getD "")
  let disk ← match i.settings disk with
    | .ok settings => readPath disk settings.root
    | .error _ => pure disk
  readPath disk (i.input?.getD "")

end Main

end MatlabOutline

open MatlabOutline in
/-- Carries out the command line, and ends with the code of its outcome. -/
def main (args : List String) : IO UInt32 := do
  let filter := Command.LogFilter.ofText (← IO.getEnv "LOG_LEVEL")
  let disk ← match Command.Invocation.parse args with
    | some i => Main.readDisk i
    | none => pure {}
  let outcome := Command.execute disk filter args
  IO.print outcome.stdout
  IO.eprint outcome.stderr
  return outcome.exitCode.toUInt32
