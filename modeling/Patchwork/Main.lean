import Patchwork.Tool.Basic

/-!
# The program

Runs the tool on the disk.
-/

namespace Patchwork

/-- The reason of a failure. -/
def FileError.ofSystem : IO.Error → FileError
  | .noFileOrDirectory .. => .missing
  | .inappropriateType _ code _ => if code == 20 then .notDirectory else .isDirectory
  | e => .other e.toString.toList

def onDisk {α : Type} (action : IO α) : IO (Except FileError α) := do
  try
    return .ok (← action)
  catch e => return .error (.ofSystem e)

/-- The files in a directory and below it, after the parts of the path that lead there. -/
partial def filesBelow (path : Text) (parts : List Text) : IO (List (List Text)) := do
  let mut found := []
  for entry in ← (← IO.FS.realPath (String.ofList path)).readDir do
    let name := entry.fileName.toList
    if ← entry.path.isDir then
      found := found ++ (← filesBelow (Path.join path name) (parts ++ [name]))
    else found := found ++ [parts ++ [name]]
  return found

instance : Files IO where
  read path := onDisk (String.toList <$> IO.FS.readFile (String.ofList path))
  write path content := onDisk (IO.FS.writeFile (String.ofList path) (String.ofList content))
  isFile path := do
    return (← onDisk (IO.FS.readBinFile (String.ofList path))).toBool
  below path := do
    return (← onDisk (filesBelow path [])).toOption.getD []

end Patchwork

/-- Runs the tool on the files of the disk and ends with its exit code. -/
def main (arguments : List String) : IO UInt32 := do
  let report ← (Patchwork.Tool.run (arguments.map String.toList) : IO Patchwork.Report)
  IO.print (String.ofList report.out)
  IO.eprint (String.ofList report.err)
  return UInt32.ofNat report.exit
