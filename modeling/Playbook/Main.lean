import Playbook.CommandLine

/-!
The program itself: it takes the files that a run needs from the real disk, runs, and prints.
-/

namespace Playbook

/-- Whether the real disk has a directory there. -/
def hasDirectory (path : String) : IO Bool := do
  try
    (← IO.FS.realPath path).isDir
  catch _ =>
    return false

/-- Take what is in one place of the real disk. -/
def takePlace (disk : Disk) (path : String) : IO Disk := do
  try
    return disk.write path (.file (← IO.FS.readBinFile path))
  catch _ =>
    return if ← hasDirectory path then disk.write path .directory else disk

/-- Take a file from the real disk, and the places on the way to it. -/
def takeFile (disk : Disk) (path : String) : IO Disk :=
  let pieces := Path.pieces path
  ((List.range pieces.length).map fun n => "/".intercalate (pieces.take (n + 1))).foldlM
    takePlace disk

/-- Take all files below a directory. Links are not followed. -/
partial def takeTree (disk : Disk) (path : String) : IO Disk := do
  let mut disk ← takeFile disk path
  unless ← hasDirectory path do return disk
  for entry in ← (← IO.FS.realPath path).readDir do
    let below := Path.join path entry.fileName
    unless ModuleCatalog.isHidden entry.fileName do
      match (← entry.path.symlinkMetadata).type with
      | .dir => disk ← takeTree disk below
      | .file => disk ← takeFile disk below
      | _ => pure ()
  return disk

/-- Take what a run depends on: the settings, and then what they name. -/
def takeFor (disk : Disk) (env : Environment) (invocation : CommandLine.Invocation) : IO Disk := do
  let settings := invocation.configFile.orElse fun _ => env.configFile
  let disk ← settings.toList.foldlM takeFile disk
  match Config.load disk env invocation.configFile with
  | .error _ => return disk
  | .ok config =>
      let disk ← config.directivesFile.toList.foldlM takeFile disk
      let disk ← (config.searchPaths env.library).foldlM takeTree disk
      match invocation.action with
      | .complete file _ _ => takeFile disk file
      | _ => return disk

/-- Stay until the input ends. The transport of messages to a `Session` is left to its host, so this is
all that serving comes to here. -/
partial def waitForEnd (input : IO.FS.Stream) : IO Unit := do
  unless (← input.read 4096).isEmpty do waitForEnd input

end Playbook

open Playbook in
def main (arguments : List String) : IO UInt32 := do
  let env : Environment :=
    ⟨← IO.getEnv "ANSIBLE_LIBRARY", ← IO.getEnv "XDG_CONFIG_HOME", ← IO.getEnv "HOME"⟩
  let directory := (← IO.currentDir).toString
  let mut disk : Disk := ⟨Path.names [] directory, []⟩
  if let .run invocation := CommandLine.parse arguments then
    disk ← takeFor disk env invocation
    if invocation.action == .serve then waitForEnd (← IO.getStdin)
  let outcome := CommandLine.run disk env arguments
  IO.print outcome.output
  IO.eprint outcome.errors
  return UInt32.ofNat outcome.code
