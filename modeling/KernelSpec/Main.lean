import KernelSpec.Bundle
import KernelSpec.FileSystem.Change
import KernelSpec.Program

/-! # The command

Takes in the part of the disk that an installation looks at, runs the program on it and makes the
changes that it made. No process is started, so an interpreter is never found, and the execute
permission of files is not seen.
-/

namespace KernelSpec.Command

/-- The variables that matter. -/
def variableNames : List String :=
  ["JUPYTER_DATA_DIR", "XDG_DATA_HOME", "HOME", "CLICOLOR_FORCE", Help.sourceVariable] ++
    Scope.environmentVariables

/-- Where the files that belong to the program are seen. -/
def bundledDir : Path := .ofString s!"/usr/share/{programName}/{kernelName}"

/-- The home directory in the first line of an account file that has the user's number. -/
def homeIn? (number : String) (accounts : String) : Option Path :=
  let homes := (accounts.splitOn "\n").filterMap fun line =>
    match line.splitOn ":" with
    | [_, _, other, _, _, home, _] => if other = number then some home else none
    | _ => none
  (homes.head?.filter fun home => !home.isEmpty).map .ofString

/-- The number of the user in the description of a running process. -/
def userNumber? (status : String) : Option String :=
  (status.splitOn "\n").findSome? fun line =>
    match line.splitOn "\t" with
    | "Uid:" :: number :: _ => some number
    | _ => none

def readAccountHome : IO (Option Path) := do
  try
    let status ← IO.FS.readFile "/proc/self/status"
    let accounts ← IO.FS.readFile "/etc/passwd"
    return (userNumber? status).bind fun number => homeIn? number accounts
  catch _ => return none

def readHost : IO Host := do
  let vars ← variableNames.filterMapM fun name => do
    return (← IO.getEnv name).map fun value => (name, Bytes.ofString value)
  return {
    vars := vars
    probe := fun _ => .notStarted (.os .noEntry)
    programDir := (← IO.appPath).parent.map fun dir => .ofString dir.toString
    bundledDir := bundledDir
    accountHome := ← readAccountHome }

/-- The part of the disk taken in so far, with the real paths of the directories seen whole. -/
structure Seen where
  files : FileSystem
  whole : List String

abbrev Seeing := StateT Seen IO

def update (steps : Disk Unit) : Seeing Unit :=
  modify fun seen => { seen with files := (steps.run seen.files).2 }

/-- A path from the root, as the system takes it. -/
def absolute (path : Path) : IO String := do return ((← IO.currentDir) / path.display).toString

/-- Sees the directories on the way to a path, without what is in them, and links among them. -/
def seeWay (path : Path) : Seeing Unit := do
  for above in (Disk.selfAndParents (path.bytes.length + 1) path).reverse do
    let place ← absolute above
    let there ← ((← IO.currentDir) / place).pathExists
    if there then
      let real := (← IO.FS.realPath place).toString
      if ← ((← IO.currentDir) / real).isDir then
        update (Disk.createDirs (.ofString real))
      if real != place then
        update (Disk.ofOperation (FileSystem.makeLink (.ofString place) (.ofString real)))

/-- Sees a path with all that is below it. What a link leads to is seen too. -/
partial def seeWhole (path : String) : Seeing Unit := do
  seeWay (.ofString path)
  let place := (← IO.currentDir) / path
  if ← place.pathExists then
    let real := (← IO.FS.realPath place).toString
    if (← get).whole.contains real then return
    modify fun seen => { seen with whole := real :: seen.whole }
    if ← place.isDir then
      for entry in ← ((← IO.currentDir) / real).readDir do
        seeWhole s!"{real}/{entry.fileName}"
    else
      let content ← IO.FS.readBinFile real
      update (Disk.ofOperation (FileSystem.writeFile (.ofString real) content.toList))

/-- The location of a path that is absolute and has only names. -/
def namesOf (path : Path) : Loc :=
  path.segments.filterMap fun
    | .name name => some name
    | _ => none

/-- The part of the disk that arguments make the program look at. -/
def readFiles (host : Host) (args : List Bytes) : IO FileSystem := do
  let cwd ← absolute ⟨[]⟩
  let see : Seeing Unit := do
    update (Disk.createDirs (.ofString cwd))
    update (Disk.createDirs bundledDir)
    modify fun seen => { seen with files := seen.files.put (namesOf bundledDir) Bundle.dir }
    match parseArguments host.source? args with
    | .error _ => pure ()
    | .ok invocation =>
      for path in invocation.sources host do seeWhole (← absolute path)
      for path in invocation.destination? host do
        seeWay path
        seeWhole (← absolute path)
  let (_, seen) ← see.run ⟨⟨.dir [], namesOf (.ofString cwd)⟩, []⟩
  return seen.files

/-- Makes a change on the disk. -/
def apply : Change → IO Unit
  | .remove loc .dir => IO.FS.removeDir (FileSystem.pathOf loc).display
  | .remove loc _ => IO.FS.removeFile (FileSystem.pathOf loc).display
  | .make loc .dir => IO.FS.createDirAll (FileSystem.pathOf loc).display
  | .make loc (.file content _) =>
    IO.FS.writeBinFile (FileSystem.pathOf loc).display ⟨content.toArray⟩
  | .make _ (.link _) => pure ()

end KernelSpec.Command

open KernelSpec KernelSpec.Command in
def main (args : List String) : IO UInt32 := do
  let host ← readHost
  let given := args.map Bytes.ofString
  let before ← readFiles host given
  let done := runProgram host given before
  (before.changes done.files).forM apply
  IO.print done.stdout
  IO.eprint done.stderr
  return done.exitCode.toUInt32
