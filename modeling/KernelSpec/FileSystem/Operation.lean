import KernelSpec.FileSystem.Resolve

/-! # Operations on a file system

A single operation either fails and changes nothing or succeeds; its type says so. An operation
made of several steps runs in `Disk`, where the changes made before a failure stay.
-/

namespace KernelSpec

/-- Steps on a file system; a failure keeps what was done before it. -/
abbrev Disk (α : Type) := ExceptT Fault (StateM FileSystem) α

namespace FileSystem

/-- Makes a directory. Any object at the place is in the way, a link too. -/
def makeDir (p : Path) (fs : FileSystem) : Except Fault FileSystem := do
  match ← fs.lookupPlace p with
  | .occupied _ => throw (.os .alreadyExists)
  | .vacant dir name => return fs.put (dir ++ [name]) (.dir [])

/-- The content of a file and whether it is executable. -/
def readFile (fs : FileSystem) (p : Path) : Except Fault (Bytes × Bool) := do
  match fs.get? (← fs.locate p) with
  | some (.file content executable) => return (content, executable)
  | _ => throw (.os .isDirectory)

/-- Where writing to a path goes: to the file there, or the file a link there leads to, or a free
place. -/
def writePlace (fs : FileSystem) (p : Path) : Except Fault Loc := do
  match ← fs.lookupWritten p with
  | .vacant dir name => return dir ++ [name]
  | .occupied loc =>
    match fs.get? loc with
    | some (.file _ _) => return loc
    | _ => throw (.os .isDirectory)

/-- Whether the file at a location is executable. -/
def isExecutable (fs : FileSystem) (loc : Loc) : Bool :=
  match fs.get? loc with
  | some (.file _ executable) => executable
  | _ => false

/-- Replaces the content of a file, which keeps its mode; a new file is not executable. -/
def writeFile (p : Path) (content : Bytes) (fs : FileSystem) : Except Fault FileSystem := do
  let loc ← fs.writePlace p
  return fs.put loc (.file content (fs.isExecutable loc))

/-- Copies a file with its mode. The target is emptied before the source is read, so a file copied
onto itself ends up empty. -/
def copyFile (source target : Path) (fs : FileSystem) : Except Fault FileSystem := do
  let origin ← fs.locate source
  let (_, executable) ← fs.readFile source
  let place ← fs.writePlace target
  let emptied := fs.put place (.file [] executable)
  match emptied.get? origin with
  | some (.file content _) => return emptied.put place (.file content executable)
  | _ => return emptied

/-- Takes away a file or a link. -/
def unlink (p : Path) (fs : FileSystem) : Except Fault FileSystem := do
  match ← fs.lookupPlace p with
  | .vacant _ _ => throw (.os .noEntry)
  | .occupied loc =>
    match fs.get? loc, p.segments.getLast? with
    | some (.dir _), _ => throw (.os .isDirectory)
    | _, some (.name _) => if p.endsInSlash then throw (.os .notDirectory) else return fs.erase loc
    | _, _ => throw (.os .isDirectory)

/-- Takes away an empty directory, which has to be named by the end of the path. -/
def removeEmptyDir (p : Path) (fs : FileSystem) : Except Fault FileSystem := do
  match ← fs.lookupPlace p with
  | .vacant _ _ => throw (.os .noEntry)
  | .occupied loc =>
    match p.segments.getLast?, fs.get? loc with
    | none, _ => throw (.os .busy)
    | some .here, _ => throw (.os .invalidArgument)
    | some .up, _ => throw (.os .notEmpty)
    | some (.name _), some (.dir []) => return fs.erase loc
    | some (.name _), some (.dir _) => throw (.os .notEmpty)
    | some (.name _), _ => throw (.os .notDirectory)

/-- Takes away what is in a directory. -/
def clear (fs : FileSystem) (loc : Loc) : FileSystem := fs.put loc (.dir [])

/-- Makes a link. Any object at the place is in the way. -/
def makeLink (p target : Path) (fs : FileSystem) : Except Fault FileSystem := do
  match ← fs.lookupPlace p with
  | .occupied _ => throw (.os .alreadyExists)
  | .vacant dir name => return fs.put (dir ++ [name]) (.link target)

/-! ## Absolute paths

Finding the absolute path of an object asks about each name on the way by the absolute path of that
name. So the limit on the length of a path holds for all of these, however short the path is that
was given.
-/

/-- The absolute path of a location. -/
def pathOf (loc : Loc) : Path :=
  if loc.isEmpty then ⟨[Path.slash]⟩ else ⟨loc.flatMap fun name => Path.slash :: name⟩

/-- Whether the segments after a name need a directory there: they go up from it, or have nothing
but `.` to the end. -/
def needDir : List Segment → Bool
  | .up :: _ => true
  | .here :: rest => rest.isEmpty || needDir rest
  | _ => false

/-- The path by which a name on the way is asked about, where `rest` follows it. What needs to be a
directory gets a slash, unless it is a link, which is read first. -/
def askedPath (fs : FileSystem) (place : Loc) (rest : List Segment) : Path :=
  match fs.kind? place with
  | some (.link _) => pathOf place
  | _ => if needDir rest then (pathOf place).join ⟨[]⟩ else pathOf place

/-- Whether the path of each name on the way keeps the limit. `follow` goes on at a link in the
directory `loc`, with its target and the segments after it. -/
def fitsDown (fs : FileSystem) (follow : Loc → Path → List Segment → Bool) :
    Loc → List Segment → Bool
  | _, [] => true
  | loc, .here :: rest => fitsDown fs follow loc rest
  | loc, .up :: rest => fitsDown fs follow loc.dropLast rest
  | loc, .name name :: rest =>
    (fs.askedPath (loc ++ [name]) rest).bytes.length ≤ maxPath &&
      match fs.kind? (loc ++ [name]) with
      | some (.link target) => follow loc target rest
      | _ => fitsDown fs follow (loc ++ [name]) rest

/-- Whether the path of each name on the way, through at most the given number of links, keeps the
limit. -/
def fitsFrom (fs : FileSystem) : Nat → Loc → List Segment → Bool
  | 0 => fitsDown fs fun _ _ _ => true
  | links + 1 =>
    fitsDown fs fun dir target rest =>
      fitsFrom fs links (startFrom target dir) (lookupSegments target ++ rest)

/-- The absolute path of an existing object, without links. -/
def canonicalize (fs : FileSystem) (p : Path) : Except Fault Path := do
  let loc ← fs.locate p
  if fs.fitsFrom maxLinks (startFrom p fs.cwd) (lookupSegments p) then return pathOf loc
  else throw (.os .nameTooLong)

end FileSystem

namespace Disk

/-- A single operation as a step. -/
def ofOperation (operation : FileSystem → Except Fault FileSystem) : Disk Unit :=
  ExceptT.mk fun fs =>
    match operation fs with
    | .ok changed => (.ok (), changed)
    | .error fault => (.error fault, fs)

/-- A question about the file system as a step. -/
def ask {α : Type} (question : FileSystem → Except Fault α) : Disk α :=
  ExceptT.mk fun fs => (question fs, fs)

/-- Makes a directory unless there is one, also behind a link. -/
def ensureDir (p : Path) : Disk Unit :=
  ExceptT.mk fun fs =>
    match fs.makeDir p with
    | .ok changed => (.ok (), changed)
    | .error fault =>
      if fault = .os .alreadyExists && fs.isDir p then (.ok (), fs) else (.error fault, fs)

/-- Makes the first directory of a list whose parents follow it. The parents are made only when
the first attempt finds no parent. -/
def ensureDirs : List Path → Disk Unit
  | [] => pure ()
  | p :: parents =>
    tryCatch (ensureDir p) fun fault =>
      if fault = .os .noEntry then do
        ensureDirs parents
        ensureDir p
      else throw fault

/-- A path and the paths above it, up to and without the root or the empty path. -/
def selfAndParents : Nat → Path → List Path
  | 0, _ => []
  | fuel + 1, p =>
    match p.parent? with
    | none => []
    | some parent => p :: selfAndParents fuel parent

/-- Makes a directory with all that is missing above it. -/
def createDirs (p : Path) : Disk Unit := ensureDirs (selfAndParents (p.bytes.length + 1) p)

/-- Removes a directory with all that is in it; of a link only the link. What is in the directory
goes in one step: a file system here knows neither permissions nor how many directories may be open
at a time, so nothing in it withstands removal. The directory may be gone by the time it is removed
itself, when its path leads through something inside it. -/
def removeTree (p : Path) : Disk Unit := do
  match ← ask (·.lookupLink p) with
  | .vacant _ _ => throw (.os .noEntry)
  | .occupied loc =>
    match (← get).get? loc with
    | some (.dir _) =>
      modify (·.clear loc)
      tryCatch (ofOperation (FileSystem.removeEmptyDir p)) fun fault =>
        if fault = .os .noEntry then pure () else throw fault
    | _ => ofOperation (FileSystem.unlink p)

/-- Removes whatever a path names. -/
def removePath (p : Path) : Disk Unit := do
  if (← get).isDir p then removeTree p else ofOperation (FileSystem.unlink p)

end Disk

end KernelSpec
