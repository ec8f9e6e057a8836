import KernelSpec.FileSystem.Fault
import KernelSpec.FileSystem.Node

/-! # What a path names

A path is followed from the root or the working directory, segment by segment. A link on the way
is replaced by its target, and at most `maxLinks` links are followed. The last segment may name
nothing: then the path names a free place in a directory.
-/

namespace KernelSpec.FileSystem

/-- The most bytes of a path. -/
def maxPath : Nat := 4095

/-- The most bytes of a name. -/
def maxName : Nat := 255

/-- The most links followed for one path. -/
def maxLinks : Nat := 40

/-- What becomes of a link at the end of a path. -/
inductive LastLink where
  /-- The path names the link. -/
  | kept
  /-- The path names what the link leads to. -/
  | followed
  /-- The path names a file to write, which the link leads to. -/
  | written
deriving DecidableEq, Repr

/-- What a path names. -/
inductive Spot where
  | occupied (loc : Loc)
  /-- A name that is free in an existing directory. -/
  | vacant (dir : Loc) (name : Name)
deriving DecidableEq, Repr

/-- Follows segments from a location. `follow` goes on at a link in the directory `loc`, with its
target and the segments after it. -/
def descend (fs : FileSystem) (follow : Loc → Path → List Segment → Except Errno Spot)
    (followLast : Bool) : Loc → List Segment → Except Errno Spot
  | loc, [] => .ok (.occupied loc)
  | loc, segment :: rest =>
    match fs.get? loc with
    | none => .error .noEntry
    | some (.dir entries) =>
      match segment with
      | .here => descend fs follow followLast loc rest
      | .up => descend fs follow followLast loc.dropLast rest
      | .name name =>
        if maxName < name.length then .error .nameTooLong
        else
          match Entries.find? entries name with
          | none => if rest.isEmpty then .ok (.vacant loc name) else .error .noEntry
          | some (.link target) =>
            if rest.isEmpty && !followLast then .ok (.occupied (loc ++ [name]))
            else follow loc target rest
          | some _ => descend fs follow followLast (loc ++ [name]) rest
    | some _ => .error .notDirectory

/-- The segments of a path that has to be a directory when it ends in a slash. -/
def lookupSegments (p : Path) : List Segment :=
  p.segments ++ if p.endsInSlash then [.here] else []

/-- The segments that lead to the directory of the last one. -/
def aboveSegments (p : Path) : List Segment := p.segments.dropLast ++ [.here]

/-- Where the segments of a path begin, seen from a directory. -/
def startFrom (p : Path) (dir : Loc) : Loc := if p.isAbsolute then [] else dir

/-- A path that ends in a slash names no file to write, once the directory of its last segment is
found. -/
def refuseSlash (above : Except Errno Spot) : Except Errno Spot :=
  above.bind fun _ => .error .isDirectory

/-- Follows segments through at most the given number of links. -/
def resolveFrom (fs : FileSystem) : Nat → LastLink → Loc → List Segment → Except Errno Spot
  | 0, last => descend fs (fun _ _ _ => .error .tooManyLinks) (last != .kept)
  | links + 1, last =>
    descend fs
      (fun dir target rest =>
        let start := startFrom target dir
        if last = .written && rest.isEmpty && target.endsInSlash then
          refuseSlash (resolveFrom fs links .followed start (aboveSegments target))
        else resolveFrom fs links last start (lookupSegments target ++ rest))
      (last != .kept)

/-- Refuses the paths that name nothing in any file system. -/
def checkPath (p : Path) : Except Fault Unit :=
  if p.bytes.contains 0 then .error .nulByte
  else if p.isEmpty then .error (.os .noEntry)
  else if maxPath < p.bytes.length then .error (.os .nameTooLong)
  else .ok ()

/-- Follows segments of a path, after the path itself is checked. -/
def resolveSegments (fs : FileSystem) (p : Path) (last : LastLink) (segments : List Segment) :
    Except Fault Spot := do
  checkPath p
  (resolveFrom fs maxLinks last (startFrom p fs.cwd) segments).mapError .os

/-- What a path names, all links followed. -/
def lookup (fs : FileSystem) (p : Path) : Except Fault Spot :=
  fs.resolveSegments p .followed (lookupSegments p)

/-- What a path names, where a link at the end names itself. -/
def lookupLink (fs : FileSystem) (p : Path) : Except Fault Spot :=
  fs.resolveSegments p .kept (lookupSegments p)

/-- The place of the last name of a path, whether or not a slash follows it. -/
def lookupPlace (fs : FileSystem) (p : Path) : Except Fault Spot :=
  fs.resolveSegments p .kept p.segments

/-- What a path names as a file to write. -/
def lookupWritten (fs : FileSystem) (p : Path) : Except Fault Spot := do
  checkPath p
  let start := startFrom p fs.cwd
  let found :=
    if p.endsInSlash then refuseSlash (resolveFrom fs maxLinks .followed start (aboveSegments p))
    else resolveFrom fs maxLinks .written start p.segments
  found.mapError .os

/-- The location of the object that a path names. -/
def locate (fs : FileSystem) (p : Path) : Except Fault Loc := do
  match ← fs.lookup p with
  | .occupied loc => return loc
  | .vacant _ _ => throw (.os .noEntry)

/-- The object that a path names. -/
def stat? (fs : FileSystem) (p : Path) : Option Node :=
  match fs.locate p with
  | .ok loc => fs.get? loc
  | .error _ => none

def pathExists (fs : FileSystem) (p : Path) : Bool := (fs.stat? p).isSome

def isDir (fs : FileSystem) (p : Path) : Bool := (fs.stat? p).any Node.isDir

end KernelSpec.FileSystem
