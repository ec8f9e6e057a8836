import KernelSpec.FileSystem.Operation

/-! # Copying a tree

The source is walked with links followed: what a link leads to is copied in its place. An object is
copied when the walk reaches it, a directory before its objects, in the order in which the system
enumerates them. The walk fails at a link that leads nowhere and at a link to a directory that the
walk is inside of. What was copied before a failure stays.
-/

namespace KernelSpec.Disk

/-- The directories that the walk is inside of, the nearest first: each path as walked, and where
it leads. -/
abbrev Trail := List (Path × Loc)

/-- The ancestor at a location. -/
def Trail.ancestor? (trail : Trail) (loc : Loc) : Option Path :=
  (trail.find? fun ancestor => ancestor.2 = loc).map (·.1)

/-- Where a link met by the walk leads. -/
def followLink (trail : Trail) (object : Path) (fs : FileSystem) : Except Fault Loc :=
  match fs.locate object with
  | .error fault => .error (.walk object fault)
  | .ok loc =>
    match (fs.get? loc).any Node.isDir, trail.ancestor? loc with
    | true, some ancestor => .error (.loop object ancestor)
    | _, _ => .ok loc

/-- Where an object met by the walk is, given where its name is, or leads, when it is a link. -/
def walkTo (trail : Trail) (object : Path) (place : Loc) (fs : FileSystem) : Except Fault Loc :=
  match fs.get? place with
  | some (.link _) => followLink trail object fs
  | some _ => .ok place
  | none => .error (.walk object (.os .noEntry))

/-- Where the walk starts. -/
def walkStart (object : Path) (fs : FileSystem) : Except Fault Loc :=
  match fs.lookupLink object with
  | .error fault => .error (.walk object fault)
  | .ok (.vacant _ _) => .error (.walk object (.os .noEntry))
  | .ok (.occupied place) => walkTo [] object place fs

/-- Opens a directory that the walk has reached. -/
def openDir (object : Path) (fs : FileSystem) : Except Fault Loc :=
  (fs.locate object).mapError (.walk object)

/-- The names of the objects of a directory. -/
def namesIn (dir : Loc) (fs : FileSystem) : List Name :=
  match fs.get? dir with
  | some (.dir entries) => Entries.names entries
  | _ => []

/-- Copies a file, after the directory it goes to has been made. -/
def copyLeaf (object target : Path) : Disk Unit := do
  match target.parent? with
  | some parent => createDirs parent
  | none => pure ()
  ofOperation (FileSystem.copyFile object target)

/-- Copies the object that the walk has reached at `loc` to `target`, and what is below it to
places below `base`. A path below the object is longer than its own, so the walk is at most as
deep as a path has bytes. -/
def copyFrom : Nat → Trail → (object target base : Path) → Loc → Disk Unit
  | 0, _, object, _, _, _ => throw (.walk object (.os .nameTooLong))
  | fuel + 1, trail, object, target, base, loc => do
    if ((← get).get? loc).any Node.isDir then
      let dir ← ask (openDir object)
      createDirs target
      (namesIn dir (← get)).forM fun name => do
        let inner := object.join ⟨name⟩
        let place ← ask (walkTo ((object, loc) :: trail) inner (dir ++ [name]))
        let innerTarget := base.join ⟨name⟩
        copyFrom fuel ((object, loc) :: trail) inner innerTarget innerTarget place
    else copyLeaf object target

/-- Copies a tree to a place by a walk that goes so many levels deep, making what is missing above
the place. A source that is a file has the place with a slash as its target, and so is never
copied. -/
def copyWithin (depth : Nat) (source target : Path) : Disk Unit := do
  let loc ← ask (walkStart source)
  copyFrom depth [] source (target.join ⟨[]⟩) target loc

/-- Copies a tree to a place. The walk goes deeper than any path is long. -/
def copyTree (source target : Path) : Disk Unit :=
  copyWithin (FileSystem.maxPath + 2) source target

end KernelSpec.Disk
