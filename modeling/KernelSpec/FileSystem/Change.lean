import KernelSpec.FileSystem.Node

/-! # Changes between two file systems

What has to be done to a file system to get another one from it, object by object: first what has
to go, directories after what is in them, then what has to be made, directories before what is in
them.
-/

namespace KernelSpec

inductive Change where
  | remove (loc : Loc) (entry : Entry)
  | make (loc : Loc) (entry : Entry)
deriving DecidableEq, Repr

namespace FileSystem

/-- All objects with what they are. -/
def objects (fs : FileSystem) : List (Loc × Entry) := fs.root.listing []

/-- Whether an object of `before` is in the way of what is there in `after`: it is gone, or it has
become another kind of object. -/
def isObsolete (after : FileSystem) (loc : Loc) : Entry → Bool
  | .dir => after.kind? loc != some .dir
  | .file _ _ =>
    match after.kind? loc with
    | some (.file _ _) => false
    | _ => true
  | .link target => after.kind? loc != some (.link target)

/-- The changes that lead from one file system to another. -/
def changes (before after : FileSystem) : List Change :=
  let obsolete := before.objects.filter fun object => after.isObsolete object.1 object.2
  let made := after.objects.filter fun object => before.kind? object.1 != some object.2
  obsolete.reverse.map (fun object => .remove object.1 object.2) ++
    made.map (fun object => .make object.1 object.2)

end FileSystem

end KernelSpec
