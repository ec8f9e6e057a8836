import KernelSpec.Path

/-! # Trees of directories, files and links

A file system is a tree of nodes, seen from a working directory. The objects of a directory stand
in the order in which the system enumerates them; of two with one name only the first counts, and
`erase` and `set` leave no second one behind. A node is addressed by its `Loc`, the names from the
root, which involves no links.
-/

namespace KernelSpec

/-- The names that lead from the root to an object, links aside. -/
abbrev Loc := List Name

inductive Node where
  | file (content : Bytes) (executable : Bool)
  | link (target : Path)
  | dir (entries : List (Name × Node))
deriving Repr, Inhabited

/-- What an object is, without what is below it. -/
inductive Entry where
  | dir
  | file (content : Bytes) (executable : Bool)
  | link (target : Path)
deriving DecidableEq, Repr

/-- The objects of a directory with their names. -/
abbrev Entries := List (Name × Node)

namespace Entries

def find? : Entries → Name → Option Node
  | [], _ => none
  | (name, node) :: rest, wanted => if wanted = name then some node else find? rest wanted

def erase (entries : Entries) (name : Name) : Entries := entries.filter fun entry => entry.1 ≠ name

/-- Puts an object under a name: in the place of the one there, or after all others. -/
def set : Entries → Name → Node → Entries
  | [], name, node => [(name, node)]
  | (other, old) :: rest, name, node =>
    if name = other then (name, node) :: erase rest name else (other, old) :: set rest name node

/-- The names, each once. -/
def names (entries : Entries) : List Name := (entries.map (·.1)).eraseDups

theorem find?_erase (entries : Entries) (name wanted : Name) :
    (entries.erase name).find? wanted = if wanted = name then none else entries.find? wanted := by
  induction entries with
  | nil => simp [erase, find?]
  | cons entry rest ih =>
    obtain ⟨other, node⟩ := entry
    simp only [erase] at ih
    by_cases other_eq : other = name
    · subst other_eq
      simp only [erase, find?]
      rw [List.filter_cons_of_neg (by simp), ih]
      by_cases found : wanted = other <;> simp [found]
    · simp only [erase, find?]
      rw [List.filter_cons_of_pos (by simpa using other_eq)]
      simp only [find?, ih]
      by_cases found : wanted = other
      · subst found
        simp [other_eq]
      · simp [found]

theorem find?_set (entries : Entries) (name : Name) (node : Node) (wanted : Name) :
    (entries.set name node).find? wanted =
      if wanted = name then some node else entries.find? wanted := by
  induction entries with
  | nil => simp [set, find?]
  | cons entry rest ih =>
    obtain ⟨other, old⟩ := entry
    simp only [set]
    split
    · next same =>
      subst same
      by_cases found : wanted = name <;> simp [find?, find?_erase, found]
    · next different =>
      by_cases found : wanted = other
      · subst found
        simp [find?, Ne.symm different]
      · simp [find?, found, ih]

end Entries

namespace Node

def isDir : Node → Bool
  | .dir _ => true
  | _ => false

def entry : Node → Entry
  | .file content executable => .file content executable
  | .link target => .link target
  | .dir _ => .dir

/-- The node below this one under the given names. -/
def get? : Node → Loc → Option Node
  | node, [] => some node
  | .dir entries, name :: rest => (Entries.find? entries name).bind (·.get? rest)
  | _, _ :: _ => none

/-- Puts a node below this one. Nothing changes unless its parent is a directory. -/
def put : Node → Loc → Node → Node
  | _, [], new => new
  | .dir entries, [name], new => .dir (Entries.set entries name new)
  | .dir entries, name :: rest, new =>
    match Entries.find? entries name with
    | some child => .dir (Entries.set entries name (child.put rest new))
    | none => .dir entries
  | node, _ :: _, _ => node

/-- Takes away the object below this one, with all that is below it. -/
def erase : Node → Loc → Node
  | node, [] => node
  | .dir entries, [name] => .dir (Entries.erase entries name)
  | .dir entries, name :: rest =>
    match Entries.find? entries name with
    | some child => .dir (Entries.set entries name (child.erase rest))
    | none => .dir entries
  | node, _ :: _ => node

mutual

/-- All objects below a node, each with where it is. -/
def listing (above : Loc) : Node → List (Loc × Entry)
  | .dir entries => listingOf above entries
  | _ => []

/-- All objects of a directory and below them. -/
def listingOf (above : Loc) : List (Name × Node) → List (Loc × Entry)
  | [] => []
  | (name, node) :: rest =>
    (above ++ [name], node.entry) :: (node.listing (above ++ [name]) ++ listingOf above rest)

end

end Node

/-- A tree seen from a working directory. -/
structure FileSystem where
  root : Node
  cwd : Loc
deriving Repr, Inhabited

namespace FileSystem

/-- The object at a location. -/
def get? (fs : FileSystem) (loc : Loc) : Option Node := fs.root.get? loc

/-- What the object at a location is. -/
def kind? (fs : FileSystem) (loc : Loc) : Option Entry := (fs.get? loc).map Node.entry

def put (fs : FileSystem) (loc : Loc) (node : Node) : FileSystem :=
  { fs with root := fs.root.put loc node }

def erase (fs : FileSystem) (loc : Loc) : FileSystem := { fs with root := fs.root.erase loc }

end FileSystem

end KernelSpec
