import KernelSpec.Text.Bytes

/-! # Paths

A path is kept as the bytes it was written with, because messages show it that way. `segments`
is what it means: the names between slashes, with `.` and `..` told apart. `join` and `parent?`
work on the written form.
-/

namespace KernelSpec

/-- The name of one object in a directory. -/
abbrev Name := Bytes

/-- A path as it is written. -/
structure Path where
  bytes : Bytes
deriving DecidableEq, Repr

/-- One step of a path. -/
inductive Segment where
  /-- `.`: stay. -/
  | here
  /-- `..`: go to the directory above. -/
  | up
  | name (name : Name)
deriving DecidableEq, Repr

namespace Path

def slash : UInt8 := 0x2F

def dot : UInt8 := 0x2E

def ofString (s : String) : Path := ⟨Bytes.ofString s⟩

def isEmpty (p : Path) : Bool := p.bytes.isEmpty

def isAbsolute (p : Path) : Bool := p.bytes.head? == some slash

def endsInSlash (p : Path) : Bool := p.bytes.getLast? == some slash

/-- The path for a message. -/
def display (p : Path) : String := p.bytes.display

/-- The second path seen from the first; an absolute path stays as it is. One slash is put between
them unless the first is empty or ends in one, so joining an empty path adds a slash. -/
def join (p q : Path) : Path :=
  if q.isAbsolute then q
  else if p.isEmpty || p.endsInSlash then ⟨p.bytes ++ q.bytes⟩
  else ⟨p.bytes ++ slash :: q.bytes⟩

/-- The path of a named object in a directory. -/
def child (p : Path) (name : String) : Path := p.join (ofString name)

/-- The parts between slashes, empty ones included. -/
def splitSlash : Bytes → List Bytes
  | [] => [[]]
  | b :: rest =>
    if b = slash then [] :: splitSlash rest
    else
      match splitSlash rest with
      | [] => [[b]]
      | part :: parts => (b :: part) :: parts

/-- The step that a part stands for; an empty part is none. -/
def segmentOf? (part : Bytes) : Option Segment :=
  if part = [] then none
  else if part = [dot] then some .here
  else if part = [dot, dot] then some .up
  else some (.name part)

/-- The steps of a path. A slash at the end is not one of them. -/
def segments (p : Path) : List Segment := (splitSlash p.bytes).filterMap segmentOf?

/-- Drops slashes and `.` parts from the end of reversed bytes, but not a leading slash or dot. -/
def trimEnd : Bytes → Bytes
  | b :: c :: rest =>
    if b = slash then trimEnd (c :: rest)
    else if b = dot && c = slash then trimEnd (c :: rest)
    else b :: c :: rest
  | short => short

/-- The path without its last part; `none` for an empty path and for the root. -/
def parent? (p : Path) : Option Path :=
  match trimEnd p.bytes.reverse with
  | [] => none
  | reversed =>
    if reversed = [slash] then none
    else some ⟨(trimEnd (reversed.dropWhile (· != slash))).reverse⟩

end Path

end KernelSpec
