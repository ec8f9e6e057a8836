import KernelSpec.Path

/-! # Faults of file operations

An operation fails with the error number of the system, because a path holds a NUL byte, or, while
a tree is walked, with one of these at an object of the tree or with a cycle of links.
-/

namespace KernelSpec

/-- The error numbers that file operations give. -/
inductive Errno where
  | noEntry
  | denied
  | busy
  | alreadyExists
  | notDirectory
  | isDirectory
  | invalidArgument
  | nameTooLong
  | notEmpty
  | tooManyLinks
deriving DecidableEq, Repr

def Errno.code : Errno → Nat
  | .noEntry => 2
  | .denied => 13
  | .busy => 16
  | .alreadyExists => 17
  | .notDirectory => 20
  | .isDirectory => 21
  | .invalidArgument => 22
  | .nameTooLong => 36
  | .notEmpty => 39
  | .tooManyLinks => 40

def Errno.text : Errno → String
  | .noEntry => "No such file or directory"
  | .denied => "Permission denied"
  | .busy => "Device or resource busy"
  | .alreadyExists => "File exists"
  | .notDirectory => "Not a directory"
  | .isDirectory => "Is a directory"
  | .invalidArgument => "Invalid argument"
  | .nameTooLong => "File name too long"
  | .notEmpty => "Directory not empty"
  | .tooManyLinks => "Too many levels of symbolic links"

inductive Fault where
  | os (errno : Errno)
  /-- No path with a NUL byte reaches the system. -/
  | nulByte
  /-- Raised at an object of the tree that is walked. -/
  | walk (object : Path) (cause : Fault)
  /-- A link to a directory that the walk is inside of. -/
  | loop (link ancestor : Path)
deriving DecidableEq, Repr

def Fault.message : Fault → String
  | .os errno => s!"{errno.text} (os error {errno.code})"
  | .nulByte => "file name contained an unexpected NUL byte"
  | .walk object cause => s!"IO error for operation on {object.display}: {cause.message}"
  | .loop link ancestor =>
    s!"File system loop found: {link.display} points to an ancestor {ancestor.display}"

end KernelSpec
