import KernelSpec.Error

/-! # Kernel names -/

namespace KernelSpec

/-- A name that a registry accepts, in lower case. -/
structure KernelName where
  text : String
deriving DecidableEq, Repr

namespace KernelName

def isNameChar (c : Char) : Bool := c.isAlphanum || c == '.' || c == '_' || c == '-'

/-- Names are ASCII letters, digits, `.`, `_` and `-`, and not empty. Case does not matter. -/
def parse (name : String) : Except InstallError KernelName :=
  if name.toList.isEmpty || !name.toList.all isNameChar then .error (.invalidKernelName name)
  else .ok ⟨String.ofList (name.toList.map Char.toLower)⟩

end KernelName

end KernelSpec
