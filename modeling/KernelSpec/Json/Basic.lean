import KernelSpec.Dictionary
import KernelSpec.Number.Binary64

/-! # JSON values

The members of an object form a `Dictionary`: sorted by name, each name once. Reading builds
objects by `Dictionary.insert`, so a repeated name keeps the last value. Writing does not rely on
that order: it sorts the members of every object (`sortKeys`).
-/

namespace KernelSpec.Json

/-- An integer of at most 64 bits, or a binary64 number. -/
inductive Number where
  | integer (value : Int)
  | real (value : Binary64)
deriving DecidableEq, Repr

inductive Value where
  | null
  | bool (value : Bool)
  | number (value : Number)
  | string (value : String)
  | array (items : List Value)
  | object (members : List (String × Value))
deriving Repr, Inhabited

end KernelSpec.Json
