/-! # Reports of progress

A step of an installation is shown as a line: a label, aligned to the right, and a detail.
-/

namespace KernelSpec

/-- One step of an installation. -/
structure Step where
  label : String
  detail : String
deriving DecidableEq, Repr

namespace Step

/-- The characters that a label takes. -/
def labelWidth : Nat := 12

/-- Blanks up to the width of labels, then the label. -/
def alignedLabel (label : String) : String :=
  String.ofList (List.replicate (labelWidth - label.length) ' ') ++ label

/-- Bold and cyan, as terminals take it. -/
def highlight (text : String) : String := s!"\x1b[36m\x1b[1m{text}\x1b[0m"

def line (colored : Bool) (step : Step) : String :=
  let label := alignedLabel step.label
  s!"{if colored then highlight label else label} {step.detail}\n"

/-- The lines of steps; without `verbose` nothing is shown. -/
def report (verbose colored : Bool) (steps : List Step) : String :=
  if verbose then String.join (steps.map (line colored)) else ""

end Step

end KernelSpec
