import KernelSpec.Completion.Basic

/-! # Completion for fish -/

namespace KernelSpec.Completion.Fish

/-- A text in single quotes, where a quote has a backslash before it. -/
def quoted (text : String) : String :=
  let inner := escapeWith (fun c => if c = '\'' then ['\\', '\''] else [c]) text
  s!"'{inner}'"

/-- The names of the shells as values without description. -/
def shellValues : String := "\n".intercalate (shellNames.map fun name => name ++ "\\t''")

/-- How the value of an option is completed. -/
def value (f : Flag) : String :=
  if f = .completions then s!" -r -f -a \"{shellValues}\""
  else if f.takesPath then " -r -F"
  else if f.takesValue then " -r"
  else ""

def line (f : Flag) : String :=
  let short := f.short?.elim "" fun c => s!" -s {c}"
  s!"complete -c {programName}{short} -l {f.name} -d {quoted f.about}{value f}"

def script : String := unlines ((options ++ switches).map line)

end KernelSpec.Completion.Fish
