import KernelSpec.CommandLine.Flag

/-! # Parts of completion scripts

What the scripts for all shells share: the flags split into those with and without a value, and
lines of text.
-/

namespace KernelSpec.Completion

/-- The options that take a value. -/
def options : List Flag := Flag.all.filter Flag.takesValue

/-- The flags that take no value. -/
def switches : List Flag := Flag.all.filter fun f => !f.takesValue

/-- The words for a flag: the short one, if there is one, and the long one. -/
def words (f : Flag) : List String :=
  (f.short?.elim [] fun c => [s!"-{c}"]) ++ [s!"--{f.name}"]

def shellNames : List String := Shell.all.map Shell.name

/-- The names of the shells with blanks between them. -/
def shellWords : String := " ".intercalate shellNames

/-- Lines, each with its end. -/
def unlines (lines : List String) : String := String.join (lines.map (· ++ "\n"))

/-- A text with some of its characters spelled otherwise. -/
def escapeWith (spell : Char → List Char) (text : String) : String :=
  String.ofList (text.toList.flatMap spell)

/-- A text in single quotes, where a quote is written twice. -/
def doubledQuotes (text : String) : String :=
  let inner := escapeWith (fun c => if c = '\'' then ['\'', '\''] else [c]) text
  s!"'{inner}'"

end KernelSpec.Completion
