import KernelSpec.CommandLine.Usage

/-! # Help texts -/

namespace KernelSpec.Help

/-- The variable that gives the directory of the kernel files. -/
def sourceVariable : String := "IJAVA_KERNEL_SOURCE"

/-- Texts in the long help are set apart, those in the short help follow on the line. -/
inductive Style where
  | short
  | long
deriving DecidableEq, Repr

/-- The blanks before the text of a flag. -/
def textIndent : String := "          "

/-- The names of a flag and its value, with room for a short name. -/
def heading (f : Flag) : String :=
  match f.short? with
  | some c => s!"  -{c}, {f.display}"
  | none => s!"      {f.display}"

/-- What the flag does, where the flag for help names the other style. -/
def aboutIn (style : Style) (f : Flag) : String :=
  match style, f with
  | .long, .help => "Print help (see a summary with '-h')"
  | _, f => f.about

/-- The variable that an option is taken from, with its value, or the values that it takes. -/
def note? (source : Option Bytes) : Flag → Option String
  | .kernelSource => some s!"[env: {sourceVariable}={(source.getD []).display}]"
  | .completions => some UsageError.possibleShells
  | _ => none

/-- A text whose lines after the first are indented as the first is. -/
def indented (text : String) : String :=
  String.ofList (text.toList.flatMap fun c => if c = '\n' then '\n' :: textIndent.toList else [c])

/-- The lines of a flag. -/
def item (style : Style) (source : Option Bytes) (f : Flag) : String :=
  let gap := match style with
    | .short => " "
    | .long => "\n\n"
  let note := (note? source f).elim "" fun note => gap ++ note
  s!"{heading f}\n{textIndent}{indented (aboutIn style f ++ note)}\n"

def title : Style → String
  | .short => "Install the java kernel.\n"
  | .long =>
    "IJava kernel installer\n\n" ++
      "Install the Java kernel spec into a Jupyter kernel registry.\n"

def examples : String :=
  String.join
    ["Examples:\n",
      "   ijava-install --user                               # Per-user registry\n",
      "   ijava-install --sys-prefix --replace               # Active Python environment\n",
      "   ijava-install --prefix /opt/jupyter                # Explicit prefix\n",
      "   ijava-install --user --classpath 'lib/*' --timeout NO_TIMEOUT\n"]

/-- The help text; `source` is the value of the variable for kernel files. -/
def text (style : Style) (source : Option Bytes) : String :=
  let between := match style with
    | .short => ""
    | .long => "\n"
  let options := between.intercalate (Flag.all.map (item style source))
  s!"{title style}\nUsage: {programName} {UsageError.anyOptions}\n\nOptions:\n{options}\n{examples}"

/-- The text of the version. -/
def versionText : String := s!"{programName} {programVersion}\n"

end KernelSpec.Help
