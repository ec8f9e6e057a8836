import KernelSpec.Completion.Basic

/-! # Completion for zsh -/

namespace KernelSpec.Completion.Zsh

/-- The characters that have a backslash before them in a description. -/
def special : List Char := ['\\', '[', ']', ':', '$', '`']

/-- A description within single quotes: a quote ends them, stands alone and opens them again. -/
def description (text : String) : String :=
  escapeWith
    (fun c =>
      if c = '\'' then ['\'', '\\', '\'', '\'']
      else if special.contains c then ['\\', c]
      else [c])
    text

/-- How the value of an option is completed. -/
def action (f : Flag) : String :=
  if f = .completions then s!"({shellWords})"
  else if f.takesPath then "_files"
  else "_default"

/-- The line of an option; a star marks one that may be repeated. -/
def optionLine (f : Flag) : String :=
  let star := if f.isRepeatable then "*" else ""
  let valueName := f.valueName?.getD ""
  s!"'{star}--{f.name}=[{description f.about}]:{valueName}:{action f}' \\"

/-- One line for each word of a flag without value. -/
def switchLines (f : Flag) : List String :=
  (words f).map fun word => s!"'{word}[{description f.about}]' \\"

def opening : List String :=
  [s!"#compdef {programName}",
    "",
    "autoload -U is-at-least",
    "",
    s!"_{programName}() \x7b",
    "    typeset -A opt_args",
    "    typeset -a _arguments_options",
    "    local ret=1",
    "",
    "    if is-at-least 5.2; then",
    "        _arguments_options=(-s -S -C)",
    "    else",
    "        _arguments_options=(-s -C)",
    "    fi",
    "",
    "    local context curcontext=\"$curcontext\" state line",
    "    _arguments \"$\x7b_arguments_options[@]\x7d\" : \\"]

def closing : List String :=
  ["&& ret=0",
    "\x7d",
    "",
    s!"(( $+functions[_{programName}_commands] )) ||",
    s!"_{programName}_commands() \x7b",
    "    local commands; commands=()",
    s!"    _describe -t commands '{programName} commands' commands \"$@\"",
    "\x7d",
    "",
    s!"if [ \"$funcstack[1]\" = \"_{programName}\" ]; then",
    s!"    _{programName} \"$@\"",
    "else",
    s!"    compdef _{programName} {programName}",
    "fi"]

def script : String :=
  unlines (opening ++ options.map optionLine ++ switches.flatMap switchLines ++ closing)

end KernelSpec.Completion.Zsh
