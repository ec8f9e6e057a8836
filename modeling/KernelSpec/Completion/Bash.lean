import KernelSpec.Completion.Basic

/-! # Completion for bash -/

namespace KernelSpec.Completion.Bash

/-- The function of the script; a dash in the name of the program becomes two underscores. -/
def functionName : String :=
  escapeWith (fun c => if c = '-' then ['_', '_'] else [c]) programName

/-- The words that complete the value of an option. -/
def candidates : Flag → String
  | .completions => s!"-W \"{shellWords}\" -- \"$\x7bcur\x7d\""
  | _ => "-f \"$\x7bcur\x7d\""

/-- The case of an option whose value is completed. -/
def valueCase (f : Flag) : List String :=
  [s!"                --{f.name})",
    s!"                    COMPREPLY=($(compgen {candidates f}))",
    "                    return 0",
    "                    ;;"]

/-- All words for flags, the short ones first. -/
def allWords : String :=
  let shorts := Flag.all.filterMap fun f => f.short?.map fun c => s!"-{c}"
  " ".intercalate (shorts ++ Flag.all.map fun f => s!"--{f.name}")

def opening : List String :=
  [s!"_{functionName}() \x7b",
    "    local i cur prev opts cmd",
    "    COMPREPLY=()",
    "    if [[ \"$\x7bBASH_VERSINFO[0]\x7d\" -ge 4 ]]; then",
    "        cur=\"$2\"",
    "    else",
    "        cur=\"$\x7bCOMP_WORDS[COMP_CWORD]\x7d\"",
    "    fi",
    "    prev=\"$3\"",
    "    cmd=\"\"",
    "    opts=\"\"",
    "",
    "    for i in \"$\x7bCOMP_WORDS[@]:0:COMP_CWORD\x7d\"",
    "    do",
    "        case \"$\x7bcmd\x7d,$\x7bi\x7d\" in",
    "            \",$1\")",
    s!"                cmd=\"{functionName}\"",
    "                ;;",
    "            *)",
    "                ;;",
    "        esac",
    "    done",
    "",
    "    case \"$\x7bcmd\x7d\" in",
    s!"        {functionName})",
    s!"            opts=\"{allWords}\"",
    "            if [[ $\x7bcur\x7d == -* || $\x7bCOMP_CWORD\x7d -eq 1 ]] ; then",
    "                COMPREPLY=( $(compgen -W \"$\x7bopts\x7d\" -- \"$\x7bcur\x7d\") )",
    "                return 0",
    "            fi",
    "            case \"$\x7bprev\x7d\" in"]

def closing : List String :=
  ["                *)",
    "                    COMPREPLY=()",
    "                    ;;",
    "            esac",
    "            COMPREPLY=( $(compgen -W \"$\x7bopts\x7d\" -- \"$\x7bcur\x7d\") )",
    "            return 0",
    "            ;;",
    "    esac",
    "\x7d",
    "",
    "if [[ \"$\x7bBASH_VERSINFO[0]\x7d\" -eq 4 && \"$\x7bBASH_VERSINFO[1]\x7d\" -ge 4 || " ++
      "\"$\x7bBASH_VERSINFO[0]\x7d\" -gt 4 ]]; then",
    s!"    complete -F _{functionName} -o nosort -o bashdefault -o default {programName}",
    "else",
    s!"    complete -F _{functionName} -o bashdefault -o default {programName}",
    "fi"]

def script : String := unlines (opening ++ options.flatMap valueCase ++ closing)

end KernelSpec.Completion.Bash
