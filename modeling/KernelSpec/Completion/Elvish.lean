import KernelSpec.Completion.Basic

/-! # Completion for elvish -/

namespace KernelSpec.Completion.Elvish

/-- One line for each word of a flag. -/
def candidates (f : Flag) : List String :=
  (words f).map fun word => s!"            cand {word} {doubledQuotes f.about}"

def opening : List String :=
  ["",
    "use builtin;",
    "use str;",
    "",
    s!"set edit:completion:arg-completer[{programName}] = \x7b|@words|",
    "    fn spaces \x7b|n|",
    "        builtin:repeat $n ' ' | str:join ''",
    "    \x7d",
    "    fn cand \x7b|text desc|",
    "        edit:complex-candidate $text &display=$text' '(spaces (- 14 (wcswidth $text)))$desc",
    "    \x7d",
    s!"    var command = '{programName}'",
    "    for word $words[1..-1] \x7b",
    "        if (str:has-prefix $word '-') \x7b",
    "            break",
    "        \x7d",
    "        set command = $command';'$word",
    "    \x7d",
    "    var completions = [",
    s!"        &'{programName}'= \x7b"]

def closing : List String :=
  ["        \x7d",
    "    ]",
    "    $completions[$command]",
    "\x7d"]

def script : String := unlines (opening ++ (options ++ switches).flatMap candidates ++ closing)

end KernelSpec.Completion.Elvish
