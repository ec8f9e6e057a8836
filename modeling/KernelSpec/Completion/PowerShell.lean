import KernelSpec.Completion.Basic

/-! # Completion for PowerShell -/

namespace KernelSpec.Completion.PowerShell

/-- The text listed for a word. Words that differ only in case count as equal, so a short flag in
upper case is listed with a blank after it. -/
def listed (word : String) : String :=
  if word.length = 2 && word.toList.any Char.isUpper then word ++ " " else word

/-- One line for each word of a flag. -/
def candidates (f : Flag) : List String :=
  (words f).map fun word =>
    s!"            [CompletionResult]::new('{word}', '{listed word}', " ++
      s!"[CompletionResultType]::ParameterName, {doubledQuotes f.about})"

def opening : List String :=
  ["",
    "using namespace System.Management.Automation",
    "using namespace System.Management.Automation.Language",
    "",
    s!"Register-ArgumentCompleter -Native -CommandName '{programName}' -ScriptBlock \x7b",
    "    param($wordToComplete, $commandAst, $cursorPosition)",
    "",
    "    $commandElements = $commandAst.CommandElements",
    "    $command = @(",
    s!"        '{programName}'",
    "        for ($i = 1; $i -lt $commandElements.Count; $i++) \x7b",
    "            $element = $commandElements[$i]",
    "            if ($element -isnot [StringConstantExpressionAst] -or",
    "                $element.StringConstantType -ne [StringConstantType]::BareWord -or",
    "                $element.Value.StartsWith('-') -or",
    "                $element.Value -eq $wordToComplete) \x7b",
    "                break",
    "        \x7d",
    "        $element.Value",
    "    \x7d) -join ';'",
    "",
    "    $completions = @(switch ($command) \x7b",
    s!"        '{programName}' \x7b"]

def closing : List String :=
  ["            break",
    "        \x7d",
    "    \x7d)",
    "",
    "    $completions.Where\x7b $_.CompletionText -like \"$wordToComplete*\" \x7d |",
    "        Sort-Object -Property ListItemText",
    "\x7d"]

def script : String := unlines (opening ++ (options ++ switches).flatMap candidates ++ closing)

end KernelSpec.Completion.PowerShell
