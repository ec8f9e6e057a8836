import KernelSpec.Completion.Bash
import KernelSpec.Completion.Elvish
import KernelSpec.Completion.Fish
import KernelSpec.Completion.PowerShell
import KernelSpec.Completion.Zsh

/-! # Completion scripts -/

namespace KernelSpec

/-- The completion script for a shell. -/
def Shell.script : Shell → String
  | .bash => Completion.Bash.script
  | .elvish => Completion.Elvish.script
  | .fish => Completion.Fish.script
  | .powershell => Completion.PowerShell.script
  | .zsh => Completion.Zsh.script

end KernelSpec
