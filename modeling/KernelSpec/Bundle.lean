import KernelSpec.Descriptor

/-! # The kernel files of the program

What is installed when no other kernel files are given.
-/

namespace KernelSpec.Bundle

/-- The template of the descriptor. -/
def template : String :=
  "\x7b\n" ++
  "  \"argv\": [\n" ++
  "    \"java\",\n" ++
  "    \"-jar\",\n" ++
  "    \"@KERNEL_INSTALL_DIRECTORY@/ijava-1.3.0.jar\",\n" ++
  "    \"\x7bconnection_file\x7d\"\n" ++
  "  ],\n" ++
  "  \"display_name\": \"Java\",\n" ++
  "  \"language\": \"java\",\n" ++
  "  \"interrupt_mode\": \"message\",\n" ++
  "  \"env\": \x7b\n" ++
  "  \x7d\n" ++
  "\x7d\n"

/-- The directory of the files. -/
def dir : Node :=
  .dir [(Bytes.ofString Descriptor.fileName, .file (Bytes.ofString template) false)]

end KernelSpec.Bundle
