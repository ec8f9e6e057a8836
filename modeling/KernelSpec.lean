import KernelSpec.Bundle
import KernelSpec.FileSystem.Change
import KernelSpec.Main
import KernelSpec.Program
import KernelSpec.Proofs.CommandLine.Location
import KernelSpec.Proofs.CommandLine.Separate
import KernelSpec.Proofs.Descriptor.Independence
import KernelSpec.Proofs.Descriptor.Merge
import KernelSpec.Proofs.Json.Order
import KernelSpec.Proofs.Program.Mirror
import KernelSpec.Proofs.Program.Rerun
import KernelSpec.Proofs.Registry.Replace
import KernelSpec.Proofs.FileSystem.Unfolding
import KernelSpec.Proofs.FileSystem.Destination
import KernelSpec.Proofs.FileSystem.Confinement
import KernelSpec.Proofs.FileSystem.Termination
import KernelSpec.Proofs.FileSystem.Success
import KernelSpec.Proofs.FileSystem.Outcome
