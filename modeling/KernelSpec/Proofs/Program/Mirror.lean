import KernelSpec.Proofs.FileSystem.Mirror
import KernelSpec.Proofs.Program.Preservation

/-! # What an installed kernel is

An installation that succeeds leaves an exact copy of the kernel files, with links followed, and
changes nothing else but missing directories above it (`install_mirrors`). The copy stays as it is
when the descriptor cannot be rendered after it. This takes that the way to the kernels
directory is straight and that no way through the kernel files comes to where they are copied to.
Where a `..` of the path is not reached, files of a replaced kernel stay (`install_unmirrored`).
-/

namespace KernelSpec

open FileSystem KernelSpec.Path

namespace Registry

section Copied

variable {fs cleared final : FileSystem} {kernels source : Path} {child : Name} {dir loc : Loc}
  (room : Room fs (kernels.join ⟨child⟩) cleared)
  (copied : Disk.TreeCopied source (kernels.join ⟨child⟩) cleared (.ok ()) final)
  (located : fs.locate source = .ok loc)

include room copied located

/-- The kernel files are where they were once room is made. -/
theorem locate_cleared : cleared.locate source = .ok loc ∧ cleared.kind? loc = some .dir := by
  obtain ⟨start, there, isDir⟩ := copied.located
  cases (locate_extend room.smaller there).symm.trans located
  exact ⟨there, isDir⟩

variable (isName : IsName child) (straight : Straight fs kernels child dir) (named : fs.WellNamed)
  (outside : Outside (without fs (kernels.join ⟨child⟩)) (dir ++ [child]) loc)

include isName straight named outside

/-- A path below the kernel files names what it named before, when its way meets no directory that
is made. -/
theorem pathKind?_copied {names : List Name} (areNames : ∀ name ∈ names, IsName name)
    (steady : ∀ stop rest, Passes (without fs (kernels.join ⟨child⟩)) (loc, names.map .name)
      (stop, rest) → stop <+: dir ++ [child] → fs.kind? stop ≠ none) :
    final.pathKind? (source.below names) = fs.pathKind? (source.below names) := by
  have ends : (kernels.join ⟨child⟩).segments = _ := segments_place isName
  obtain ⟨there, _⟩ := locate_cleared room copied located
  have outside := outside.congr room.links
  have kept : ∀ stop rest, Passes cleared (loc, names.map .name) (stop, rest) →
      fs.kind? stop = cleared.kind? stop := fun stop rest passes =>
    (straight.outside isName room (outside names stop rest passes)).symm
  have named := room.smaller.wellNamed named
  calc final.pathKind? (source.below names)
      = cleared.pathKind? (source.below names) := by
        refine pathKind?_below_extend (copied.extends ends named) there areNames ?_
        intro stop rest passes
        have reached := (straight.reached_place isName).extend room.larger
        obtain same | ⟨missing, above, _⟩ := copied.differsAt reached ends named
          (straight.way isName room) stop (outside names stop rest passes)
        · exact same
        · refine absurd ((kept stop rest passes).trans missing) ?_
          exact steady stop rest (passes.congr room.links.symm) above
    _ = fs.pathKind? (source.below names) :=
        (pathKind?_below_extend room.smaller there areNames kept).symm

end Copied

/-- An installation that succeeds leaves an exact copy of the kernel files. Nothing else differs but
missing directories above it, and it stays when a later step fails before the descriptor is
written. -/
theorem install_mirrors {host : Host} {call : RegistryCall} {name : KernelName} {kernels : Path}
    (parsed : KernelName.parse call.name = .ok name) (notHere : call.name ≠ ".")
    (notUp : call.name ≠ "..") (found : call.scope.kernelsDir host = .ok kernels)
    {fs : FileSystem} (named : fs.WellNamed) {dir loc : Loc}
    (straight : Straight fs kernels (Bytes.ofString name.text) dir)
    (located : fs.locate call.source = .ok loc)
    (outside : Outside (without fs (kernels.join ⟨Bytes.ofString name.text⟩))
      (dir ++ [Bytes.ofString name.text]) loc) {path : Path}
    (done : ((jupyter host).install call () fs).1 = .ok path) :
    let final := ((jupyter host).install call () fs).2.2
    let top := dir ++ [Bytes.ofString name.text]
    path = pathOf top ∧ final.WellNamed ∧ Mirrored final call.source top ∧
      (∀ names : List Name, (∀ n ∈ names, IsName n) →
        (∀ stop rest, Passes (without fs (kernels.join ⟨Bytes.ofString name.text⟩))
          (loc, names.map .name) (stop, rest) → stop <+: top → fs.kind? stop ≠ none) →
        final.pathKind? (call.source.below names) = fs.pathKind? (call.source.below names)) ∧
      DiffersAt fs final top ∧
      ∀ (request : InstallRequest) (error : InstallError), request.call = call →
        (request.install (jupyter host) () fs).result = .error error →
        (∀ path, error ≠ .descriptorWriteFailed path) →
        (request.install (jupyter host) () fs).files = final := by
  intro final top
  have isName : IsName (Bytes.ofString name.text) := KernelName.isName parsed notHere notUp
  have differs := install_differsAt parsed isName found named straight
  obtain ⟨_, failed, _⟩ | ⟨_, cleared, _, found', room, _, copied, answered⟩ :=
    install_treeCopied parsed isName fun _ found' _ => by
      cases found.symm.trans found'
      exact straight.reached_place isName
  · cases done.symm.trans failed
  cases found.symm.trans found'
  obtain ⟨rfl, canonical⟩ := answered path done
  have ends : (kernels.join ⟨Bytes.ofString name.text⟩).segments = _ := segments_place isName
  have clearedNamed := room.smaller.wellNamed named
  have way := straight.way isName room
  obtain ⟨mid, above, opened, grown, _, rfl⟩ := copied.canonicalize ends clearedNamed canonical
  obtain ⟨rfl, _⟩ := (ends ▸ opened).eq_of_way way
  refine ⟨rfl, grown.named, ?_, fun names areNames steady => ?_, differs, ?_⟩
  · exact copied.mirrors ends clearedNamed (locate_cleared room copied located).1 way
      (outside.congr room.links)
  · exact pathKind?_copied room copied located isName straight named outside areNames steady
  · rintro request error rfl failed early
    exact (InstallRequest.ends_install (jupyter host) request () fs).files_eq failed early

/-- Kernel files with a link to a directory of them, and a kernel with a file that they do not
have. -/
def linkedFiles : FileSystem :=
  ⟨directory [("src", directory [("kernel.json", .file [] false),
      ("alias", .link (.ofString "sub")),
      ("sub", directory [("logo", .file (Bytes.ofString "png") true)])]),
    ("p", directory [("share", directory [("jupyter", directory [("kernels", directory
      [("java", directory [("stale", .file [] false)])])])])])], []⟩

/-- A file of a replaced kernel stays when a `..` of the prefix is not reached, and a kernel of the
name `..` is left with a directory that its files do not have. -/
theorem install_unmirrored :
    let around := (jupyter bareHost).install
      ⟨.ofString "src", "java", .under (.ofString "missing/../p"), true⟩ () linkedFiles
    let above := (jupyter bareHost).install
      ⟨.ofString "src", "..", .under (.ofString "p"), true⟩ () linkedFiles
    around.1 = .ok (.ofString "/p/share/jupyter/kernels/java") ∧
      around.2.2.kind? (sampleLoc ++ [Bytes.ofString "stale"]) = some (.file [] false) ∧
      around.2.2.pathKind? ((Path.ofString "src").below [Bytes.ofString "stale"]) = none ∧
      above.1 = .ok (.ofString "/p/share/jupyter") ∧
      above.2.2.kind? sampleLoc.dropLast = some .dir ∧
      above.2.2.pathKind? ((Path.ofString "src").below [Bytes.ofString "kernels"]) = none := by
  decide +kernel

/-- A link in the kernel files is copied as the directory that it leads to, and the stale file is
gone. -/
theorem install_mirrors_sample :
    ((jupyter bareHost).install (sampleCall "src" true) () linkedFiles).1 =
        .ok (.ofString "/p/share/jupyter/kernels/java") ∧
      linkedFiles.kind? (sampleLoc ++ [Bytes.ofString "stale"]) = some (.file [] false) ∧
      Mirrored ((jupyter bareHost).install (sampleCall "src" true) () linkedFiles).2.2
        (sampleCall "src" true).source sampleLoc := by
  have answered : ((jupyter bareHost).install (sampleCall "src" true) () linkedFiles).1 =
      .ok (.ofString "/p/share/jupyter/kernels/java") := by
    decide +kernel
  have links : ∀ object ∈ linkedFiles.objects,
      isLink object.2 = true → object.2 = .link (.ofString "sub") := by
    decide +kernel
  have down : LinksDown (without linkedFiles (.ofString "p/share/jupyter/kernels/java"))
      [Bytes.ofString "src"] := by
    intro place target inside linked
    have listed := mem_objects ((extends_without linkedFiles _).kept _ _ linked) (by
      rintro rfl
      cases List.prefix_nil.mp inside)
    cases links _ listed rfl
    decide +kernel
  have dirs : ∀ part ∈ sampleLoc.dropLast.inits, linkedFiles.kind? part = some .dir := by
    decide +kernel
  have spelled : (Path.ofString "p/share/jupyter/kernels").segments =
      sampleLoc.dropLast.map .name := by
    decide +kernel
  have straight : Straight linkedFiles (.ofString "p/share/jupyter/kernels")
      (Bytes.ofString "java") sampleLoc.dropLast := by
    refine Straight.of_names spelled (fun part target within linked => ?_) _
    cases (dirs part ((List.mem_inits _ _).mpr within)).symm.trans linked
  have parsed : KernelName.parse (sampleCall "src" true).name = .ok ⟨"java"⟩ := by decide +kernel
  have found : (sampleCall "src" true).scope.kernelsDir bareHost =
      .ok (.ofString "p/share/jupyter/kernels") := rfl
  have located : linkedFiles.locate (sampleCall "src" true).source =
      .ok [Bytes.ofString "src"] := by
    decide +kernel
  have outside : Outside
      (without linkedFiles ((Path.ofString "p/share/jupyter/kernels").join ⟨Bytes.ofString "java"⟩))
      (sampleLoc.dropLast ++ [Bytes.ofString "java"]) [Bytes.ofString "src"] :=
    down.outside (by decide +kernel) (by decide +kernel)
  have named : linkedFiles.WellNamed := wellNamed_of_objects (by decide +kernel)
  have last : sampleLoc.dropLast ++ [Bytes.ofString "java"] = sampleLoc := by decide +kernel
  obtain ⟨_, _, mirrored, _⟩ := install_mirrors parsed (by decide) (by decide) found named straight
    located outside answered
  exact ⟨answered, by decide +kernel, last ▸ mirrored⟩

end Registry

end KernelSpec
