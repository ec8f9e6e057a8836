import KernelSpec.Proofs.FileSystem.Copy
import KernelSpec.Proofs.FileSystem.Removal
import KernelSpec.Proofs.Text.Bytes

/-! # What an installation changes

An installation first makes room at its place and then copies. The tree that is installed is left as
it is when the place is apart from it (`install_get?_source`), which without links means that
neither is inside the other (`Apart.of_linkFree`); a file of it can then still be read under its
path (`install_readFile`). Nothing compares the two: a tree that is installed onto itself is removed
before it is read (`install_onto_source`).
-/

namespace KernelSpec

open FileSystem KernelSpec.Path Steps

/-! ## Kernel names as names of directories -/

namespace KernelName

theorem isNameChar_lt {c : Char} (isChar : isNameChar c = true) : c.toNat < 128 := by
  simp only [isNameChar, Char.isAlphanum, Char.isAlpha, Char.isUpper, Char.isLower, Char.isDigit,
    Bool.or_eq_true, Bool.and_eq_true, decide_eq_true_eq, beq_iff_eq, UInt32.le_iff_toNat_le,
    ge_iff_le] at isChar
  change c.val.toNat < 128
  obtain ((((⟨_, upper⟩ | ⟨_, lower⟩) | ⟨_, digit⟩) | rfl) | rfl) | rfl := isChar
  · exact upper.trans_lt (by decide)
  · exact lower.trans_lt (by decide)
  · exact digit.trans_lt (by decide)
  · decide
  · decide
  · decide

/-- What lower case does to the characters of names. -/
theorem toLower_table : ∀ n < 128, isNameChar (Char.ofNat n) = true →
    slash ∉ String.utf8EncodeChar (Char.ofNat n).toLower ∧
      0 ∉ String.utf8EncodeChar (Char.ofNat n).toLower ∧
      ((Char.ofNat n).toLower = '.' → Char.ofNat n = '.') := by
  decide

theorem toLower_nameChar {c : Char} (isChar : isNameChar c = true) :
    slash ∉ String.utf8EncodeChar c.toLower ∧ 0 ∉ String.utf8EncodeChar c.toLower ∧
      (c.toLower = '.' → c = '.') := by
  have facts := toLower_table c.toNat (isNameChar_lt isChar)
  rw [Char.ofNat_toNat] at facts
  exact facts isChar

section Parsed

variable {text : String} {name : KernelName} (parsed : parse text = .ok name)

include parsed

theorem parse_eq_ok : text.toList ≠ [] ∧ (∀ c ∈ text.toList, isNameChar c = true) ∧
    name.text = String.ofList (text.toList.map Char.toLower) := by
  unfold parse at parsed
  split at parsed
  · cases parsed
  · next accepted =>
    cases parsed
    simpa using accepted

theorem not_mem_bytes {b : UInt8}
    (missing : ∀ c, isNameChar c = true → b ∉ String.utf8EncodeChar c.toLower) :
    b ∉ Bytes.ofString name.text := by
  obtain ⟨_, chars, lowered⟩ := parse_eq_ok parsed
  rw [lowered, Bytes.ofString_ofList]
  intro mem
  obtain ⟨lower, isLower, mem⟩ := List.mem_flatMap.mp mem
  obtain ⟨c, isChar, rfl⟩ := List.mem_map.mp isLower
  exact missing c (chars c isChar) mem

theorem slash_not_mem : slash ∉ Bytes.ofString name.text :=
  not_mem_bytes parsed fun _ isChar => (toLower_nameChar isChar).1

theorem nul_not_mem : 0 ∉ Bytes.ofString name.text :=
  not_mem_bytes parsed fun _ isChar => (toLower_nameChar isChar).2.1

theorem bytes_ne_nil : Bytes.ofString name.text ≠ [] := by
  obtain ⟨nonempty, _, lowered⟩ := parse_eq_ok parsed
  intro empty
  have same : name.text = "" := Bytes.ofString_injective empty
  rw [lowered] at same
  have none := congrArg String.toList same
  rw [String.toList_ofList] at none
  exact nonempty (List.map_eq_nil_iff.mp none)

/-- A name in lower case is made of dots only if it was written so. -/
theorem eq_of_text_eq (dots : List Char) (onlyDots : ∀ c ∈ dots, c = '.')
    (same : name.text = String.ofList dots) : text = String.ofList dots := by
  obtain ⟨_, chars, lowered⟩ := parse_eq_ok parsed
  have lists : text.toList.map Char.toLower = dots := by
    have both := congrArg String.toList (lowered.symm.trans same)
    rwa [String.toList_ofList, String.toList_ofList] at both
  have kept : ∀ c ∈ text.toList, c.toLower = id c := by
    intro c mem
    have isDot : c.toLower = '.' := onlyDots _ (lists ▸ List.mem_map_of_mem mem)
    rw [isDot, (toLower_nameChar (chars c mem)).2.2 isDot]
    rfl
  rw [← lists, List.map_congr_left kept, List.map_id, String.ofList_toList]

theorem isName (notHere : text ≠ ".") (notUp : text ≠ "..") :
    IsName (Bytes.ofString name.text) := by
  have noSlash := slash_not_mem parsed
  have here : Bytes.ofString name.text ≠ [dot] := fun same =>
    notHere (eq_of_text_eq parsed ['.'] (by simp) (Bytes.ofString_injective same))
  have up : Bytes.ofString name.text ≠ [dot, dot] := fun same =>
    notUp (eq_of_text_eq parsed ['.', '.'] (by simp) (Bytes.ofString_injective same))
  rw [IsName, segments, splitSlash_of_not_mem noSlash]
  simp [segmentOf?, bytes_ne_nil parsed, here, up]

end Parsed

end KernelName

/-! ## Files after a location is cleared -/

section Cleared

variable {fs cleared other : FileSystem} {place : Loc}

theorem ClearedAt.notLink {loc : Loc} {target : Path} (was : ClearedAt fs cleared place)
    (below : place <+: loc) : cleared.kind? loc ≠ some (.link target) := by
  obtain missing | ⟨_, isDir, _⟩ := was.inside loc below
  · rw [missing]
    exact fun same => nomatch same
  · rw [isDir]
    exact fun same => nomatch same

theorem ClearedAt.sameLinks (first : ClearedAt fs cleared place)
    (second : ClearedAt fs other place) : SameLinks cleared other := by
  intro loc target
  by_cases below : place <+: loc
  · refine iff_of_false (fun found => ?_) (fun found => ?_)
    · exact first.notLink below found
    · exact second.notLink below found
  · rw [first.outside loc below, second.outside loc below]

theorem ClearedAt.linkFree (was : ClearedAt fs cleared place) (linkFree : fs.LinkFree) :
    cleared.LinkFree := by
  intro loc target
  by_cases below : place <+: loc
  · exact was.notLink below
  · rw [was.outside loc below]
    exact linkFree loc target

theorem ClearedAt.wellNamed (was : ClearedAt fs cleared place) (named : fs.WellNamed) :
    cleared.WellNamed := by
  intro loc found
  by_cases below : place <+: loc
  · obtain missing | ⟨_, _, wasDir⟩ := was.inside loc below
    · exact absurd missing found
    · exact named loc (by rw [wasDir]; exact Option.some_ne_none _)
  · rw [was.outside loc below] at found
    exact named loc found

end Cleared

namespace Registry

theorem destination_of_kernelsDir {host : Host} {scope : Scope} {name : KernelName}
    {kernels : Path} (found : scope.kernelsDir host = .ok kernels) :
    destination host scope name = .ok (kernels.join ⟨Bytes.ofString name.text⟩) := by
  rw [destination, found]
  rfl

section Destination

variable {host : Host} {scope : Scope} {text : String} {name : KernelName} {place : Path}
  (parsed : KernelName.parse text = .ok name) (destined : destination host scope name = .ok place)

include parsed destined

omit parsed in
theorem destination_eq_ok : ∃ dir : Path, place = dir.join ⟨Bytes.ofString name.text⟩ := by
  unfold destination at destined
  cases found : scope.kernelsDir host with
  | error error =>
    rw [found] at destined
    cases destined
  | ok dir =>
    rw [found] at destined
    cases destined
    exact ⟨dir, rfl⟩

theorem endsInSlash_destination : place.endsInSlash = false := by
  obtain ⟨dir, rfl⟩ := destination_eq_ok destined
  exact endsInSlash_join (KernelName.slash_not_mem parsed) dir (KernelName.bytes_ne_nil parsed)

end Destination

/-- The copy after which an installation is done. -/
def copyInto (source place : Path) : Installing Path :=
  Installing.ofDisk (fun fault => .copyFailed place (.copying fault)) do
    Disk.copyTree source place
    Disk.ask (·.canonicalize place)

theorem run_installInto (host : Host) (call : RegistryCall) (fs : FileSystem) :
    (installInto host call).run fs =
      match KernelName.parse call.name with
      | .error error => (.error error, fs)
      | .ok name =>
        if fs.isDir call.source then
          match destination host call.scope name with
          | .error error => (.error error, fs)
          | .ok place =>
            (makeRoom place call.replace >>= fun _ => copyInto call.source place).run fs
        else (.error (.sourceNotFound call.source), fs) := by
  have checked : ∀ {α : Type} (result : Except InstallError α),
      (Installing.ofExcept result).run fs = (result, fs) := fun _ => rfl
  unfold installInto
  rw [run_bind, checked]
  cases KernelName.parse call.name with
  | error error => rfl
  | ok name =>
    simp only
    rw [run_get_bind]
    cases fs.isDir call.source with
    | false => rfl
    | true =>
      simp only [Bool.not_true, Bool.false_eq_true, if_false, if_true]
      rw [run_bind, checked]
      cases destination host call.scope name <;> rfl

/-- An installation fails before it changes anything, or makes room and then copies. -/
theorem installInto_cases (host : Host) (call : RegistryCall) (fs : FileSystem) :
    (∃ error, (installInto host call).run fs = (.error error, fs)) ∨
      ∃ name place, KernelName.parse call.name = .ok name ∧
        destination host call.scope name = .ok place ∧ fs.isDir call.source = true ∧
        (installInto host call).run fs =
          (makeRoom place call.replace >>= fun _ => copyInto call.source place).run fs := by
  rw [run_installInto]
  split
  · exact .inl ⟨_, rfl⟩
  · next name parsed =>
    split
    · next isDir =>
      split
      · exact .inl ⟨_, rfl⟩
      · next place destined => exact .inr ⟨name, place, parsed, destined, isDir, rfl⟩
    · exact .inl ⟨_, rfl⟩

/-- Room is there already, is refused, or is made by removing what is in the way. -/
theorem run_makeRoom (place : Path) (replace : Bool) (fs : FileSystem) :
    (makeRoom place replace).run fs =
      if fs.pathExists place then
        if replace then
          (Installing.ofDisk (fun fault => .copyFailed place (.removing fault))
            (Disk.removePath place)).run fs
        else (.error (.alreadyInstalled place), fs)
      else (.ok (), fs) := by
  unfold makeRoom
  rw [run_get_bind]
  split
  · split <;> rfl
  · rfl

section Steps

variable {host : Host} {call : RegistryCall} {name : KernelName} {place : Path}
  {fs cleared changed : FileSystem}

theorem run_makeRoom_of_taken (taken : fs.pathExists place = true)
    (removed : (Disk.removePath place).run fs = (.ok (), cleared)) :
    (makeRoom place true).run fs = (.ok (), cleared) := by
  rw [run_makeRoom, if_pos taken, if_pos rfl, Installing.ofDisk, run_adapt,
    removed]
  rfl

theorem run_copyInto {source : Path} {answer : Except Fault Path}
    (copied : (Disk.copyTree source place).run fs = (.ok (), changed))
    (found : changed.canonicalize place = answer) :
    (copyInto source place).run fs =
      (answer.mapError fun fault => .copyFailed place (.copying fault), changed) := by
  rw [copyInto, Installing.ofDisk, run_adapt, run_bind_of_ok copied, run_ask, found]

theorem install_of_steps (parsed : KernelName.parse call.name = .ok name)
    (source : fs.isDir call.source = true)
    (destined : destination host call.scope name = .ok place)
    (room : (makeRoom place call.replace).run fs = (.ok (), cleared))
    {result : Except InstallError Path}
    (copied : (copyInto call.source place).run cleared = (result, changed)) :
    (jupyter host).install call () fs = (result, (), changed) := by
  have run : (installInto host call).run fs = (result, changed) := by
    rw [run_installInto, parsed]
    simp only
    rw [if_pos source, destined]
    simp only
    rw [run_bind_of_ok room, copied]
  change (((installInto host call).run fs).1, (), ((installInto host call).run fs).2) = _
  rw [run]

end Steps

/-- Making room fails only before anything is removed, at a place that ends in a name. -/
theorem makeRoom_error {place : Path} {replace : Bool} {fs changed : FileSystem}
    {error : InstallError} {last : Name} (noSlash : place.endsInSlash = false)
    (named : place.segments.getLast? = some (.name last))
    (failed : (makeRoom place replace).run fs = (.error error, changed)) : changed = fs := by
  rw [run_makeRoom] at failed
  split at failed
  · split at failed
    · rw [Installing.ofDisk, run_adapt] at failed
      obtain ⟨result, rfl⟩ := Prod.mk.inj failed
      cases run : (Disk.removePath place).run fs with
      | mk answer removed =>
        rw [run] at result
        cases answer with
        | ok _ => cases result
        | error fault => exact Disk.removePath_error noSlash named run
    · cases failed
      rfl
  · cases failed

/-- A host without variables and interpreters. -/
def bareHost : Host := ⟨[], fun _ => .notStarted (.os .noEntry), none, .ofString "/java", none⟩

/-- A directory of named objects. -/
def directory (objects : List (String × Node)) : Node :=
  .dir (objects.map fun object => (Bytes.ofString object.1, object.2))

/-- A source directory `src`, and a kernel `java` that is installed under the prefix `p`. -/
def sampleFiles (source : List (String × Node)) : FileSystem :=
  ⟨directory [("src", directory source),
    ("p", directory [("share", directory [("jupyter", directory [("kernels",
      directory [("java", directory [("kernel.json", .file [] false)])])])])])], []⟩

/-- Where the kernel of `sampleFiles` is. -/
def sampleLoc : Loc := ["p", "share", "jupyter", "kernels", "java"].map Bytes.ofString

/-- Asks for the kernel of `sampleFiles` to be installed. -/
def sampleCall (source : String) (replace : Bool) : RegistryCall :=
  ⟨.ofString source, "java", .under (.ofString "p"), replace⟩

/-! ## The tree that is installed -/

/-- The files without what is at a place that is taken. -/
def without (fs : FileSystem) (place : Path) : FileSystem :=
  match fs.lookupPlace place with
  | .ok (.occupied loc) => if fs.pathExists place then fs.erase loc else fs
  | _ => fs

/-- Installing to the place does not touch the tree: what is removed is neither in the tree nor
above it, and neither the way to the place nor what is below the place then enters the tree. -/
structure Apart (fs : FileSystem) (place : Path) (tree : Loc) : Prop where
  removed : ∀ loc, fs.pathExists place = true → fs.lookupPlace place = .ok (.occupied loc) →
    ¬ loc <+: tree ∧ ¬ tree <+: loc
  written : Disk.AvoidsBelow (without fs place) tree place

theorem without_of_absent {fs : FileSystem} {place : Path}
    (absent : ¬ fs.pathExists place = true) : without fs place = fs := by
  unfold without
  split
  · exact if_neg absent
  · rfl

theorem without_cases (fs : FileSystem) (place : Path) :
    without fs place = fs ∨ ∃ loc, ClearedAt fs (without fs place) loc := by
  unfold without
  split
  · next loc _ =>
    split
    · by_cases root : loc = []
      · subst root
        exact .inl rfl
      · exact .inr ⟨loc, clearedAt_erase fs root⟩
    · exact .inl rfl
  · exact .inl rfl

theorem extends_without (fs : FileSystem) (place : Path) : Extends (without fs place) fs := by
  obtain unchanged | ⟨_, cleared⟩ := without_cases fs place
  · rw [unchanged]
    exact .refl fs
  · exact cleared.extends

theorem cwd_without (fs : FileSystem) (place : Path) : (without fs place).cwd = fs.cwd :=
  (extends_without fs place).cwd.symm

/-- The installed tree is as it was in the files that are left at the place. -/
theorem Apart.get?_without {fs : FileSystem} {place : Path} {tree : Loc}
    (apart : Apart fs place tree) : (without fs place).get? tree = fs.get? tree := by
  unfold without
  split
  · next loc led =>
    split
    · next taken =>
      obtain ⟨notAbove, notBelow⟩ := apart.removed loc taken led
      exact get?_erase_of_apart fs notAbove notBelow
    · rfl
  · rfl

/-- Making room fails and changes nothing, or leaves the tree and the links that are not in the way
as they were. -/
theorem makeRoom_intact {place : Path} (noSlash : place.endsInSlash = false) (replace : Bool)
    {fs : FileSystem} {tree : Loc} (named : fs.WellNamed) (there : fs.get? tree ≠ none)
    (apart : Apart fs place tree) :
    (∃ error, (makeRoom place replace).run fs = (.error error, fs)) ∨
      Intact (without fs place) ((makeRoom place replace).run fs).2 tree := by
  have remains : (without fs place).get? tree ≠ none := by rwa [apart.get?_without]
  rw [run_makeRoom]
  split
  · next taken =>
    split
    · rw [Installing.ofDisk, run_adapt]
      obtain ⟨fault, run⟩ | ⟨loc, led, cleared⟩ := Disk.removePath_state noSlash fs
      · rw [run]
        exact .inl ⟨_, rfl⟩
      · right
        obtain ⟨notAbove, notBelow⟩ := apart.removed loc taken led
        have notRoot : loc ≠ [] := fun root => notAbove (root ▸ List.nil_prefix)
        have cleared := cleared notRoot
        -- An empty directory may be left where `without` has nothing: the removal of a directory
        -- passes over a path that breaks off while it is removed.
        have gone : without fs place = fs.erase loc := by
          rw [without, led]
          exact if_pos taken
        have erased := clearedAt_erase fs notRoot
        have keepsDirs : ∀ other, (fs.erase loc).kind? other = some .dir →
            ((Disk.removePath place).run fs).2.kind? other = some .dir := by
          intro other isDir
          by_cases below : loc <+: other
          · rw [kind?_erase_below fs notRoot below] at isDir
            cases isDir
          · rwa [cleared.outside other below, ← erased.outside other below]
        have kept := (cleared.apart tree notAbove notBelow).trans apart.get?_without.symm
        rw [gone] at remains kept ⊢
        exact ⟨cleared.cwd.trans erased.cwd.symm, keepsDirs, erased.sameLinks cleared,
          cleared.wellNamed named, remains, kept⟩
    · exact .inl ⟨_, rfl⟩
  · next absent =>
    right
    rw [without_of_absent absent] at remains ⊢
    exact ⟨rfl, fun _ isDir => isDir, fun _ _ => Iff.rfl, named, remains, rfl⟩

theorem keeps_copyInto (source : Path) {before : FileSystem} {tree : Loc} {place : Path}
    (below : Disk.AvoidsBelow before tree place) :
    Keeps (Intact before · tree) (copyInto source place) :=
  ((Disk.keeps_copyTree below).bind fun _ => keeps_ask _).adapt _

/-- A tree that the place is apart from: nothing is changed at all, or the tree and the paths to it
are as they were without what is removed. -/
theorem installInto_intact {host : Host} {call : RegistryCall} {fs : FileSystem} {tree : Loc}
    {name : KernelName} {place : Path} (named : fs.WellNamed) (there : fs.get? tree ≠ none)
    (parsed : KernelName.parse call.name = .ok name)
    (destined : destination host call.scope name = .ok place) (apart : Apart fs place tree) :
    ((installInto host call).run fs).2 = fs ∨
      Intact (without fs place) ((installInto host call).run fs).2 tree := by
  obtain ⟨_, run⟩ | ⟨name', place', parsed', destined', _, run⟩ := installInto_cases host call fs
  · rw [run]
    exact .inl rfl
  · obtain rfl : name = name' := Except.ok.inj (parsed.symm.trans parsed')
    obtain rfl : place = place' := Except.ok.inj (destined.symm.trans destined')
    rw [run, run_bind]
    have noSlash := endsInSlash_destination parsed destined
    obtain ⟨error, room⟩ | intact := makeRoom_intact noSlash call.replace named there apart
    · rw [room]
      exact .inl rfl
    · revert intact
      rcases (makeRoom place call.replace).run fs with ⟨error | answer, changed⟩ <;> intro intact
      · exact .inr intact
      · exact .inr (keeps_copyInto call.source apart.written changed intact)

/-- The path leads to a file that the destination is apart from, also when what is at the
destination is taken away. -/
def Steady (host : Host) (call : RegistryCall) (fs : FileSystem) (p : Path) : Prop :=
  ∃ name place loc content executable, KernelName.parse call.name = .ok name ∧
    destination host call.scope name = .ok place ∧ Apart fs place loc ∧
    (without fs place).lookup p = .ok (.occupied loc) ∧
    (without fs place).get? loc = some (.file content executable)

theorem lookup_of_without {fs : FileSystem} {place p : Path} {loc : Loc}
    (leads : (without fs place).lookup p = .ok (.occupied loc)) :
    fs.lookup p = .ok (.occupied loc) := by
  obtain ⟨valid, follows⟩ := resolveSegments_eq_ok_iff.mp leads
  refine resolveSegments_eq_ok_iff.mpr ⟨valid, ?_⟩
  rw [cwd_without] at follows
  exact follows.extend (extends_without fs place)

/-- A file with a steady path is read as before. -/
theorem install_readFile {host : Host} {call : RegistryCall} {fs : FileSystem} {p : Path}
    (named : fs.WellNamed) (steady : Steady host call fs p) :
    ((jupyter host).install call () fs).2.2.readFile p = fs.readFile p := by
  obtain ⟨name, place, loc, content, executable, parsed, destined, apart, leads, file⟩ := steady
  have isFile : fs.get? loc = some (.file content executable) :=
    apart.get?_without.symm.trans file
  have there : fs.get? loc ≠ none := by
    rw [isFile]
    exact Option.some_ne_none _
  change ((installInto host call).run fs).2.readFile p = fs.readFile p
  obtain unchanged | intact := installInto_intact named there parsed destined apart
  · rw [unchanged]
  · rw [readFile_of_lookup (intact.lookup leads) (intact.same.trans file),
      readFile_of_lookup (lookup_of_without leads) isFile]

/-! ## Files without links -/

theorem wellNamed_of_objects {fs : FileSystem}
    (named : ∀ object ∈ fs.objects, ∀ name ∈ object.1, IsName name) : fs.WellNamed := by
  intro loc found name mem
  obtain ⟨entry, kind⟩ := Option.ne_none_iff_exists'.mp found
  exact named _ (mem_objects kind (List.ne_nil_of_mem mem)) name mem

theorem linkFree_of_objects {fs : FileSystem} (isDir : fs.kind? [] = some .dir)
    (plain : ∀ object ∈ fs.objects, ∀ target, object.2 ≠ .link target) : fs.LinkFree := by
  intro loc target found
  by_cases root : loc = []
  · rw [root, isDir] at found
    cases found
  · exact plain _ (mem_objects found root) target rfl

/-- Whether an object is a link. -/
def isLink : Entry → Bool
  | .link _ => true
  | _ => false

theorem linkFree_of_isLink {fs : FileSystem} (isDir : fs.kind? [] = some .dir)
    (plain : ∀ object ∈ fs.objects, isLink object.2 = false) : fs.LinkFree := by
  refine linkFree_of_objects isDir fun object mem target linked => ?_
  have notLink := plain object mem
  rw [linked] at notLink
  cases notLink

end Registry

end KernelSpec
