import KernelSpec.Proofs.FileSystem.Run
import KernelSpec.Proofs.FileSystem.Write

/-! # What copying leaves alone

What is put at a place outside of a tree changes nothing inside the tree and turns no other path
(`Intact.put`). Copying a tree makes only objects that lie on the way to the target or below it, so
it leaves alone every tree that this way does not enter (`keeps_copyTree`).
-/

namespace KernelSpec

theorem Entries.find?_of_mem {entries : Entries} {name : Name}
    (mem : name ∈ entries.map (·.1)) : ∃ node, entries.find? name = some node := by
  induction entries with
  | nil => cases mem
  | cons entry rest ih =>
    obtain ⟨other, node⟩ := entry
    rw [Entries.find?]
    split
    · exact ⟨node, rfl⟩
    · next different =>
      exact ih ((List.mem_cons.mp mem).resolve_left different)

namespace FileSystem

open KernelSpec.Path

/-- The tree at a location is as it was, and paths lead where they led. -/
structure Intact (before fs : FileSystem) (tree : Loc) : Prop where
  cwd : fs.cwd = before.cwd
  dirs : ∀ loc, before.kind? loc = some .dir → fs.kind? loc = some .dir
  links : SameLinks before fs
  named : fs.WellNamed
  there : before.get? tree ≠ none
  same : fs.get? tree = before.get? tree

/-- What is written is no link and takes no link's place. -/
theorem Writable.sameLinks_put {fs : FileSystem} {place : Loc} (writable : Writable fs place)
    {new : Node} (plain : IsPlain new) : SameLinks fs (fs.put place new) := by
  intro loc target
  by_cases here : loc = place
  · subst here
    rw [writable.kind?_put]
    exact iff_of_false (writable.notLink target)
      fun found => plain.entry_ne target (Option.some.inj found)
  · rw [writable.kind?_put_of_ne plain here]

/-- Putting an object outside of the tree. -/
theorem Intact.put {before fs : FileSystem} {tree place : Loc} (intact : Intact before fs tree)
    (writable : Writable fs place) (outside : ¬ tree <+: place) {new : Node}
    (plain : IsPlain new) : Intact before (fs.put place new) tree where
  cwd := intact.cwd
  dirs := by
    intro loc wasDir
    have isDir := intact.dirs loc wasDir
    obtain ⟨entries, found⟩ := kind?_eq_dir_iff.mp isDir
    rw [writable.kind?_put_of_ne plain fun same => writable.notDir entries (same ▸ found), isDir]
  links := intact.links.trans (writable.sameLinks_put plain)
  named := writable.wellNamed_put intact.named plain
  there := intact.there
  same := by
    refine (get?_put_of_apart fs new ?_ outside).trans intact.same
    rintro ⟨below, rfl⟩
    cases below with
    | nil => exact outside (by rw [List.append_nil])
    | cons name below =>
      have missing := get?_append_eq_none writable.notDir name below
      exact intact.there (intact.same.symm.trans missing)

/-- A path still leads to what is intact. -/
theorem Intact.lookup {before fs : FileSystem} {place : Loc} (intact : Intact before fs place)
    {p : Path} (leads : before.lookup p = .ok (.occupied place)) :
    fs.lookup p = .ok (.occupied place) := by
  obtain ⟨valid, follows⟩ := resolveSegments_eq_ok_iff.mp leads
  have same : fs.kind? place = before.kind? place := by rw [kind?, kind?, intact.same]
  refine resolveSegments_eq_ok_iff.mpr ⟨valid, ?_⟩
  rw [intact.cwd]
  exact follows.mono intact.dirs (fun loc target => (intact.links loc target).mp) same

end FileSystem

namespace Disk

open FileSystem KernelSpec.Path Steps

/-! ## The steps of a copy -/

section Steps

variable {P : FileSystem → Prop} {aims : Path → Prop}

theorem keeps_ensureDirs {paths : List Path} (each : ∀ p ∈ paths, Keeps P (ensureDir p)) :
    Keeps P (ensureDirs paths) := by
  induction paths with
  | nil => exact keeps_pure ()
  | cons p parents ih =>
    obtain ⟨here, above⟩ := List.forall_mem_cons.mp each
    refine here.tryCatch fun fault => ?_
    split
    · exact (ih above).bind fun _ => here
    · exact keeps_throw fault

theorem forall_selfAndParents
    (above : ∀ {p parent : Path}, aims p → p.parent? = some parent → aims parent) {p : Path}
    (aim : aims p) (fuel : Nat) : ∀ q ∈ selfAndParents fuel p, aims q := by
  induction fuel generalizing p with
  | zero => simp [selfAndParents]
  | succ fuel ih =>
    rw [selfAndParents]
    cases found : p.parent? with
    | none => simp
    | some parent => exact List.forall_mem_cons.mpr ⟨aim, ih (above aim found)⟩

/-- What making a directory keeps is kept by making all that is missing above it. -/
theorem keeps_selfAndParents (aims : Path → Prop)
    (above : ∀ {p parent : Path}, aims p → p.parent? = some parent → aims parent)
    (each : ∀ {p : Path}, aims p → Keeps P (ensureDir p)) {p : Path} (aim : aims p) (fuel : Nat) :
    Keeps P (ensureDirs (selfAndParents fuel p)) :=
  keeps_ensureDirs fun q mem => each (forall_selfAndParents above aim fuel q mem)

/-- Copies one object of a directory. -/
def copyEntry (fuel : Nat) (trail : Trail) (object base : Path) (dir : Loc) (name : Name) :
    Disk Unit := do
  let place ← ask (walkTo trail (object.join ⟨name⟩) (dir ++ [name]))
  copyFrom fuel trail (object.join ⟨name⟩) (base.join ⟨name⟩) (base.join ⟨name⟩) place

/-- Copies the objects of a directory. -/
def copyEntries (fuel : Nat) (trail : Trail) (object base : Path) (dir : Loc) : Disk Unit := do
  (namesIn dir (← get)).forM (copyEntry fuel trail object base dir)

theorem run_copyFrom (fuel : Nat) (trail : Trail) (object target base : Path) (loc : Loc)
    (fs : FileSystem) :
    (copyFrom (fuel + 1) trail object target base loc).run fs =
      if (fs.get? loc).any Node.isDir then
        (ask (openDir object) >>= fun dir => createDirs target >>= fun _ =>
          copyEntries fuel ((object, loc) :: trail) object base dir).run fs
      else (copyLeaf object target).run fs := by
  rw [copyFrom, run_get_bind]
  split <;> rfl

theorem kind?_of_mem_namesIn {fs : FileSystem} {dir : Loc} {name : Name}
    (mem : name ∈ namesIn dir fs) : fs.kind? (dir ++ [name]) ≠ none := by
  unfold namesIn at mem
  split at mem
  · next entries found =>
    obtain ⟨node, here⟩ := Entries.find?_of_mem (List.mem_eraseDups.mp mem)
    rw [kind?, get?_concat found, here]
    exact Option.some_ne_none _
  · cases mem

/-- The names of the objects of a directory are names. -/
theorem isName_of_mem_namesIn {fs : FileSystem} (named : fs.WellNamed) {dir : Loc} {name : Name}
    (mem : name ∈ namesIn dir fs) : IsName name :=
  named (dir ++ [name]) (kind?_of_mem_namesIn mem) name (by simp)

/-- Writing to the paths that are aimed at keeps a property. -/
structure Safe (P : FileSystem → Prop) (aims : Path → Prop) : Prop where
  named : ∀ {fs : FileSystem}, P fs → fs.WellNamed
  above : ∀ {p parent : Path}, aims p → p.parent? = some parent → aims parent
  put : ∀ {p : Path} {fs : FileSystem} {place : Loc} {new : Node}, aims p → P fs →
    Writable fs place → Passes fs (startFrom p fs.cwd, p.segments) (place, []) → IsPlain new →
    P (fs.put place new)

/-- A path and all below it are aimed at. -/
def AimedBelow (aims : Path → Prop) (p : Path) : Prop :=
  ∀ names : List Name, (∀ name ∈ names, IsName name) → aims (p.below names)

theorem AimedBelow.aimed {p : Path} (below : AimedBelow aims p) : aims p := below [] (by simp)

theorem AimedBelow.below {p : Path} (aimed : AimedBelow aims p) {names : List Name}
    (areNames : ∀ name ∈ names, IsName name) : AimedBelow aims (p.below names) := by
  intro more areNames'
  rw [← below_append]
  exact aimed (names ++ more) (List.forall_mem_append.mpr ⟨areNames, areNames'⟩)

theorem AimedBelow.join {p : Path} (below : AimedBelow aims p) {name : Name}
    (isName : IsName name) : AimedBelow aims (p.join ⟨name⟩) := fun names areNames =>
  below (name :: names) (List.forall_mem_cons.mpr ⟨isName, areNames⟩)

section Safe

variable (safe : Safe P aims) {fuel : Nat} {trail : Trail} {object target base : Path} {loc : Loc}

include safe

theorem Safe.keeps_ensureDir (aim : aims target) : Keeps P (ensureDir target) := by
  intro fs holds
  simp only [ensureDir, ExceptT.run, ExceptT.mk]
  cases done : fs.makeDir target with
  | error fault =>
    simp only
    split <;> exact holds
  | ok changed =>
    obtain ⟨place, rfl, writable, passes⟩ := makeDir_eq_ok done
    exact safe.put aim holds writable passes rfl

theorem Safe.keeps_copyFile (aim : aims target) :
    Keeps P (ofOperation (copyFile object target)) := by
  refine keeps_ofOperation fun fs changed holds done => ?_
  obtain ⟨place, executable, led, way⟩ := copyFile_eq_ok done
  obtain ⟨writable, passes⟩ := writePlace_passes led
  have plain : IsPlain (.file [] executable) := trivial
  have emptied := safe.put aim holds writable passes plain
  obtain rfl | ⟨content, rfl⟩ := way
  · exact emptied
  · have again := passes.congr (writable.sameLinks_put plain)
    exact safe.put aim emptied (.file (writable.kind?_put _)) again trivial

theorem Safe.keeps_createDirs (aim : aims target) : Keeps P (createDirs target) :=
  keeps_selfAndParents aims safe.above safe.keeps_ensureDir aim _

theorem Safe.keeps_copyLeaf (aim : aims target) : Keeps P (copyLeaf object target) := by
  unfold copyLeaf
  cases found : target.parent? with
  | none => exact (keeps_pure ()).bind fun _ => safe.keeps_copyFile aim
  | some parent =>
    exact (safe.keeps_createDirs (safe.above aim found)).bind fun _ => safe.keeps_copyFile aim

/-- What writing keeps is kept by copying a tree. -/
theorem Safe.keeps_copyFrom (aim : aims target) (below : AimedBelow aims base) :
    Keeps P (copyFrom fuel trail object target base loc) := by
  induction fuel generalizing trail object target base loc with
  | zero => exact keeps_throw _
  | succ fuel ih =>
    intro fs holds
    rw [run_copyFrom]
    split
    · refine Keeps.bind (P := P) (keeps_ask _) (fun dir => ?_) fs holds
      refine (safe.keeps_createDirs aim).bind fun _ => keeps_get_bind fun fs holds => ?_
      refine keeps_forM (P := P) (fun name mem => ?_) fs holds
      have deeper := below.join (isName_of_mem_namesIn (safe.named holds) mem)
      exact (keeps_ask _).bind fun place => ih deeper.aimed deeper
    · exact safe.keeps_copyLeaf aim fs holds

theorem Safe.keeps_copyEntry (below : AimedBelow aims base) {dir : Loc} {name : Name}
    (isName : IsName name) : Keeps P (copyEntry fuel trail object base dir name) :=
  (keeps_ask _).bind fun _ =>
    safe.keeps_copyFrom (below.join isName).aimed (below.join isName)

end Safe

end Steps

/-! ## Trees on no way of the copy -/

variable {before : FileSystem} {tree : Loc}

/-- Every stop on the way of the path has a property. -/
def Along (before : FileSystem) (stays : Loc → Prop) (p : Path) : Prop :=
  ∀ stop rest, Passes before (startFrom p before.cwd, p.segments) (stop, rest) → stays stop

/-- The path above a path takes the same way, and stops earlier. -/
theorem Along.parent {stays : Loc → Prop} {p parent : Path} (along : Along before stays p)
    (found : p.parent? = some parent) : Along before stays parent := by
  obtain ⟨⟨more, same⟩, absolute⟩ := segments_parent? found
  intro stop rest passes
  refine along stop (rest ++ more) ?_
  rw [← same, startFrom, ← absolute]
  exact passes.append more

/-- A slash at the end changes nothing about the way. -/
theorem Along.slash {stays : Loc → Prop} {p : Path} (along : Along before stays p) :
    Along before stays (p.join ⟨[]⟩) := by
  intro stop rest passes
  rw [segments_join_nil, startFrom, isAbsolute_join_nil] at passes
  exact along stop rest passes

/-- Nothing on the way of the path lies inside the tree. -/
def Avoids (before : FileSystem) (tree : Loc) : Path → Prop :=
  Along before fun stop => ¬ tree <+: stop

/-- Nothing on the way of the path or below its end lies inside the tree. -/
def AvoidsBelow (before : FileSystem) (tree : Loc) (p : Path) : Prop :=
  ∀ (names : List Name) place rest,
    Passes before (startFrom p before.cwd, p.segments ++ names.map .name) (place, rest) →
      ¬ tree <+: place

theorem AvoidsBelow.aimedBelow {p : Path} (below : AvoidsBelow before tree p) :
    AimedBelow (Avoids before tree) p := by
  intro names areNames place rest passes
  rw [segments_below areNames, startFrom, isAbsolute_below areNames] at passes
  exact below names place rest passes

theorem safe_avoids (before : FileSystem) (tree : Loc) :
    Safe (Intact before · tree) (Avoids before tree) where
  named intact := intact.named
  above := Along.parent
  put avoids intact writable passes plain := by
    -- What is on the way of the path now was on it before.
    rw [intact.cwd] at passes
    exact intact.put writable (avoids _ _ (passes.congr intact.links.symm)) plain

/-- Copying writes to places on the way to the target and below it only. -/
theorem keeps_copyTree {source target : Path} (below : AvoidsBelow before tree target) :
    Keeps (Intact before · tree) (copyTree source target) := by
  have below := below.aimedBelow
  unfold copyTree copyWithin
  exact (keeps_ask _).bind fun loc =>
    (safe_avoids before tree).keeps_copyFrom (Along.slash below.aimed) below

end Disk

end KernelSpec
