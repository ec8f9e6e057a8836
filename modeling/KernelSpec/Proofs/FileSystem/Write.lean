import KernelSpec.Proofs.FileSystem.Way

/-! # Where operations write

Making a directory and writing a file put a new object where nothing or a file was, at a place on
the way of the path (`Writable`). Nothing else becomes another kind of object
(`Writable.kind?_put_of_ne`), so the path still leads there, and reading it gives what was written
(`readFile_writeFile`).
-/

namespace KernelSpec.FileSystem

open KernelSpec.Path

/-- Every object has a name that a path can spell. -/
def WellNamed (fs : FileSystem) : Prop := ∀ loc, fs.kind? loc ≠ none → ∀ name ∈ loc, IsName name

/-- A place where a file can be written or a directory made: it is free, or a file is there. -/
inductive Writable (fs : FileSystem) : Loc → Prop
  | vacant {dir : Loc} {name : Name} (isDir : fs.kind? dir = some .dir)
      (missing : fs.kind? (dir ++ [name]) = none) (isName : IsName name) :
      Writable fs (dir ++ [name])
  | file {place : Loc} {content : Bytes} {executable : Bool}
      (found : fs.kind? place = some (.file content executable)) : Writable fs place

section Writable

variable {fs : FileSystem} {place : Loc} (writable : Writable fs place)

include writable

theorem Writable.named (named : fs.WellNamed) : ∀ name ∈ place, IsName name := by
  cases writable with
  | vacant isDir _ isName =>
    intro other mem
    obtain mem | mem := List.mem_append.mp mem
    · exact named _ (by rw [isDir]; exact Option.some_ne_none _) other mem
    · obtain rfl := List.mem_singleton.mp mem
      exact isName
  | file found => exact named _ (by rw [found]; exact Option.some_ne_none _)

theorem Writable.notDir (entries : Entries) : fs.get? place ≠ some (.dir entries) := by
  intro found
  have isDir : fs.kind? place = some .dir := kind?_eq_dir_iff.mpr ⟨entries, found⟩
  cases writable with
  | vacant _ missing => rw [missing] at isDir; cases isDir
  | file isFile => rw [isFile] at isDir; cases isDir

theorem Writable.notLink (target : Path) : fs.kind? place ≠ some (.link target) := by
  intro isLink
  cases writable with
  | vacant _ missing => rw [missing] at isLink; cases isLink
  | file isFile => rw [isFile] at isLink; cases isLink

theorem Writable.get?_put_append (new : Node) (below : Loc) :
    (fs.put place new).get? (place ++ below) = new.get? below := by
  obtain rfl | ⟨dir, name, rfl⟩ := List.eq_nil_or_concat place
  · rfl
  · rw [List.concat_eq_append] at writable ⊢
    have isDir : ∃ entries, fs.get? dir = some (.dir entries) := by
      generalize same : dir ++ [name] = place at writable
      cases writable with
      | vacant isDir =>
        obtain ⟨rfl, _⟩ := List.append_inj' same rfl
        exact kind?_eq_dir_iff.mp isDir
      | file found =>
        subst same
        obtain ⟨node, found, _⟩ := Option.map_eq_some_iff.mp found
        exact isDir_of_get?_concat found
    obtain ⟨entries, parent⟩ := isDir
    exact FileSystem.get?_put_append fs new parent below

theorem Writable.kind?_put (new : Node) : (fs.put place new).kind? place = some new.entry := by
  have here := writable.get?_put_append new []
  rw [List.append_nil] at here
  rw [kind?, here]
  rfl

end Writable

/-- An object with nothing below it, and not a link. -/
def IsPlain : Node → Prop
  | .dir entries => entries = []
  | .file _ _ => True
  | .link _ => False

theorem IsPlain.get?_cons {node : Node} (plain : IsPlain node) (name : Name) (below : Loc) :
    node.get? (name :: below) = none := by
  cases node with
  | dir entries =>
    obtain rfl : entries = [] := plain
    rfl
  | file => rfl
  | link => exact plain.elim

theorem IsPlain.entry_ne {node : Node} (plain : IsPlain node) (target : Path) :
    node.entry ≠ .link target := by
  cases node with
  | dir | file => exact Entry.noConfusion
  | link => exact plain.elim

/-- Nothing becomes another kind of object but what is at the place. -/
theorem Writable.kind?_put_of_ne {fs : FileSystem} {place loc : Loc} (writable : Writable fs place)
    {new : Node} (plain : IsPlain new) (other : loc ≠ place) :
    (fs.put place new).kind? loc = fs.kind? loc := by
  by_cases below : place <+: loc
  · obtain ⟨more, rfl⟩ := below
    cases more with
    | nil => exact absurd (List.append_nil place) other
    | cons name more =>
      rw [kind?, kind?, writable.get?_put_append, plain.get?_cons,
        get?_append_eq_none writable.notDir]
  · exact FileSystem.kind?_put fs new below

theorem Writable.wellNamed_put {fs : FileSystem} {place : Loc} (writable : Writable fs place)
    (named : fs.WellNamed) {new : Node} (plain : IsPlain new) : (fs.put place new).WellNamed := by
  intro loc found
  by_cases here : loc = place
  · subst here
    exact writable.named named
  · rw [writable.kind?_put_of_ne plain here] at found
    exact named loc found

/-! ## Where operations write -/

theorem makeDir_eq_ok {p : Path} {fs changed : FileSystem} (done : makeDir p fs = .ok changed) :
    ∃ place, changed = fs.put place (.dir []) ∧ Writable fs place ∧
      Passes fs (startFrom p fs.cwd, p.segments) (place, []) := by
  obtain ⟨spot, led, done⟩ := bind_eq_ok_iff.mp done
  cases spot with
  | occupied loc => cases done
  | vacant dir name =>
    cases done
    obtain ⟨_, follows⟩ := resolveSegments_eq_ok_iff.mp led
    obtain ⟨isDir, missing⟩ := follows.vacancy
    have isName := follows.isName_of_vacant fun _ => isName_of_mem_segments
    refine ⟨dir ++ [name], rfl, .vacant isDir missing isName, follows.passes fun _ target => ?_⟩
    rw [Spot.loc, missing]
    exact fun same => nomatch same

theorem lookupWritten_eq_ok {fs : FileSystem} {p : Path} {spot : Spot}
    (led : fs.lookupWritten p = .ok spot) :
    checkPath p = .ok () ∧ p.endsInSlash = false ∧
      Follows fs .written maxLinks (startFrom p fs.cwd) p.segments spot := by
  obtain ⟨_, valid, led⟩ := bind_eq_ok_iff.mp led
  rw [mapError_eq_ok_iff] at led
  split at led
  · exact absurd led (refuseSlash_ne_ok _ _)
  · next noSlash => exact ⟨valid, Bool.eq_false_iff.mpr noSlash, resolveFrom_eq_ok_iff.mp led⟩

/-- Writing to a path goes to what the path names, a free place or a file. -/
theorem writePlace_eq_ok {fs : FileSystem} {p : Path} {place : Loc}
    (led : fs.writePlace p = .ok place) :
    ∃ spot, fs.lookupWritten p = .ok spot ∧ spot.loc = place ∧ Writable fs place := by
  obtain ⟨spot, found, led⟩ := bind_eq_ok_iff.mp led
  obtain ⟨_, _, follows⟩ := lookupWritten_eq_ok found
  cases spot with
  | vacant dir name =>
    cases led
    obtain ⟨isDir, missing⟩ := follows.vacancy
    have isName := follows.isName_of_vacant fun _ => isName_of_mem_segments
    exact ⟨_, found, rfl, .vacant isDir missing isName⟩
  | occupied loc =>
    simp only at led
    split at led
    · next content executable isFile =>
      have kind : fs.kind? loc = some (.file content executable) := by
        rw [kind?, isFile]
        rfl
      cases led
      exact ⟨_, found, rfl, .file kind⟩
    · cases led

theorem writePlace_passes {fs : FileSystem} {p : Path} {place : Loc}
    (led : fs.writePlace p = .ok place) :
    Writable fs place ∧ Passes fs (startFrom p fs.cwd, p.segments) (place, []) := by
  obtain ⟨spot, found, rfl, writable⟩ := writePlace_eq_ok led
  obtain ⟨_, _, follows⟩ := lookupWritten_eq_ok found
  exact ⟨writable, follows.passes fun kept => nomatch kept⟩

/-- A copied file is written to one place, first empty and then with its content. -/
theorem copyFile_eq_ok {source target : Path} {fs changed : FileSystem}
    (done : copyFile source target fs = .ok changed) :
    ∃ place executable, fs.writePlace target = .ok place ∧
      (changed = fs.put place (.file [] executable) ∨ ∃ content,
        changed = (fs.put place (.file [] executable)).put place (.file content executable)) := by
  obtain ⟨origin, _, done⟩ := bind_eq_ok_iff.mp done
  obtain ⟨⟨_, executable⟩, _, done⟩ := bind_eq_ok_iff.mp done
  obtain ⟨place, led, done⟩ := bind_eq_ok_iff.mp done
  refine ⟨place, executable, led, ?_⟩
  simp only at done
  split at done
  · next content _ _ =>
    cases done
    exact .inr ⟨content, rfl⟩
  · cases done
    exact .inl rfl

/-! ## Reading what was written -/

/-- A path to which a file is written leads to that file. -/
theorem Follows.put_file {fs : FileSystem} {links : Nat} {loc : Loc} {segments : List Segment}
    {spot : Spot} (follows : Follows fs .written links loc segments spot)
    (writable : Writable fs spot.loc) (content : Bytes) (executable : Bool) :
    Follows (fs.put spot.loc (.file content executable)) .followed links loc segments
      (.occupied spot.loc) := by
  generalize reached : spot.loc = place at writable ⊢
  generalize added : fs.put place (.file content executable) = changed
  have here : changed.kind? place = some (.file content executable) := by
    rw [← added, writable.kind?_put]
    rfl
  have elsewhere : ∀ {other : Loc}, other ≠ place → changed.kind? other = fs.kind? other := by
    intro other different
    rw [← added]
    exact writable.kind?_put_of_ne trivial different
  have stillDir : ∀ {dir : Loc}, fs.kind? dir = some .dir → changed.kind? dir = some .dir := by
    intro dir isDir
    rw [elsewhere, isDir]
    rintro rfl
    obtain ⟨entries, found⟩ := kind?_eq_dir_iff.mp isDir
    exact writable.notDir entries found
  induction follows with
  | done loc =>
    cases reached
    exact .done loc
  | here isDir _ ih => exact .here (stillDir isDir) (ih reached)
  | up isDir _ ih => exact .up (stillDir isDir) (ih reached)
  | vacant isDir short _ =>
    cases reached
    exact .name (stillDir isDir) short here (fun _ => Entry.noConfusion) (.done _)
  | @name _ loc name _ _ _ isDir short found noLink _ ih =>
    -- The object that is met may be the one that was written; it is no link before and after.
    by_cases same : loc ++ [name] = place
    · rw [← same] at here
      exact .name (stillDir isDir) short here (fun _ => Entry.noConfusion) (ih reached)
    · exact .name (stillDir isDir) short ((elsewhere same).trans found) noLink (ih reached)
  | kept _ _ _ keeps => cases keeps
  | @link _ loc name target _ _ isDir short found _ _ _ ih =>
    have different : loc ++ [name] ≠ place := by
      rintro same
      exact writable.notLink target (same ▸ found)
    exact .link (stillDir isDir) short ((elsewhere different).trans found) nofun nofun (ih reached)

theorem readFile_of_lookup {fs : FileSystem} {p : Path} {loc : Loc} {content : Bytes}
    {executable : Bool} (leads : fs.lookup p = .ok (.occupied loc))
    (found : fs.get? loc = some (.file content executable)) :
    fs.readFile p = .ok (content, executable) := by
  have located : fs.locate p = .ok loc := bind_eq_ok_iff.mpr ⟨_, leads, rfl⟩
  refine bind_eq_ok_iff.mpr ⟨loc, located, ?_⟩
  rw [found]
  rfl

/-- A file that was written is read again. -/
theorem readFile_writeFile {p : Path} {content : Bytes} {fs changed : FileSystem}
    (done : writeFile p content fs = .ok changed) :
    ∃ executable, changed.readFile p = .ok (content, executable) := by
  obtain ⟨place, led, done⟩ := bind_eq_ok_iff.mp done
  obtain ⟨spot, found, rfl, writable⟩ := writePlace_eq_ok led
  obtain ⟨valid, noSlash, follows⟩ := lookupWritten_eq_ok found
  cases done
  generalize fs.isExecutable spot.loc = executable
  have whole : lookupSegments p = p.segments := by
    rw [lookupSegments, noSlash]
    exact List.append_nil _
  have leads : (fs.put spot.loc (.file content executable)).lookup p =
      .ok (.occupied spot.loc) := by
    rw [lookup, whole]
    exact resolveSegments_eq_ok_iff.mpr ⟨valid, follows.put_file writable content executable⟩
  have node := writable.get?_put_append (.file content executable) []
  rw [List.append_nil] at node
  exact ⟨executable, readFile_of_lookup leads node⟩

end KernelSpec.FileSystem
