import KernelSpec.Proofs.FileSystem.Edit
import KernelSpec.Proofs.FileSystem.Lookup
import KernelSpec.Proofs.FileSystem.Run

/-! # What removing leaves behind

Removing what a path names either changes nothing or clears one location, which is the one the path
led to before (`removePath_state`). When the path ends in a name, a removal that fails changes
nothing (`removePath_error`): the last step of removing a directory finds the directory again, or
finds that the path has broken off, which counts as success. After a removal that succeeds, the path
leads to no directory (`removePath_gone`). What a path names is removed as a whole when the path
does not lead through it (`run_removePath_eq`).
-/

namespace KernelSpec

open FileSystem

/-- Nothing but what is at and below the place may differ, and nothing but a directory is left
there. -/
structure ClearedAt (fs cleared : FileSystem) (place : Loc) : Prop where
  cwd : cleared.cwd = fs.cwd
  apart : ∀ loc, ¬ place <+: loc → ¬ loc <+: place → cleared.get? loc = fs.get? loc
  outside : ∀ loc, ¬ place <+: loc → cleared.kind? loc = fs.kind? loc
  inside : ∀ loc, place <+: loc → cleared.kind? loc = none ∨
    loc = place ∧ cleared.kind? loc = some .dir ∧ fs.kind? loc = some .dir

theorem ClearedAt.trans {fs mid cleared : FileSystem} {place : Loc} (first : ClearedAt fs mid place)
    (second : ClearedAt mid cleared place) : ClearedAt fs cleared place where
  cwd := second.cwd.trans first.cwd
  apart loc notBelow notAbove :=
    (second.apart loc notBelow notAbove).trans (first.apart loc notBelow notAbove)
  outside loc notBelow := (second.outside loc notBelow).trans (first.outside loc notBelow)
  inside loc below := by
    obtain missing | ⟨same, isDir, wasDir⟩ := second.inside loc below
    · exact .inl missing
    · obtain missing | ⟨_, _, wasDir⟩ := first.inside loc below
      · rw [missing] at wasDir
        cases wasDir
      · exact .inr ⟨same, isDir, wasDir⟩

/-- Nothing is there that was not. -/
theorem ClearedAt.extends {fs cleared : FileSystem} {place : Loc}
    (was : ClearedAt fs cleared place) : Extends cleared fs where
  cwd := was.cwd.symm
  kept loc entry found := by
    by_cases below : place <+: loc
    · obtain missing | ⟨_, isDir, wasDir⟩ := was.inside loc below
      · rw [missing] at found
        cases found
      · rw [wasDir, ← isDir, found]
    · rw [← was.outside loc below, found]

theorem kind?_erase_below (fs : FileSystem) {place loc : Loc} (notRoot : place ≠ [])
    (below : place <+: loc) : (fs.erase place).kind? loc = none := by
  obtain ⟨more, rfl⟩ := below
  obtain ⟨dir, name, rfl⟩ := (List.eq_nil_or_concat place).resolve_left notRoot
  rw [List.concat_eq_append, kind?, get?_erase_append]
  rfl

theorem clearedAt_erase (fs : FileSystem) {place : Loc} (notRoot : place ≠ []) :
    ClearedAt fs (fs.erase place) place where
  cwd := rfl
  apart _ notBelow notAbove := get?_erase_of_apart fs notBelow notAbove
  outside _ notBelow := kind?_erase fs notBelow
  inside _ below := .inl (kind?_erase_below fs notRoot below)

/-- Nothing less is there than without what is at the place. -/
theorem ClearedAt.extends_erase {fs cleared : FileSystem} {place : Loc}
    (was : ClearedAt fs cleared place) (notRoot : place ≠ []) :
    Extends (fs.erase place) cleared where
  cwd := was.cwd
  kept loc entry found := by
    by_cases below : place <+: loc
    · rw [kind?_erase_below fs notRoot below] at found
      cases found
    · rw [was.outside loc below, ← kind?_erase fs below, found]

theorem get?_clear_append {fs : FileSystem} {place : Loc} {entries : Entries}
    (found : fs.get? place = some (.dir entries)) (below : Loc) :
    (fs.clear place).get? (place ++ below) = (Node.dir []).get? below := by
  obtain rfl | ⟨dir, name, rfl⟩ := List.eq_nil_or_concat place
  · rfl
  · rw [List.concat_eq_append] at found ⊢
    obtain ⟨others, parent⟩ := isDir_of_get?_concat found
    exact get?_put_append fs _ parent below

theorem get?_clear {fs : FileSystem} {place : Loc} {entries : Entries}
    (found : fs.get? place = some (.dir entries)) :
    (fs.clear place).get? place = some (.dir []) := by
  have here := get?_clear_append found []
  rwa [List.append_nil] at here

theorem clearedAt_clear {fs : FileSystem} {place : Loc} {entries : Entries}
    (found : fs.get? place = some (.dir entries)) : ClearedAt fs (fs.clear place) place where
  cwd := rfl
  apart loc notBelow notAbove := get?_put_of_apart fs _ notBelow notAbove
  outside loc notBelow := kind?_put fs _ notBelow
  inside := by
    rintro loc ⟨below, rfl⟩
    rw [kind?, get?_clear_append found]
    cases below with
    | nil =>
      rw [List.append_nil]
      exact .inr ⟨rfl, rfl, kind?_eq_dir_iff.mpr ⟨entries, found⟩⟩
    | cons name rest => exact .inl rfl

/-- After its directory was cleared, a path leads to the directory or breaks off. -/
theorem lookupPlace_clear {fs : FileSystem} {p : Path} {place : Loc} {entries : Entries}
    (led : fs.lookupPlace p = .ok (.occupied place))
    (found : fs.get? place = some (.dir entries)) :
    (fs.clear place).lookupPlace p = .ok (.occupied place) ∨
      (fs.clear place).lookupPlace p = .error (.os .noEntry) := by
  obtain ⟨valid, follows⟩ := resolveSegments_eq_ok_iff.mp led
  have cleared := clearedAt_clear found
  have there : (fs.clear place).kind? place = some .dir :=
    kind?_eq_dir_iff.mpr ⟨[], get?_clear found⟩
  have lost : ∀ loc, (fs.clear place).kind? loc = fs.kind? loc ∨
      (fs.clear place).kind? loc = none := by
    intro loc
    by_cases below : place <+: loc
    · obtain missing | ⟨_, isDir, wasDir⟩ := cleared.inside loc below
      · exact .inr missing
      · exact .inl (isDir.trans wasDir.symm)
    · exact .inl (cleared.outside loc below)
  obtain again | broken := follows.of_fewer lost (by rw [there]; exact Option.some_ne_none _)
  · exact .inl (resolveSegments_eq_ok_iff.mpr ⟨valid, resolveFrom_eq_ok_iff.mp again⟩)
  · right
    rw [lookupPlace, resolveSegments, valid]
    change Except.mapError Fault.os (resolveFrom (fs.clear place) maxLinks .kept
      (startFrom p fs.cwd) p.segments) = _
    rw [broken]
    rfl

theorem lookupLink_eq_lookupPlace {p : Path} (noSlash : p.endsInSlash = false) (fs : FileSystem) :
    fs.lookupLink p = fs.lookupPlace p := by
  simp [lookupLink, lookupPlace, lookupSegments, noSlash]

/-- An unlinked object is one that the path named. -/
theorem unlink_eq_ok {p : Path} {fs changed : FileSystem} (done : fs.unlink p = .ok changed) :
    ∃ place, fs.lookupPlace p = .ok (.occupied place) ∧ changed = fs.erase place := by
  obtain ⟨spot, led, done⟩ := bind_eq_ok_iff.mp done
  cases spot with
  | vacant dir name => cases done
  | occupied place =>
    refine ⟨place, led, ?_⟩
    simp only at done
    split at done
    · cases done
    · split at done
      · cases done
      · cases done
        rfl
    · cases done

/-- A file or a link that a path names is unlinked. -/
theorem unlink_of_led {p : Path} {fs : FileSystem} {place : Loc} {front : List Segment}
    {name : Name} (noSlash : p.endsInSlash = false) (ends : p.segments = front ++ [.name name])
    (led : fs.lookupPlace p = .ok (.occupied place))
    (notDir : ∀ entries, fs.get? place ≠ some (.dir entries)) :
    fs.unlink p = .ok (fs.erase place) := by
  refine bind_eq_ok_iff.mpr ⟨_, led, ?_⟩
  have named : p.segments.getLast? = some (.name name) := by rw [ends, List.getLast?_concat]
  simp only [named, noSlash]
  cases found : fs.get? place with
  | none => rfl
  | some node =>
    cases node with
    | dir entries => exact absurd found (notDir entries)
    | file | link => rfl

/-- Removing a directory that has just been cleared: the path has broken off, or the directory goes,
or the path does not end in a name. -/
theorem removeEmptyDir_clear {p : Path} {fs : FileSystem} {place : Loc} {entries : Entries}
    (led : fs.lookupPlace p = .ok (.occupied place))
    (found : fs.get? place = some (.dir entries)) :
    removeEmptyDir p (fs.clear place) = .error (.os .noEntry) ∨
      ((∃ name, p.segments.getLast? = some (.name name)) ∧
        removeEmptyDir p (fs.clear place) = .ok ((fs.clear place).erase place)) ∨
      ((∀ name, p.segments.getLast? ≠ some (.name name)) ∧
        ∃ fault, removeEmptyDir p (fs.clear place) = .error fault) := by
  obtain again | broken := lookupPlace_clear led found
  · right
    have gone := get?_clear found
    simp only [removeEmptyDir, again, bind, Except.bind, gone]
    cases p.segments.getLast? with
    | none => exact .inr ⟨by simp, _, rfl⟩
    | some segment =>
      cases segment with
      | here | up => exact .inr ⟨by simp, _, rfl⟩
      | name name => exact .inl ⟨⟨name, rfl⟩, rfl⟩
  · left
    rw [removeEmptyDir, broken]
    rfl

namespace Disk

open Steps

theorem run_removePath (p : Path) (fs : FileSystem) :
    (removePath p).run fs = if fs.isDir p then (removeTree p).run fs else
      (ofOperation (FileSystem.unlink p)).run fs := by
  unfold removePath
  rw [run_get_bind]
  split <;> rfl

/-- A directory is cleared and then removed itself, unless the path to it has broken off. -/
theorem run_removeTree_of_dir {p : Path} {fs : FileSystem} {place : Loc} {entries : Entries}
    (led : fs.lookupLink p = .ok (.occupied place))
    (found : fs.get? place = some (.dir entries)) :
    (removeTree p).run fs =
      match FileSystem.removeEmptyDir p (fs.clear place) with
      | .ok removed => (.ok (), removed)
      | .error fault =>
        (if fault = .os .noEntry then .ok () else .error fault, fs.clear place) := by
  have asked : (ask (·.lookupLink p)).run fs = (.ok (.occupied place), fs) := by
    change (fs.lookupLink p, fs) = _
    rw [led]
  have run : (removeTree p).run fs =
      (tryCatch (ofOperation (FileSystem.removeEmptyDir p)) fun fault =>
        if fault = .os .noEntry then pure () else throw fault : Disk Unit).run
          (fs.clear place) := by
    unfold removeTree
    rw [run_bind, asked]
    simp only
    rw [run_get_bind, found]
    rfl
  rw [run, run_tryCatch, run_ofOperation]
  cases FileSystem.removeEmptyDir p (fs.clear place) with
  | ok changed => rfl
  | error fault =>
    simp only
    split <;> rfl

theorem run_removeTree_of_other {p : Path} {fs : FileSystem} {place : Loc}
    (led : fs.lookupLink p = .ok (.occupied place))
    (notDir : ∀ entries, fs.get? place ≠ some (.dir entries)) :
    (removeTree p).run fs = (ofOperation (FileSystem.unlink p)).run fs := by
  have asked : (ask (·.lookupLink p)).run fs = (.ok (.occupied place), fs) := by
    rw [run_ask, led]
  unfold removeTree
  rw [run_bind_of_ok asked]
  simp only
  rw [run_get_bind]
  split
  · next entries found => exact absurd found (notDir entries)
  · rfl

/-- What removing a tree comes to, by what the path names. -/
theorem removeTree_cases (p : Path) (fs : FileSystem) :
    (∃ fault, (removeTree p).run fs = (.error fault, fs)) ∨
      (removeTree p).run fs = (ofOperation (FileSystem.unlink p)).run fs ∨
      ∃ place entries, fs.lookupLink p = .ok (.occupied place) ∧
        fs.get? place = some (.dir entries) := by
  have asked : (ask (·.lookupLink p)).run fs = (fs.lookupLink p, fs) := rfl
  cases led : fs.lookupLink p with
  | error fault =>
    left
    refine ⟨fault, ?_⟩
    unfold removeTree
    rw [run_bind, asked, led]
  | ok spot =>
    cases spot with
    | vacant dir name =>
      left
      refine ⟨.os .noEntry, ?_⟩
      unfold removeTree
      rw [run_bind, asked, led]
      rfl
    | occupied place =>
      right
      by_cases isDir : ∃ entries, fs.get? place = some (.dir entries)
      · obtain ⟨entries, found⟩ := isDir
        exact .inr ⟨place, entries, rfl, found⟩
      · exact .inl (run_removeTree_of_other led (not_exists.mp isDir))

theorem unlink_state (p : Path) (fs : FileSystem) :
    (∃ fault, (ofOperation (FileSystem.unlink p)).run fs = (.error fault, fs)) ∨
      ∃ place, fs.lookupPlace p = .ok (.occupied place) ∧
        (place ≠ [] → ClearedAt fs ((ofOperation (FileSystem.unlink p)).run fs).2 place) := by
  rw [run_ofOperation]
  cases done : FileSystem.unlink p fs with
  | error fault => exact .inl ⟨fault, rfl⟩
  | ok changed =>
    obtain ⟨place, led, rfl⟩ := unlink_eq_ok done
    exact .inr ⟨place, led, clearedAt_erase fs⟩

/-- Removing fails and changes nothing, or clears the location that the path leads to. -/
theorem removePath_state {p : Path} (noSlash : p.endsInSlash = false) (fs : FileSystem) :
    (∃ fault, (removePath p).run fs = (.error fault, fs)) ∨
      ∃ place, fs.lookupPlace p = .ok (.occupied place) ∧
        (place ≠ [] → ClearedAt fs ((removePath p).run fs).2 place) := by
  rw [run_removePath]
  split
  · obtain ⟨fault, run⟩ | run | ⟨place, entries, led, found⟩ := removeTree_cases p fs
    · exact .inl ⟨fault, run⟩
    · rw [run]
      exact unlink_state p fs
    · rw [run_removeTree_of_dir led found]
      rw [lookupLink_eq_lookupPlace noSlash] at led
      refine .inr ⟨place, led, fun notRoot => ?_⟩
      have cleared := clearedAt_clear found
      obtain missing | ⟨_, removed⟩ | ⟨_, fault, failed⟩ := removeEmptyDir_clear led found
      · rw [missing]
        exact cleared
      · rw [removed]
        exact cleared.trans (clearedAt_erase _ notRoot)
      · rw [failed]
        exact cleared
  · exact unlink_state p fs

/-- A path leads to no directory once what it named is missing. -/
theorem not_isDir_of_missing {p : Path} {fs fewer : FileSystem} {place : Loc}
    {front : List Segment} {name : Name} (ends : p.segments = front ++ [.name name])
    (led : fs.lookupPlace p = .ok (.occupied place)) (smaller : Extends fewer fs)
    (missing : fewer.kind? place = none) : ¬ fewer.isDir p = true := by
  intro isDir
  obtain ⟨other, leads, there⟩ := lookupPlace_of_isDir isDir ends
  have before := (resolveSegments_eq_ok_iff.mp led).2
  have after := (resolveSegments_eq_ok_iff.mp leads).2.extend smaller
  rw [← smaller.cwd] at after
  cases before.unique after
  exact there missing

theorem ne_nil_of_lookupPlace {p : Path} {fs : FileSystem} {place : Loc} {front : List Segment}
    {name : Name} (ends : p.segments = front ++ [.name name])
    (led : fs.lookupPlace p = .ok (.occupied place)) : place ≠ [] := by
  have follows := (resolveSegments_eq_ok_iff.mp led).2
  rw [ends] at follows
  obtain ⟨dir, _, _, ⟨same, _⟩ | ⟨same, _⟩⟩ := follows.above_kept
  · cases same
  · cases same
    simp

/-- After a removal that succeeds, the path leads to no directory. -/
theorem removePath_gone {p : Path} {fs changed : FileSystem} {front : List Segment} {name : Name}
    (noSlash : p.endsInSlash = false) (ends : p.segments = front ++ [.name name])
    (run : (removePath p).run fs = (.ok (), changed)) : ¬ changed.isDir p = true := by
  have unlinked : (ofOperation (FileSystem.unlink p)).run fs = (.ok (), changed) →
      ¬ changed.isDir p = true := by
    rw [run_ofOperation]
    cases done : FileSystem.unlink p fs with
    | error fault => exact fun same => nomatch same
    | ok removed =>
      intro same
      cases same
      obtain ⟨place, led, rfl⟩ := unlink_eq_ok done
      have notRoot := ne_nil_of_lookupPlace ends led
      have gone := kind?_erase_below fs notRoot List.prefix_rfl
      exact not_isDir_of_missing ends led (clearedAt_erase fs notRoot).extends gone
  rw [run_removePath] at run
  split at run
  · obtain ⟨_, stays⟩ | asUnlink | ⟨place, entries, led, found⟩ := removeTree_cases p fs
    · rw [stays] at run
      cases run
    · exact unlinked (asUnlink.symm.trans run)
    · rw [run_removeTree_of_dir led found] at run
      rw [lookupLink_eq_lookupPlace noSlash] at led
      obtain missing | ⟨_, removed⟩ | ⟨unnamed, _⟩ := removeEmptyDir_clear led found
      · -- The path has broken off, so it names no directory any more.
        rw [missing] at run
        cases run
        intro isDir
        obtain ⟨_, again, _⟩ := lookupPlace_of_isDir isDir ends
        simp only [removeEmptyDir, again, bind, Except.bind, ends, List.getLast?_concat] at missing
        split at missing <;> cases missing
      · rw [removed] at run
        cases run
        have notRoot := ne_nil_of_lookupPlace ends led
        have cleared := (clearedAt_clear found).trans (clearedAt_erase _ notRoot)
        exact not_isDir_of_missing ends led cleared.extends
          (kind?_erase_below _ notRoot List.prefix_rfl)
      · exact absurd (by rw [ends, List.getLast?_concat]) (unnamed name)
  · exact unlinked run

/-- What a path names is taken away. For a directory, the path has to lead to it still when it is
empty. -/
theorem run_removePath_eq {p : Path} {fs : FileSystem} {place : Loc} {front : List Segment}
    {name : Name} (noSlash : p.endsInSlash = false) (ends : p.segments = front ++ [.name name])
    (led : fs.lookupPlace p = .ok (.occupied place))
    (again : ∀ entries, fs.get? place = some (.dir entries) →
      (fs.clear place).lookupPlace p = .ok (.occupied place)) :
    (removePath p).run fs = (.ok (), fs.erase place) := by
  have linked : fs.lookupLink p = .ok (.occupied place) := by
    rwa [lookupLink_eq_lookupPlace noSlash]
  rw [run_removePath]
  by_cases isDir : ∃ entries, fs.get? place = some (.dir entries)
  · obtain ⟨entries, found⟩ := isDir
    have kind : fs.kind? place = some .dir := kind?_eq_dir_iff.mpr ⟨entries, found⟩
    have there : fs.isDir p = true := by
      obtain ⟨valid, follows⟩ := resolveSegments_eq_ok_iff.mp linked
      refine isDir_iff.mpr ⟨place, locate_eq_ok_iff.mpr ⟨valid, ?_⟩, kind⟩
      refine follows.followed fun _ target other => ?_
      rw [Spot.loc, kind] at other
      cases other
    have removed : removeEmptyDir p (fs.clear place) = .ok (fs.erase place) := by
      have gone := get?_clear found
      simp only [removeEmptyDir, again entries found, bind, Except.bind, gone, ends,
        List.getLast?_concat]
      rw [FileSystem.clear, erase_put fs (ne_nil_of_lookupPlace ends led)]
      rfl
    rw [if_pos there, run_removeTree_of_dir linked found, removed]
  · have notDir := not_exists.mp isDir
    have unlinked : (ofOperation (FileSystem.unlink p)).run fs = (.ok (), fs.erase place) := by
      rw [run_ofOperation, unlink_of_led noSlash ends led notDir]
    split
    · rw [run_removeTree_of_other linked notDir, unlinked]
    · exact unlinked

/-- A removal that fails changes nothing, when the path ends in a name. -/
theorem removePath_error {p : Path} {fs changed : FileSystem} {fault : Fault} {name : Name}
    (noSlash : p.endsInSlash = false) (named : p.segments.getLast? = some (.name name))
    (run : (removePath p).run fs = (.error fault, changed)) : changed = fs := by
  have unlinked : (ofOperation (FileSystem.unlink p)).run fs = (.error fault, changed) →
      changed = fs := by
    rw [run_ofOperation]
    cases FileSystem.unlink p fs with
    | error fault =>
      intro same
      cases same
      rfl
    | ok removed => exact fun same => nomatch same
  rw [run_removePath] at run
  split at run
  · obtain ⟨_, stays⟩ | asUnlink | ⟨place, entries, led, found⟩ := removeTree_cases p fs
    · rw [stays] at run
      cases run
      rfl
    · exact unlinked (asUnlink.symm.trans run)
    · rw [run_removeTree_of_dir led found] at run
      rw [lookupLink_eq_lookupPlace noSlash] at led
      obtain missing | ⟨_, removed⟩ | ⟨unnamed, _⟩ := removeEmptyDir_clear led found
      · rw [missing] at run
        cases run
      · rw [removed] at run
        cases run
      · exact absurd named (unnamed name)
  · exact unlinked run

end Disk

end KernelSpec
