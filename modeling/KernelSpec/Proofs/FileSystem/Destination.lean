import KernelSpec.Proofs.FileSystem.TreeCopy

/-! # Paths that leave what there is

A path may lead to a directory and go on from there with names that are missing (`Absent`). Where it
would end is its `Gap.place`; the topmost of the directories it lacks is at `Gap.top`. When the path
ends in a name and goes only down once it has left what there is, all that it lacks can be made, as
far as its names are not too long (`run_createDirs_of_absent`).
-/

namespace KernelSpec

/-- The name that a segment gives. -/
def Segment.name? : Segment → Option Name
  | .name given => some given
  | .here | .up => none

namespace FileSystem

open KernelSpec.Path

/-- The names among segments. -/
def namesOf (segments : List Segment) : List Name := segments.filterMap Segment.name?

/-- Where a path leaves what there is: its segments up to a directory, the name that is missing
there, and the segments after it. -/
structure Gap where
  front : List Segment
  dir : Loc
  name : Name
  back : List Segment

/-- The topmost place that is missing. -/
def Gap.top (gap : Gap) : Loc := gap.dir ++ [gap.name]

/-- Where the path would end. -/
def Gap.place (gap : Gap) : Loc := gap.top ++ namesOf gap.back

theorem Gap.top_le (gap : Gap) : gap.top <+: gap.place := List.prefix_append _ _

/-- The path leads to a directory and on to names that are missing. No `..` is among these, and the
last segment is one of them. -/
structure Absent (fs : FileSystem) (p : Path) (gap : Gap) : Prop where
  split : p.segments = gap.front ++ .name gap.name :: gap.back
  leads : Follows fs .followed maxLinks (startFrom p fs.cwd) gap.front (.occupied gap.dir)
  isDir : fs.kind? gap.dir = some .dir
  missing : fs.kind? gap.top = none
  down : .up ∉ gap.back
  ends : gap.back.getLast? ≠ some .here

section Missing

variable {fs : FileSystem} {place loc : Loc} {segments : List Segment}
  (missing : fs.kind? place = none) (below : place <+: loc) (noUp : .up ∉ segments)

include missing below noUp

/-- Below a place where nothing is, the way takes one segment after the other. -/
theorem Passes.taken {stop : Loc} {rest : List Segment}
    (passes : Passes fs (loc, segments) (stop, rest)) :
    ∃ taken, segments = taken ++ rest ∧ stop = loc ++ namesOf taken := by
  induction segments generalizing loc with
  | nil =>
    obtain same | ⟨_, step, _⟩ := passes.cases_head
    · cases same
      exact ⟨[], rfl, (List.append_nil _).symm⟩
    · cases step
  | cons segment segments ih =>
    obtain ⟨notUp, later⟩ := not_or.mp (mt List.mem_cons.mpr noUp)
    obtain same | ⟨_, step, onward⟩ := passes.cases_head
    · cases same
      exact ⟨[], rfl, (List.append_nil _).symm⟩
    · cases step with
      | here =>
        obtain ⟨taken, rfl, rfl⟩ := ih below later onward
        exact ⟨.here :: taken, rfl, rfl⟩
      | up => exact absurd rfl notUp
      | @name _ name =>
        obtain ⟨taken, rfl, rfl⟩ := ih (below.trans (List.prefix_append _ _)) later onward
        exact ⟨.name name :: taken, rfl, List.append_assoc _ _ _⟩
      | link found =>
        rw [kind?_of_missing missing (below.trans (List.prefix_append _ _))] at found
        cases found

/-- Below a place where nothing is, the way comes to its end. -/
theorem passes_namesOf : Passes fs (loc, segments) (loc ++ namesOf segments, []) := by
  induction segments generalizing loc with
  | nil =>
    rw [namesOf, List.filterMap_nil, List.append_nil]
    exact .refl
  | cons segment segments ih =>
    obtain ⟨notUp, later⟩ := not_or.mp (mt List.mem_cons.mpr noUp)
    cases segment with
    | here => exact .head (.here _ _) (ih below later)
    | up => exact absurd rfl notUp
    | name name =>
      have further := below.trans (List.prefix_append loc [name])
      have onward := ih further later
      rw [List.append_assoc] at onward
      refine .head (.name fun target found => ?_) onward
      rw [kind?_of_missing missing further] at found
      cases found

end Missing

section Absent

variable {fs : FileSystem} {p : Path} {gap : Gap} (absent : Absent fs p gap)

include absent

/-- The path ends in a name, and the way of the others leads to the directory for it. -/
theorem Absent.last : ∃ front child dir, p.segments = front ++ [.name child] ∧
    gap.place = dir ++ [child] ∧ Passes fs (startFrom p fs.cwd, front) (dir, []) := by
  have way := absent.leads.passes_followed
  obtain back | ⟨init, last, back⟩ := List.eq_nil_or_concat gap.back
  · refine ⟨gap.front, gap.name, gap.dir, by rw [absent.split, back], ?_, way⟩
    rw [Gap.place, back]
    exact List.append_nil _
  · rw [List.concat_eq_append] at back
    have noUp : .up ∉ init := fun up => absent.down (back ▸ List.mem_append_left _ up)
    cases last with
    | here => exact absurd (by rw [back, List.getLast?_concat]) absent.ends
    | up => exact absurd (by simp [back]) absent.down
    | name child =>
      refine ⟨gap.front ++ .name gap.name :: init, child, gap.top ++ namesOf init, ?_, ?_, ?_⟩
      · rw [absent.split, back]
        simp
      · rw [Gap.place, back]
        simp [namesOf, Segment.name?]
      · refine (way.append (.name gap.name :: init)).trans ?_
        refine .head (.name fun target found => ?_)
          (passes_namesOf absent.missing List.prefix_rfl noUp)
        cases absent.missing.symm.trans found

theorem Absent.missing_place : fs.kind? gap.place = none :=
  kind?_of_missing absent.missing gap.top_le

/-- What is above the place and missing is at the topmost place that is missing, or below it. -/
theorem Absent.top_le_of_missing {loc : Loc} (above : loc <+: gap.place)
    (gone : fs.kind? loc = none) : gap.top <+: loc := by
  obtain higher | lower := List.prefix_or_prefix_of_prefix above gap.top_le
  · obtain same | higher := List.prefix_concat_iff.mp higher
    · exact same ▸ List.prefix_rfl
    · have isDir := kind?_above absent.isDir higher
      rw [gone] at isDir
      cases isDir
  · exact lower

/-- Each `..` of the path is reached, since all of them come before what is missing. -/
theorem Absent.reached : Reached fs p := by
  refine .of_follows fun front back up => ?_
  obtain ⟨more, early⟩ : ∃ more, gap.front = front ++ .up :: more := by
    obtain ⟨late, _, rest⟩ | ⟨rest, early, tail⟩ :=
      List.append_eq_append_iff.mp (absent.split.symm.trans up)
    · have mem : Segment.up ∈ .name gap.name :: gap.back := by
        rw [rest]
        simp
      exact absurd ((List.mem_cons.mp mem).resolve_left Segment.noConfusion) absent.down
    · cases rest with
      | nil => cases tail
      | cons segment rest =>
        cases tail
        exact ⟨rest, early⟩
  have leads := absent.leads
  rw [early, List.append_cons] at leads
  obtain rfl | nonempty := eq_or_ne more []
  · rw [List.append_nil] at leads
    exact ⟨_, leads⟩
  · obtain ⟨mid, _, _, first, _⟩ := leads.split nonempty
    exact ⟨mid, first⟩

/-- Nothing is at the path. -/
theorem Absent.not_located (loc : Loc) : fs.locate p ≠ .ok loc := by
  intro located
  obtain ⟨front, dir, name, back⟩ := gap
  have follows := follows_of_locate located
  rw [absent.split] at follows
  obtain ⟨_, _, _, first, second⟩ := follows.split (by simp)
  cases first.unique absent.leads
  have missing : fs.kind? (dir ++ [name]) = none := absent.missing
  generalize ended : Spot.occupied loc = spot at second
  cases second with
  | vacant => cases ended
  | name _ _ found | kept _ _ found | link _ _ found =>
    rw [missing] at found
    cases found

theorem Absent.not_isDir : ¬ fs.isDir p = true := by
  intro isDir
  obtain ⟨loc, located, _⟩ := isDir_iff.mp isDir
  exact absent.not_located loc located

/-- A path with the same segments lacks the same. -/
theorem Absent.congr {q : Path} (segments : q.segments = p.segments)
    (absolute : q.isAbsolute = p.isAbsolute) : Absent fs q gap where
  split := segments.trans absent.split
  leads := by
    rw [startFrom, absolute]
    exact absent.leads
  isDir := absent.isDir
  missing := absent.missing
  down := absent.down
  ends := absent.ends

end Absent

/-- The path above lacks the names before the last one. -/
theorem Absent.parent {fs : FileSystem} {p parent : Path} {front back init : List Segment}
    {dir : Loc} {name child : Name} (absent : Absent fs p ⟨front, dir, name, back⟩)
    (found : p.parent? = some parent) (longer : back = init ++ [.name child]) :
    ∃ higher, Absent fs parent ⟨front, dir, name, higher⟩ := by
  have whole : p.segments = (front ++ .name name :: init) ++ [.name child] := by
    rw [absent.split, longer]
    simp
  obtain ⟨dots, here, same⟩ := segments_parent?_of_name found whole
  obtain ⟨higher, split, shorter⟩ : ∃ higher, parent.segments = front ++ .name name :: higher ∧
      init = higher ++ dots := by
    have notHere : ∀ others, dots ≠ others ++ .name name :: init := by
      rintro others rfl
      cases here (.name name) (by simp)
    obtain ⟨others, _, late⟩ | ⟨others, early, tail⟩ := List.append_eq_append_iff.mp same
    · exact absurd late (notHere others)
    · cases others with
      | nil => exact absurd tail.symm (notHere [])
      | cons segment higher =>
        cases tail
        exact ⟨higher, early, rfl⟩
  refine ⟨higher, split, ?_, absent.isDir, absent.missing, fun up => ?_, fun ends => ?_⟩
  · rw [startFrom, (segments_parent? found).2]
    exact absent.leads
  · apply absent.down
    rw [longer, shorter]
    simp [up]
  · have last : parent.segments.getLast? = some .here := by
      rw [split]
      cases higher with
      | nil => cases ends
      | cons => simpa [List.getLast?_append] using ends
    have only := segments_parent?_of_here found last
    rw [split] at only
    have lengths := congrArg List.length only
    cases front with
    | nil => cases (List.cons.inj only).1
    | cons =>
      simp only [List.length_append, List.length_cons, List.length_nil] at lengths
      omega

end FileSystem

namespace Disk

open FileSystem KernelSpec.Path Steps

section Making

variable {fs : FileSystem} {p : Path}

theorem makeDir_of_missing {gap : Gap} (absent : Absent fs p gap) (valid : checkPath p = .ok ())
    (short : gap.name.length ≤ maxName) (longer : gap.back ≠ []) :
    fs.makeDir p = .error (.os .noEntry) := by
  have missing : fs.kind? (gap.dir ++ [gap.name]) = none := absent.missing
  have fails : ∀ fewer, resolveFrom fs fewer .kept gap.dir (.name gap.name :: gap.back) =
      .error .noEntry := by
    intro fewer
    rw [resolveFrom_name absent.isDir short, missing]
    simp [longer]
  have whole := absent.leads.resolveFrom_append fails (by simp)
  rw [← absent.split] at whole
  simp only [makeDir, lookupPlace, resolveSegments, valid, whole, bind, Except.bind,
    Except.mapError]

/-- The last directory is made in the new one above it. -/
theorem makeDir_of_made {q : Path} {raised : FileSystem} {front : List Segment} {child : Name}
    (valid : checkPath p = .ok ()) (ends : p.segments = front ++ [.name child])
    (short : child.length ≤ maxName) (found : p.parent? = some q)
    (lacks : ¬ fs.isDir q = true ∧ ∃ name, .name name ∈ q.segments)
    (made : DirsMade q fs (.ok ()) raised) : ∃ changed, raised.makeDir p = .ok changed := by
  obtain ⟨notDir, name, mem⟩ := lacks
  cases made with
  | unchanged there =>
    obtain isDir | here := there rfl
    · exact absurd isDir notDir
    · cases here _ mem
  | @chain part rest mid dir new split opened dots =>
    obtain ⟨more, here, whole⟩ := segments_parent?_of_name found ends
    have leads := opened.follows_made (List.forall_mem_append.mpr ⟨dots rfl, here⟩)
    rw [← List.append_assoc, ← split, whole] at leads
    have isDir : (mid.put (dir ++ [new]) (.dir [])).kind? (dir ++ [new]) = some .dir := by
      rw [opened.kind?_made, if_pos rfl]
    have follows : Follows (mid.put (dir ++ [new]) (.dir [])) .kept maxLinks
        (startFrom p (mid.put (dir ++ [new]) (.dir [])).cwd) p.segments
        (.vacant (dir ++ [new]) child) := by
      rw [ends, startFrom, ← (segments_parent? found).2, opened.made.cwd]
      exact leads.append_free (.vacant isDir short (opened.empty child)) (by simp)
    exact ⟨_, makeDir_of_vacant valid follows⟩

/-- All that a path lacks is made, from the top down. -/
theorem run_ensureDirs_of_absent {gap : Gap} (absent : Absent fs p gap)
    (valid : checkPath p = .ok ()) (short : ∀ name, .name name ∈ p.segments → name.length ≤ maxName)
    {fuel : Nat} (fuelled : p.bytes.length < fuel) :
    ((ensureDirs (selfAndParents fuel p)).run fs).1 = .ok () := by
  -- Each path above is shorter, so the parents do not run out before the topmost one is made.
  induction fuel generalizing p gap with
  | zero => omega
  | succ fuel ih =>
    obtain ⟨front, dir, name, back⟩ := gap
    obtain ⟨whole, child, _, ends, _⟩ := absent.last
    have last : Segment.name child ∈ p.segments := by simp [ends]
    obtain ⟨q, found⟩ := Option.ne_none_iff_exists'.mp (parent?_ne_none_of_mem last)
    have first : name.length ≤ maxName := short name (by simp [absent.split])
    rw [selfAndParents, found]
    change ((tryCatch (ensureDir p) _ : Disk Unit).run fs).1 = _
    rw [run_tryCatch, run_ensureDir]
    obtain rfl | ⟨init, final, rfl⟩ := List.eq_nil_or_concat back
    · -- Nothing is missing but the place itself.
      have follows : Follows fs .kept maxLinks (startFrom p fs.cwd) p.segments (.vacant dir name) := by
        rw [absent.split]
        exact absent.leads.append_free (.vacant absent.isDir first absent.missing) (by simp)
      rw [makeDir_of_vacant valid follows]
    · have same : (.name child : Segment) = final := by
        have lasts := congrArg List.getLast? (ends.symm.trans absent.split)
        simpa [List.getLast?_append, List.getLast?_cons] using lasts
      subst same
      obtain ⟨higher, above⟩ := absent.parent found (List.concat_eq_append ..)
      have fewer := length_parent?_lt found
      have names : Segment.name name ∈ q.segments := by simp [above.split]
      have nonempty : q.bytes ≠ [] := by
        intro empty
        rw [segments, empty] at names
        simp [splitSlash, segmentOf?] at names
      have within := (segments_parent? found).1.subset
      rw [makeDir_of_missing absent valid first (by simp)]
      simp only [reduceCtorEq, Fault.os.injEq, decide_false, Bool.false_and, Bool.false_eq_true,
        if_false, if_true]
      have parents := ih above (checkPath_of_part valid (parent?_bytes found) nonempty)
        (fun name mem => short name (within mem)) (by omega)
      cases run : (ensureDirs (selfAndParents fuel q)).run fs with
      | mk result raised =>
        rw [run] at parents
        obtain rfl : result = .ok () := parents
        rw [run_bind_of_ok run, run_ensureDir]
        obtain ⟨fuel, rfl⟩ := Nat.exists_eq_succ_of_ne_zero (by omega : fuel ≠ 0)
        obtain ⟨changed, made⟩ := makeDir_of_made valid ends (short child last) found
          ⟨above.not_isDir, name, names⟩ (dirsMade_selfAndParents above.reached run)
        rw [made]

/-- The directory of a path is made with all that the path lacks. -/
theorem run_createDirs_of_absent {gap : Gap} (absent : Absent fs p gap)
    (valid : checkPath p = .ok ())
    (short : ∀ name, .name name ∈ p.segments → name.length ≤ maxName) :
    ((createDirs p).run fs).1 = .ok () :=
  run_ensureDirs_of_absent absent valid short (Nat.lt_succ_self _)

end Making

end Disk

end KernelSpec
