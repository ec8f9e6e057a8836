import KernelSpec.Proofs.Except
import KernelSpec.Proofs.FileSystem.Tree

/-! # How a path is followed

`Follows` is the relation of the successful ways through a file system: the segments lead from a
location to a spot, through at most so many links. It is what `resolveFrom` computes
(`resolveFrom_eq_ok_iff`), and it asks of the file system only what the objects on the way are.
-/

namespace KernelSpec.FileSystem

theorem kind?_eq_dir_iff {fs : FileSystem} {loc : Loc} :
    fs.kind? loc = some .dir ↔ ∃ entries, fs.get? loc = some (.dir entries) := by
  unfold kind?
  constructor
  · intro isDir
    obtain ⟨node, found, same⟩ := Option.map_eq_some_iff.mp isDir
    cases node with
    | file | link => cases same
    | dir entries => exact ⟨entries, found⟩
  · rintro ⟨entries, found⟩
    rw [found]
    rfl

/-- The location of a spot, whether or not an object is there. -/
def Spot.loc : Spot → Loc
  | .occupied loc => loc
  | .vacant dir name => dir ++ [name]

theorem refuseSlash_ne_ok (above : Except Errno Spot) (spot : Spot) :
    refuseSlash above ≠ .ok spot := by
  cases above <;> simp [refuseSlash, Except.bind]

/-- How `resolveFrom` goes on at a link. -/
def followLink (fs : FileSystem) (last : LastLink) :
    Nat → Loc → Path → List Segment → Except Errno Spot
  | 0, _, _, _ => .error .tooManyLinks
  | links + 1, dir, target, rest =>
    if last = .written && rest.isEmpty && target.endsInSlash then
      refuseSlash (resolveFrom fs links .followed (startFrom target dir) (aboveSegments target))
    else resolveFrom fs links last (startFrom target dir) (lookupSegments target ++ rest)

theorem resolveFrom_eq_descend (fs : FileSystem) (links : Nat) (last : LastLink) :
    resolveFrom fs links last = descend fs (followLink fs last links) (last != .kept) := by
  cases links <;> rfl

section Unfolding

variable {fs : FileSystem} {links : Nat} {last : LastLink} {loc : Loc} {rest : List Segment}

theorem resolveFrom_nil : resolveFrom fs links last loc [] = .ok (.occupied loc) := by
  rw [resolveFrom_eq_descend, descend]

theorem resolveFrom_of_missing {segment : Segment} (missing : fs.kind? loc = none) :
    resolveFrom fs links last loc (segment :: rest) = .error .noEntry := by
  rw [resolveFrom_eq_descend, descend, Option.map_eq_none_iff.mp missing]

theorem resolveFrom_of_not_dir {segment : Segment} {entry : Entry}
    (found : fs.kind? loc = some entry) (notDir : entry ≠ .dir) :
    resolveFrom fs links last loc (segment :: rest) = .error .notDirectory := by
  obtain ⟨node, here, rfl⟩ := Option.map_eq_some_iff.mp found
  rw [resolveFrom_eq_descend, descend, here]
  cases node with
  | file | link => rfl
  | dir entries => exact absurd rfl notDir

theorem resolveFrom_of_long {name : Name} (isDir : fs.kind? loc = some .dir)
    (long : maxName < name.length) :
    resolveFrom fs links last loc (.name name :: rest) = .error .nameTooLong := by
  obtain ⟨entries, found⟩ := kind?_eq_dir_iff.mp isDir
  rw [resolveFrom_eq_descend, descend, found]
  simp only [if_pos long]

theorem resolveFrom_here (isDir : fs.kind? loc = some .dir) :
    resolveFrom fs links last loc (.here :: rest) = resolveFrom fs links last loc rest := by
  obtain ⟨entries, found⟩ := kind?_eq_dir_iff.mp isDir
  simp only [resolveFrom_eq_descend, descend, found]

theorem resolveFrom_up (isDir : fs.kind? loc = some .dir) :
    resolveFrom fs links last loc (.up :: rest) = resolveFrom fs links last loc.dropLast rest := by
  obtain ⟨entries, found⟩ := kind?_eq_dir_iff.mp isDir
  simp only [resolveFrom_eq_descend, descend, found]

theorem resolveFrom_name {name : Name} (isDir : fs.kind? loc = some .dir)
    (short : name.length ≤ maxName) :
    resolveFrom fs links last loc (.name name :: rest) =
      match fs.kind? (loc ++ [name]) with
      | none => if rest.isEmpty then .ok (.vacant loc name) else .error .noEntry
      | some (.link target) =>
        if rest.isEmpty && last == .kept then .ok (.occupied (loc ++ [name]))
        else followLink fs last links loc target rest
      | some _ => resolveFrom fs links last (loc ++ [name]) rest := by
  obtain ⟨entries, found⟩ := kind?_eq_dir_iff.mp isDir
  rw [resolveFrom_eq_descend, descend, found, kind?, get?_concat found]
  simp only [if_neg (Nat.not_lt.mpr short)]
  cases Entries.find? entries name with
  | none => rfl
  | some node =>
    cases node with
    | file | dir => rfl
    | link target => cases last <;> rfl

/-- Where a link leads, unless it stands for a file to write and its target ends in a slash. -/
theorem followLink_eq_ok_iff {target : Path} {spot : Spot} :
    followLink fs last links loc target rest = .ok spot ↔
      ∃ fewer, links = fewer + 1 ∧ (last = .written → rest = [] → target.endsInSlash = false) ∧
        resolveFrom fs fewer last (startFrom target loc) (lookupSegments target ++ rest) =
          .ok spot := by
  cases links with
  | zero => simp [followLink]
  | succ fewer =>
    rw [followLink]
    split
    · next refused =>
      simp only [Bool.and_eq_true, decide_eq_true_eq, List.isEmpty_iff] at refused
      constructor
      · intro found
        exact absurd found (refuseSlash_ne_ok _ _)
      · rintro ⟨_, _, passes, _⟩
        exact absurd refused.2 (by simp [passes refused.1.1 refused.1.2])
    · next passes =>
      simp only [Bool.and_eq_true, decide_eq_true_eq, List.isEmpty_iff, not_and] at passes
      constructor
      · intro found
        refine ⟨fewer, rfl, fun written ends => ?_, found⟩
        exact Bool.eq_false_iff.mpr (passes ⟨written, ends⟩)
      · rintro ⟨_, same, _, found⟩
        cases same
        exact found

end Unfolding

/-- The segments lead from a location to a spot. -/
inductive Follows (fs : FileSystem) (last : LastLink) : Nat → Loc → List Segment → Spot → Prop
  | done {links : Nat} (loc : Loc) : Follows fs last links loc [] (.occupied loc)
  | here {links : Nat} {loc : Loc} {rest : List Segment} {spot : Spot}
      (isDir : fs.kind? loc = some .dir) (tail : Follows fs last links loc rest spot) :
      Follows fs last links loc (.here :: rest) spot
  | up {links : Nat} {loc : Loc} {rest : List Segment} {spot : Spot}
      (isDir : fs.kind? loc = some .dir) (tail : Follows fs last links loc.dropLast rest spot) :
      Follows fs last links loc (.up :: rest) spot
  | vacant {links : Nat} {loc : Loc} {name : Name} (isDir : fs.kind? loc = some .dir)
      (short : name.length ≤ maxName) (missing : fs.kind? (loc ++ [name]) = none) :
      Follows fs last links loc [.name name] (.vacant loc name)
  | name {links : Nat} {loc : Loc} {name : Name} {rest : List Segment} {spot : Spot} {entry : Entry}
      (isDir : fs.kind? loc = some .dir) (short : name.length ≤ maxName)
      (found : fs.kind? (loc ++ [name]) = some entry) (noLink : ∀ target, entry ≠ .link target)
      (tail : Follows fs last links (loc ++ [name]) rest spot) :
      Follows fs last links loc (.name name :: rest) spot
  | kept {links : Nat} {loc : Loc} {name : Name} {target : Path} (isDir : fs.kind? loc = some .dir)
      (short : name.length ≤ maxName) (found : fs.kind? (loc ++ [name]) = some (.link target))
      (keeps : last = .kept) : Follows fs last links loc [.name name] (.occupied (loc ++ [name]))
  | link {links : Nat} {loc : Loc} {name : Name} {target : Path} {rest : List Segment} {spot : Spot}
      (isDir : fs.kind? loc = some .dir) (short : name.length ≤ maxName)
      (found : fs.kind? (loc ++ [name]) = some (.link target))
      (goesOn : last = .kept → rest ≠ [])
      (written : last = .written → rest = [] → target.endsInSlash = false)
      (tail : Follows fs last links (startFrom target loc) (lookupSegments target ++ rest) spot) :
      Follows fs last (links + 1) loc (.name name :: rest) spot

theorem Follows.resolveFrom_eq {fs : FileSystem} {last : LastLink} {links : Nat} {loc : Loc}
    {segments : List Segment} {spot : Spot} (follows : Follows fs last links loc segments spot) :
    resolveFrom fs links last loc segments = .ok spot := by
  induction follows with
  | done => exact resolveFrom_nil
  | here isDir _ ih => rw [resolveFrom_here isDir, ih]
  | up isDir _ ih => rw [resolveFrom_up isDir, ih]
  | vacant isDir short missing =>
    rw [resolveFrom_name isDir short, missing]
    rfl
  | @name _ _ _ _ _ entry isDir short found noLink _ ih =>
    rw [resolveFrom_name isDir short, found]
    cases entry with
    | link target => exact absurd rfl (noLink target)
    | dir | file => exact ih
  | kept isDir short found keeps =>
    rw [resolveFrom_name isDir short, found, keeps]
    rfl
  | @link _ _ _ _ rest _ isDir short found goesOn written _ ih =>
    have passes : ¬ (rest.isEmpty && last == .kept) = true := by
      simp only [Bool.and_eq_true, List.isEmpty_iff, beq_iff_eq, not_and]
      exact fun ends keeps => goesOn keeps ends
    rw [resolveFrom_name isDir short, found]
    simp only [if_neg passes]
    exact followLink_eq_ok_iff.mpr ⟨_, rfl, written, ih⟩

theorem follows_of_resolveFrom {fs : FileSystem} {last : LastLink} {links : Nat} {loc : Loc}
    {segments : List Segment} {spot : Spot}
    (found : resolveFrom fs links last loc segments = .ok spot) :
    Follows fs last links loc segments spot := by
  match segments with
  | [] =>
    rw [resolveFrom_nil] at found
    cases found
    exact .done loc
  | segment :: rest =>
    match kind : fs.kind? loc with
    | none =>
      rw [resolveFrom_of_missing kind] at found
      cases found
    | some (.file _ _) =>
      rw [resolveFrom_of_not_dir kind Entry.noConfusion] at found
      cases found
    | some (.link _) =>
      rw [resolveFrom_of_not_dir kind Entry.noConfusion] at found
      cases found
    | some .dir =>
      cases segment with
      | here =>
        rw [resolveFrom_here kind] at found
        exact .here kind (follows_of_resolveFrom found)
      | up =>
        rw [resolveFrom_up kind] at found
        exact .up kind (follows_of_resolveFrom found)
      | name name =>
        by_cases short : name.length ≤ maxName
        · rw [resolveFrom_name kind short] at found
          match object : fs.kind? (loc ++ [name]) with
          | none =>
            rw [object] at found
            cases rest with
            | nil =>
              cases found
              exact .vacant kind short object
            | cons => cases found
          | some (.link target) =>
            rw [object] at found
            by_cases keeps : rest = [] ∧ last = .kept
            · obtain ⟨rfl, rfl⟩ := keeps
              cases found
              exact .kept kind short object rfl
            · have passes : ¬ (rest.isEmpty && last == .kept) = true := by
                simpa only [Bool.and_eq_true, List.isEmpty_iff, beq_iff_eq] using keeps
              simp only [if_neg passes] at found
              obtain ⟨fewer, rfl, written, onward⟩ := followLink_eq_ok_iff.mp found
              exact .link kind short object (fun kept ends => keeps ⟨ends, kept⟩) written
                (follows_of_resolveFrom onward)
          | some .dir =>
            rw [object] at found
            exact .name kind short object (fun _ => Entry.noConfusion)
              (follows_of_resolveFrom found)
          | some (.file _ _) =>
            rw [object] at found
            exact .name kind short object (fun _ => Entry.noConfusion)
              (follows_of_resolveFrom found)
        · rw [resolveFrom_of_long kind (Nat.not_le.mp short)] at found
          cases found
termination_by (links, segments.length)

/-- The relation is what the function computes. -/
theorem resolveFrom_eq_ok_iff {fs : FileSystem} {last : LastLink} {links : Nat} {loc : Loc}
    {segments : List Segment} {spot : Spot} :
    resolveFrom fs links last loc segments = .ok spot ↔
      Follows fs last links loc segments spot :=
  ⟨follows_of_resolveFrom, Follows.resolveFrom_eq⟩

theorem resolveSegments_eq_ok_iff {fs : FileSystem} {p : Path} {last : LastLink}
    {segments : List Segment} {spot : Spot} :
    fs.resolveSegments p last segments = .ok spot ↔
      checkPath p = .ok () ∧ Follows fs last maxLinks (startFrom p fs.cwd) segments spot := by
  rw [← resolveFrom_eq_ok_iff, resolveSegments, bind_eq_ok_iff]
  simp only [mapError_eq_ok_iff]
  exact ⟨fun ⟨_, valid, found⟩ => ⟨valid, found⟩, fun ⟨valid, found⟩ => ⟨(), valid, found⟩⟩

/-- In a file system with less in it, a path to an object that is still there either leads to it or
breaks off. -/
theorem Follows.of_fewer {fs fewer : FileSystem} {links : Nat} {loc place : Loc}
    {segments : List Segment}
    (follows : Follows fs .kept links loc segments (.occupied place))
    (lost : ∀ loc, fewer.kind? loc = fs.kind? loc ∨ fewer.kind? loc = none)
    (stays : fewer.kind? place ≠ none) :
    resolveFrom fewer links .kept loc segments = .ok (.occupied place) ∨
      resolveFrom fewer links .kept loc segments = .error .noEntry := by
  generalize reached : Spot.occupied place = spot at follows
  induction follows with
  | done =>
    cases reached
    exact .inl resolveFrom_nil
  | @here _ loc _ _ isDir _ ih =>
    obtain same | missing := lost loc
    · rw [resolveFrom_here (same.trans isDir)]
      exact ih reached
    · exact .inr (resolveFrom_of_missing missing)
  | @up _ loc _ _ isDir _ ih =>
    obtain same | missing := lost loc
    · rw [resolveFrom_up (same.trans isDir)]
      exact ih reached
    · exact .inr (resolveFrom_of_missing missing)
  | vacant => cases reached
  | @name _ loc name rest _ entry isDir short found noLink tail ih =>
    obtain same | missing := lost loc
    · rw [resolveFrom_name (same.trans isDir) short]
      obtain same' | missing := lost (loc ++ [name])
      · rw [same', found]
        cases entry with
        | link target => exact absurd rfl (noLink target)
        | dir | file => exact ih reached
      · rw [missing]
        cases rest with
        | nil =>
          cases tail
          cases reached
          exact absurd missing stays
        | cons => exact .inr rfl
    · exact .inr (resolveFrom_of_missing missing)
  | @kept _ loc name _ isDir short found =>
    cases reached
    obtain same | missing := lost loc
    · rw [resolveFrom_name (same.trans isDir) short]
      obtain same' | missing := lost (loc ++ [name])
      · rw [same', found]
        exact .inl rfl
      · exact absurd missing stays
    · exact .inr (resolveFrom_of_missing missing)
  | @link _ loc name target rest _ isDir short found goesOn written _ ih =>
    obtain same | missing := lost loc
    · rw [resolveFrom_name (same.trans isDir) short]
      cases rest with
      | nil => exact absurd rfl (goesOn rfl)
      | cons segment rest =>
        obtain same' | missing := lost (loc ++ [name])
        · rw [same', found]
          exact ih reached
        · rw [missing]
          exact .inr rfl
    · exact .inr (resolveFrom_of_missing missing)

/-- A path leads to an object wherever the directories and links on its way are, and the object. -/
theorem Follows.mono {fs other : FileSystem} {links : Nat} {loc place : Loc}
    {segments : List Segment}
    (follows : Follows fs .followed links loc segments (.occupied place))
    (sameDirs : ∀ loc, fs.kind? loc = some .dir → other.kind? loc = some .dir)
    (sameLinks : ∀ loc target,
      fs.kind? loc = some (.link target) → other.kind? loc = some (.link target))
    (same : other.kind? place = fs.kind? place) :
    Follows other .followed links loc segments (.occupied place) := by
  generalize reached : Spot.occupied place = spot at follows
  induction follows with
  | done =>
    cases reached
    exact .done _
  | here isDir _ ih => exact .here (sameDirs _ isDir) (ih reached)
  | up isDir _ ih => exact .up (sameDirs _ isDir) (ih reached)
  | vacant => cases reached
  | @name _ loc name _ _ entry isDir short found noLink tail ih =>
    refine .name (sameDirs _ isDir) short ?_ noLink (ih reached)
    cases entry with
    | dir => exact sameDirs _ found
    | link target => exact absurd rfl (noLink target)
    | file =>
      -- Nothing is below a file, so the way ends here.
      cases tail with
      | done =>
        cases reached
        exact same.trans found
      | here isDir | up isDir | vacant isDir | name isDir | kept isDir | link isDir =>
        rw [found] at isDir
        cases isDir
  | kept _ _ _ keeps => cases keeps
  | link isDir short found _ _ _ ih =>
    exact .link (sameDirs _ isDir) short (sameLinks _ _ found) nofun nofun (ih reached)

end KernelSpec.FileSystem
