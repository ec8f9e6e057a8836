import KernelSpec.Proofs.FileSystem.Lookup

/-! # The absolute path of an object

An object that a path leads to has an absolute path, but the path has to be found by asking about
every name on the way. `FitsAlong` says that none of the paths asked about is too long. It decides
whether the absolute path is found (`canonicalize_of_locate`), and of the file system only the links
have a part in it (`FitsAlong.congr`).
-/

namespace KernelSpec.FileSystem

variable {fs : FileSystem} {links : Nat} {loc : Loc} {name : Name} {rest : List Segment}

/-- The path by which each name on the way is asked about keeps the limit. -/
def FitsAlong (fs : FileSystem) (loc : Loc) (segments : List Segment) : Prop :=
  ∀ stop name rest, Passes fs (loc, segments) (stop, .name name :: rest) →
    (fs.askedPath (stop ++ [name]) rest).bytes.length ≤ maxPath

theorem askedPath_of_not_link {place : Loc}
    (noLink : ∀ target, fs.kind? place ≠ some (.link target)) :
    fs.askedPath place rest =
      if needDir rest then (pathOf place).join ⟨[]⟩ else pathOf place := by
  rw [askedPath]
  split
  · next target found => exact absurd found (noLink target)
  · rfl

theorem SameLinks.askedPath {other : FileSystem} (same : SameLinks fs other) (place : Loc) :
    fs.askedPath place rest = other.askedPath place rest := by
  by_cases linked : ∃ target, fs.kind? place = some (.link target)
  · obtain ⟨target, found⟩ := linked
    rw [FileSystem.askedPath, FileSystem.askedPath, found, (same place target).mp found]
  · rw [not_exists] at linked
    rw [askedPath_of_not_link linked,
      askedPath_of_not_link fun target => (same place target).not.mp (linked target)]

theorem FitsAlong.congr {other : FileSystem} (same : SameLinks fs other) {segments : List Segment}
    (fits : FitsAlong fs loc segments) : FitsAlong other loc segments := by
  intro stop name rest passes
  rw [← same.askedPath]
  exact fits stop name rest (passes.congr same.symm)

theorem fitsAlong_nil : FitsAlong fs loc [] := by
  intro stop name rest passes
  obtain same | ⟨_, step, _⟩ := passes.cases_head
  · cases same
  · cases step

/-- Of a step, the name that is followed is asked about, and then the names after it. -/
theorem Step.fitsAlong_iff {segments segments' : List Segment} {loc' : Loc}
    (step : Step fs (loc, segments) (loc', segments')) :
    FitsAlong fs loc segments ↔
      (∀ name rest, segments = .name name :: rest →
        (fs.askedPath (loc ++ [name]) rest).bytes.length ≤ maxPath) ∧
      FitsAlong fs loc' segments' := by
  constructor
  · intro fits
    refine ⟨fun name rest same => ?_, fun stop name rest passes => ?_⟩
    · exact fits loc name rest (same ▸ .refl)
    · exact fits stop name rest (.head step passes)
  · rintro ⟨first, later⟩ stop name rest passes
    obtain same | ⟨next, other, onward⟩ := passes.cases_head
    · cases same
      exact first name rest rfl
    · cases Step.unique step other
      exact later stop name rest onward

/-! ## One name after another -/

theorem fitsFrom_nil : fs.fitsFrom links loc [] = true := by
  cases links <;> rfl

theorem fitsFrom_here : fs.fitsFrom links loc (.here :: rest) = fs.fitsFrom links loc rest := by
  cases links <;> rfl

theorem fitsFrom_up :
    fs.fitsFrom links loc (.up :: rest) = fs.fitsFrom links loc.dropLast rest := by
  cases links <;> rfl

theorem fitsFrom_name (noLink : ∀ target, fs.kind? (loc ++ [name]) ≠ some (.link target)) :
    fs.fitsFrom links loc (.name name :: rest) =
      (decide ((fs.askedPath (loc ++ [name]) rest).bytes.length ≤ maxPath) &&
        fs.fitsFrom links (loc ++ [name]) rest) := by
  cases links <;>
  · rw [fitsFrom, fitsDown]
    split
    · next target found => exact absurd found (noLink target)
    · rfl

theorem fitsFrom_link {target : Path} (found : fs.kind? (loc ++ [name]) = some (.link target)) :
    fs.fitsFrom (links + 1) loc (.name name :: rest) =
      (decide ((fs.askedPath (loc ++ [name]) rest).bytes.length ≤ maxPath) &&
        fs.fitsFrom links (startFrom target loc) (lookupSegments target ++ rest)) := by
  rw [fitsFrom, fitsDown, found]

/-- For a way that leads somewhere, looking at the paths on it takes enough links. -/
theorem Follows.fitsFrom_iff {segments : List Segment} {spot : Spot}
    (follows : Follows fs .followed links loc segments spot) :
    fs.fitsFrom links loc segments = true ↔ FitsAlong fs loc segments := by
  induction follows with
  | done => exact iff_of_true fitsFrom_nil fitsAlong_nil
  | here _ _ ih =>
    rw [fitsFrom_here, ih, (Step.here _ _).fitsAlong_iff]
    simp
  | up _ _ ih =>
    rw [fitsFrom_up, ih, (Step.up _ _).fitsAlong_iff]
    simp
  | @vacant _ loc name _ _ missing =>
    have noLink : ∀ target, fs.kind? (loc ++ [name]) ≠ some (.link target) := by simp [missing]
    rw [fitsFrom_name noLink, (Step.name noLink).fitsAlong_iff]
    simp [fitsFrom_nil, fitsAlong_nil]
  | @name _ loc name _ _ entry _ _ found plain _ ih =>
    have noLink : ∀ target, fs.kind? (loc ++ [name]) ≠ some (.link target) := by
      simpa [found] using plain
    rw [fitsFrom_name noLink, (Step.name noLink).fitsAlong_iff]
    simp [ih]
  | kept _ _ _ keeps => cases keeps
  | link _ _ found _ _ _ ih =>
    rw [fitsFrom_link found, (Step.link found).fitsAlong_iff]
    simp [ih]

/-- The absolute path of an object is found unless a path on the way is too long. -/
theorem canonicalize_of_locate {p : Path} (located : fs.locate p = .ok loc) :
    (FitsAlong fs (startFrom p fs.cwd) (lookupSegments p) → fs.canonicalize p = .ok (pathOf loc)) ∧
      (¬ FitsAlong fs (startFrom p fs.cwd) (lookupSegments p) →
        fs.canonicalize p = .error (.os .nameTooLong)) := by
  have answer : fs.canonicalize p =
      if fs.fitsFrom maxLinks (startFrom p fs.cwd) (lookupSegments p) then .ok (pathOf loc)
      else .error (.os .nameTooLong) := by
    rw [canonicalize, located]
    rfl
  rw [answer, ← (locate_eq_ok_iff.mp located).2.fitsFrom_iff]
  exact ⟨fun fits => if_pos fits, fun long => if_neg long⟩

theorem locate_of_canonicalize {p path : Path} (found : fs.canonicalize p = .ok path) :
    ∃ loc, fs.locate p = .ok loc ∧ path = pathOf loc := by
  obtain ⟨loc, located, answer⟩ := bind_eq_ok_iff.mp found
  split at answer
  · cases answer
    exact ⟨loc, located, rfl⟩
  · cases answer

end KernelSpec.FileSystem
