import KernelSpec.Proofs.FileSystem.Walk

/-! # The tree with links followed

A walk that follows links sees a tree that may be larger than what is on the disk: a name stands for
the object of that name, or for what the link of that name leads to (`Child`), and names lead from a
directory down this tree (`Reaches`). The tree is without end exactly when some directory is below
itself in it, and then a link leads back to a directory that it is below (`NoLoop.acyclic`). When no
link leads nowhere, all that is in the tree is on the disk, so what is made at a free place outside
the tree is on no way down it (`NoDangling.outside`).
-/

namespace KernelSpec.FileSystem

open KernelSpec.Path

/-- What a name in a directory stands for when links are followed. -/
inductive Child (fs : FileSystem) (dir : Loc) (name : Name) : Loc → Prop
  | plain {entry : Entry} (found : fs.kind? (dir ++ [name]) = some entry)
      (noLink : ∀ target, entry ≠ .link target) : Child fs dir name (dir ++ [name])
  | link {target : Path} {links : Nat} {place : Loc}
      (found : fs.kind? (dir ++ [name]) = some (.link target))
      (leads : Follows fs .followed links (startFrom target dir) (lookupSegments target)
        (.occupied place)) : Child fs dir name place

/-- The names lead from an object down to another one when links are followed. -/
inductive Reaches (fs : FileSystem) : Loc → List Name → Loc → Prop
  | nil (loc : Loc) : Reaches fs loc [] loc
  | cons {dir mid place : Loc} {name : Name} {names : List Name} (child : Child fs dir name mid)
      (tail : Reaches fs mid names place) : Reaches fs dir (name :: names) place

/-- Every link below the root leads to an object. -/
def NoDangling (fs : FileSystem) (root : Loc) : Prop :=
  ∀ names dir name target, Reaches fs root names dir →
    fs.kind? (dir ++ [name]) = some (.link target) → ∃ place, Child fs dir name place

/-- No link below the root leads to a directory that the way to the link comes through. -/
def NoLoop (fs : FileSystem) (root : Loc) : Prop :=
  ∀ names dir name target place, Reaches fs root names dir →
    fs.kind? (dir ++ [name]) = some (.link target) → Child fs dir name place →
    fs.kind? place = some .dir → ∀ part, part <+: names → ¬ Reaches fs root part place

section Child

variable {fs other : FileSystem} {dir place : Loc} {name : Name}

theorem kind?_ne_none {loc : Loc} {entry : Entry} (found : fs.kind? loc = some entry) :
    fs.kind? loc ≠ none := by
  rw [found]
  exact Option.some_ne_none _

theorem kind?_of_concat {entry : Entry} (found : fs.kind? (dir ++ [name]) = some entry) :
    fs.kind? dir = some .dir := by
  obtain ⟨_, found, _⟩ := Option.map_eq_some_iff.mp found
  exact kind?_eq_dir_iff.mpr (isDir_of_get?_concat found)

/-- Only the names of a directory stand for something. -/
theorem Child.named (child : Child fs dir name place) : fs.kind? (dir ++ [name]) ≠ none := by
  cases child with
  | plain found | link found => exact kind?_ne_none found

theorem Child.isDir (child : Child fs dir name place) : fs.kind? dir = some .dir := by
  cases child with
  | plain found | link found => exact kind?_of_concat found

theorem Child.unique {place' : Loc} (child : Child fs dir name place)
    (child' : Child fs dir name place') : place = place' := by
  cases child with
  | plain found noLink =>
    cases child' with
    | plain => rfl
    | link found' => exact absurd (Option.some.inj (found.symm.trans found')) (noLink _)
  | link found leads =>
    cases child' with
    | plain found' noLink => exact absurd (Option.some.inj (found'.symm.trans found)) (noLink _)
    | link found' leads' =>
      cases found.symm.trans found'
      exact Spot.occupied.inj (leads.unique leads')

/-- What a name stands for is there, and it is no link. -/
theorem Child.there (child : Child fs dir name place) :
    ∃ entry, fs.kind? place = some entry ∧ ∀ target, entry ≠ .link target := by
  have isDir := child.isDir
  cases child with
  | plain found noLink => exact ⟨_, found, noLink⟩
  | link found leads => exact leads.there (kind?_startFrom isDir _)

theorem Child.extend (larger : Extends fs other) (child : Child fs dir name place) :
    Child other dir name place := by
  cases child with
  | plain found noLink => exact .plain (larger.kept _ _ found) noLink
  | link found leads => exact .link (larger.kept _ _ found) (leads.extend larger)

theorem child_of_follows {links : Nat}
    (follows : Follows fs .followed links dir [.name name] (.occupied place)) :
    Child fs dir name place := by
  cases follows with
  | name _ _ found noLink tail =>
    cases tail
    exact .plain found noLink
  | kept _ _ _ keeps => cases keeps
  | link _ _ found _ _ tail =>
    rw [List.append_nil] at tail
    exact .link found tail

/-- The way through a name stays among directories until it comes to what the name stands for. -/
theorem Child.way {stays : Loc → Prop} (dirs : ∀ loc, fs.kind? loc = some .dir → stays loc)
    (child : Child fs dir name place) {more : List Segment}
    (beyond : ∀ stop rest, Passes fs (place, more) (stop, rest) → stays stop) {stop : Loc}
    {rest : List Segment} (passes : Passes fs (dir, .name name :: more) (stop, rest)) :
    stays stop := by
  obtain same | ⟨_, step, onward⟩ := passes.cases_head
  · cases same
    exact dirs _ child.isDir
  · cases child with
    | plain found noLink =>
      cases step with
      | name => exact beyond stop rest onward
      | link found' => exact absurd (Option.some.inj (found.symm.trans found')) (noLink _)
    | link found leads =>
      cases step with
      | name noLink => exact absurd found (noLink _)
      | link found' =>
        cases found.symm.trans found'
        exact leads.way_append dirs beyond onward

end Child

section Reaches

variable {fs other : FileSystem} {root mid place : Loc} {names more : List Name}

theorem Reaches.append (first : Reaches fs root names mid) (second : Reaches fs mid more place) :
    Reaches fs root (names ++ more) place := by
  induction first with
  | nil => exact second
  | cons child _ ih => exact .cons child (ih second)

theorem Reaches.concat {name : Name} (reaches : Reaches fs root names mid)
    (child : Child fs mid name place) : Reaches fs root (names ++ [name]) place :=
  reaches.append (.cons child (.nil place))

theorem Reaches.unique {place' : Loc} (reaches : Reaches fs root names place)
    (reaches' : Reaches fs root names place') : place = place' := by
  induction reaches with
  | nil =>
    cases reaches'
    rfl
  | cons child _ ih =>
    cases reaches' with
    | cons child' tail' =>
      cases child.unique child'
      exact ih tail'

theorem Reaches.split (reaches : Reaches fs root (names ++ more) place) :
    ∃ mid, Reaches fs root names mid ∧ Reaches fs mid more place := by
  induction names generalizing root with
  | nil => exact ⟨root, .nil root, reaches⟩
  | cons name names ih =>
    cases reaches with
    | cons child tail =>
      obtain ⟨mid, first, second⟩ := ih tail
      exact ⟨mid, .cons child first, second⟩

theorem Reaches.extend (larger : Extends fs other) (reaches : Reaches fs root names place) :
    Reaches other root names place := by
  induction reaches with
  | nil => exact .nil _
  | cons child _ ih => exact .cons (child.extend larger) ih

/-- From a directory, names lead to what is there and is no link. -/
theorem Reaches.there (reaches : Reaches fs root names place) (isDir : fs.kind? root = some .dir) :
    ∃ entry, fs.kind? place = some entry ∧ ∀ target, entry ≠ .link target := by
  induction names using List.reverseRecOn generalizing place with
  | nil =>
    cases reaches
    exact ⟨_, isDir, fun _ => Entry.noConfusion⟩
  | append_singleton =>
    obtain ⟨_, _, last⟩ := reaches.split
    cases last with
    | cons child tail =>
      cases tail
      exact child.there

theorem Reaches.areNames (named : fs.WellNamed) (reaches : Reaches fs root names place) :
    ∀ name ∈ names, IsName name := by
  induction reaches with
  | nil => simp
  | cons child _ ih =>
    exact List.forall_mem_cons.mpr ⟨named _ child.named _ (by simp), ih⟩

/-- The way of the names stays among directories until it comes to what they lead to. -/
theorem Reaches.way {stays : Loc → Prop} (dirs : ∀ loc, fs.kind? loc = some .dir → stays loc)
    (reaches : Reaches fs root names place) (ends : stays place) :
    ∀ stop rest, Passes fs (root, names.map .name) (stop, rest) → stays stop := by
  induction reaches with
  | nil =>
    intro stop rest passes
    obtain same | ⟨_, step, _⟩ := passes.cases_head
    · cases same
      exact ends
    · cases step
  | cons child _ ih =>
    intro stop rest passes
    exact child.way dirs (ih ends) passes

theorem reaches_of_follows {links : Nat}
    (follows : Follows fs .followed links root (names.map .name) (.occupied place)) :
    Reaches fs root names place := by
  induction names generalizing root links with
  | nil =>
    cases follows
    exact .nil _
  | cons name names ih =>
    obtain rfl | nonempty := eq_or_ne names []
    · exact .cons (child_of_follows follows) (.nil place)
    · have follows : Follows fs .followed links root ([.name name] ++ names.map .name)
          (.occupied place) := follows
      obtain ⟨_, _, _, first, second⟩ := follows.split (by simpa using nonempty)
      exact .cons (child_of_follows first) (ih second)

theorem Finds.reaches {source : Path} (located : fs.locate source = .ok root)
    (finds : Finds fs source names place) : Reaches fs root names place := by
  obtain ⟨_, follows⟩ := follows_below finds.areNames located finds.located
  exact reaches_of_follows follows

/-- Names lead straight down, or somewhere among them is that of a link. -/
theorem Reaches.straight (reaches : Reaches fs root names place) :
    place = root ++ names ∨ ∃ front name back dir target inner, names = front ++ name :: back ∧
      Reaches fs root front dir ∧ fs.kind? (dir ++ [name]) = some (.link target) ∧
      Child fs dir name inner ∧ Reaches fs inner back place := by
  induction reaches with
  | nil loc => exact .inl (List.append_nil loc).symm
  | @cons dir _ _ name names child tail ih =>
    cases child with
    | link found leads =>
      exact .inr ⟨[], name, names, dir, _, _, rfl, .nil dir, found, .link found leads, tail⟩
    | plain found noLink =>
      obtain rfl | ⟨front, inner, back, _, _, _, rfl, first, rest⟩ := ih
      · exact .inl (List.append_cons dir name names).symm
      · exact .inr ⟨name :: front, inner, back, _, _, _, rfl, .cons (.plain found noLink) first, rest⟩

/-- No directory is below itself. -/
theorem NoLoop.acyclic (noLoop : NoLoop fs root) (reaches : Reaches fs root names place)
    (isDir : fs.kind? place = some .dir) (longer : more ≠ []) : ¬ Reaches fs place more place := by
  intro cycle
  obtain straight | ⟨front, name, back, dir, target, inner, rfl, first, linked, child, rest⟩ :=
    cycle.straight
  · exact longer (List.self_eq_append_right.mp straight)
  · have innerDir : fs.kind? inner = some .dir := by
      cases rest with
      | nil => exact isDir
      | cons child => exact child.isDir
    -- On the second way round, the link leads to a directory that the first one came through.
    refine noLoop (names ++ (front ++ name :: back) ++ front) dir name target inner
      ((reaches.append cycle).append first) linked child innerDir (names ++ (front ++ [name])) ?_
      (reaches.append (first.concat child))
    exact ⟨back ++ front, by simp⟩

/-- Where no link leads nowhere, every name in a directory of the tree stands for something. -/
theorem NoDangling.child (noDangling : NoDangling fs root) (reaches : Reaches fs root names place)
    {name : Name} (there : fs.kind? (place ++ [name]) ≠ none) :
    ∃ inner, Child fs place name inner := by
  obtain ⟨entry, found⟩ := Option.ne_none_iff_exists'.mp there
  by_cases linked : ∃ target, entry = .link target
  · obtain ⟨target, rfl⟩ := linked
    exact noDangling names place name target reaches found
  · exact ⟨_, .plain found (not_exists.mp linked)⟩

/-- A place that is free in a directory outside the tree is on no way down the tree. -/
theorem NoDangling.outside (noDangling : NoDangling fs root) (isRoot : fs.kind? root = some .dir)
    {above : Loc} {name : Name} (isDir : fs.kind? above = some .dir)
    (missing : fs.kind? (above ++ [name]) = none) (apart : ∀ names, ¬ Reaches fs root names above) :
    Outside fs (above ++ [name]) root := by
  have dirs : ∀ loc, fs.kind? loc = some .dir → ¬ above ++ [name] <+: loc :=
    fun _ => not_prefix_of_missing missing
  suffices ways : ∀ (names front : List Name) (loc : Loc), Reaches fs root front loc → ∀ stop rest,
      Passes fs (loc, names.map .name) (stop, rest) → ¬ above ++ [name] <+: stop from
    fun names stop rest passes => ways names [] root (.nil root) stop rest passes
  intro names
  induction names with
  | nil =>
    intro front loc reaches stop rest passes
    obtain ⟨_, there, _⟩ := reaches.there isRoot
    obtain same | ⟨_, step, _⟩ := passes.cases_head
    · cases same
      exact not_prefix_of_missing missing there
    · cases step
  | cons inner names ih =>
    intro front loc reaches stop rest passes
    by_cases found : ∃ place, Child fs loc inner place
    · obtain ⟨place, child⟩ := found
      exact child.way dirs (ih _ place (reaches.concat child)) passes
    · -- Nothing has this name, and the way goes on from there without `..`.
      have absent : fs.kind? (loc ++ [inner]) = none := by
        by_contra there
        exact found (noDangling.child reaches there)
      obtain ⟨_, there, _⟩ := reaches.there isRoot
      obtain same | ⟨_, step, onward⟩ := passes.cases_head
      · cases same
        exact not_prefix_of_missing missing there
      · cases step with
        | link linked =>
          rw [absent] at linked
          cases linked
        | name =>
          have down := Passes.down onward absent List.prefix_rfl (by simp)
          intro below
          -- Of two free places above one stop, each in an existing object, none is above the other.
          have same : above ++ [name] = loc ++ [inner] := by
            obtain first | second := List.prefix_or_prefix_of_prefix below down
            · obtain first | first := List.prefix_concat_iff.mp first
              · exact first
              · exact absurd first (not_prefix_of_missing missing there)
            · obtain second | second := List.prefix_concat_iff.mp second
              · exact second.symm
              · exact absurd second (not_prefix_of_missing absent isDir)
          obtain ⟨rfl, _⟩ := List.append_inj' same rfl
          exact apart front reaches

end Reaches

/-! ## Trees that can be checked -/

/-- What the object at a location stands for when links are followed, as far as that takes no more
links than a path may have. -/
def standsFor? (fs : FileSystem) (loc : Loc) : Option Loc :=
  match fs.kind? loc with
  | some (.link target) =>
    match resolveFrom fs maxLinks .followed (startFrom target loc.dropLast)
      (lookupSegments target) with
    | .ok (.occupied place) => some place
    | _ => none
  | some _ => some loc
  | none => none

section Check

variable {fs : FileSystem} {root dir : Loc} {name : Name}

theorem child_of_standsFor? {place : Loc} (stands : fs.standsFor? (dir ++ [name]) = some place) :
    Child fs dir name place := by
  unfold standsFor? at stands
  rw [List.dropLast_concat] at stands
  cases found : fs.kind? (dir ++ [name]) with
  | none =>
    rw [found] at stands
    cases stands
  | some entry =>
    rw [found] at stands
    cases entry with
    | dir | file =>
      cases stands
      exact .plain found fun _ => Entry.noConfusion
    | link target =>
      simp only at stands
      split at stands
      · next led =>
        cases stands
        exact .link found (resolveFrom_eq_ok_iff.mp led)
      · cases stands

/-- A tree whose directories stand in an order that every step down follows has no link that leads
nowhere or back. -/
theorem noLoop_of_order (order : List Loc) (first : root ∈ order)
    (listed : ∀ object ∈ fs.objects, object.1.dropLast ∈ order →
      ∃ place ∈ fs.standsFor? object.1, place ∈ order ∧
        order.idxOf object.1.dropLast < order.idxOf place) :
    NoDangling fs root ∧ NoLoop fs root := by
  have step : ∀ {dir name entry}, dir ∈ order → fs.kind? (dir ++ [name]) = some entry →
      ∃ place, Child fs dir name place ∧ place ∈ order ∧ order.idxOf dir < order.idxOf place := by
    intro dir name entry mem found
    have object := listed _ (mem_objects found (by simp))
    simp only [List.dropLast_concat] at object
    obtain ⟨place, stands, later⟩ := object mem
    exact ⟨place, child_of_standsFor? stands, later⟩
  have down : ∀ {names start place}, Reaches fs start names place → start ∈ order →
      place ∈ order ∧ order.idxOf start ≤ order.idxOf place := by
    intro names start place reaches
    induction reaches with
    | nil loc => exact fun mem => ⟨mem, le_rfl⟩
    | cons child _ ih =>
      intro mem
      obtain ⟨entry, found⟩ := Option.ne_none_iff_exists'.mp child.named
      obtain ⟨inner, child', mem, less⟩ := step mem found
      obtain rfl := child'.unique child
      obtain ⟨last, le⟩ := ih mem
      exact ⟨last, less.le.trans le⟩
  constructor
  · intro names dir name target reaches linked
    obtain ⟨place, child, _⟩ := step (down reaches first).1 linked
    exact ⟨place, child⟩
  · rintro names dir name target place reaches linked child _ part ⟨more, rfl⟩ again
    obtain ⟨mid, above, onward⟩ := reaches.split
    obtain rfl := above.unique again
    obtain ⟨inner, child', _, less⟩ := step (down reaches first).1 linked
    obtain rfl := child'.unique child
    have le := (down onward (down above first).1).2
    omega

end Check

end KernelSpec.FileSystem
