import KernelSpec.Proofs.FileSystem.Confinement

/-! # Copies end

The depth to which a copy may walk makes no difference once it is large enough, so the walk ends by
itself. There are two reasons for it, and either will do. The paths of a walk become longer with each
name, and no path may be longer than `maxPath` (`Safe.run_copyFrom_of_length`). And the walk goes
through a link only to a directory that it is not inside of, of which there are fewer each time, while
without links it comes to the bottom of the tree (`remaining`, `run_copyFrom_of_remaining`). The
second reason does not depend on the limits of the system.
-/

namespace KernelSpec

namespace FileSystem

/-- Where there are objects. -/
def places (fs : FileSystem) : Finset Loc := insert [] (fs.objects.map (·.1)).toFinset

section Places

variable {fs : FileSystem} {loc : Loc}

theorem mem_places (there : fs.kind? loc ≠ none) : loc ∈ fs.places := by
  obtain ⟨entry, found⟩ := Option.ne_none_iff_exists'.mp there
  by_cases root : loc = []
  · exact root ▸ Finset.mem_insert_self _ _
  · apply Finset.mem_insert_of_mem
    rw [List.mem_toFinset]
    exact List.mem_map_of_mem (mem_objects found root)

theorem card_places_le (fs : FileSystem) : fs.places.card ≤ fs.objects.length + 1 := by
  have listed := List.toFinset_card_le (fs.objects.map (·.1))
  rw [List.length_map] at listed
  exact (Finset.card_insert_le _ _).trans (Nat.succ_le_succ listed)

/-- A location has at most as many names as there are objects, since each part of it is one. -/
theorem length_le_objects (there : fs.kind? loc ≠ none) : loc.length ≤ fs.objects.length := by
  have parts : (Finset.range loc.length).image (fun i => loc.take (i + 1)) ⊆
      (fs.objects.map (·.1)).toFinset := by
    intro part mem
    obtain ⟨i, within, rfl⟩ := Finset.mem_image.mp mem
    have within := Finset.mem_range.mp within
    have above : fs.kind? (loc.take (i + 1)) ≠ none :=
      fun missing => there (kind?_of_missing missing (List.take_prefix _ _))
    obtain ⟨entry, found⟩ := Option.ne_none_iff_exists'.mp above
    have notRoot : loc.take (i + 1) ≠ [] := by
      apply List.ne_nil_of_length_pos
      rw [List.length_take]
      omega
    rw [List.mem_toFinset]
    exact List.mem_map_of_mem (mem_objects found notRoot)
  have distinct : Set.InjOn (fun i => loc.take (i + 1)) (Finset.range loc.length : Set Nat) := by
    intro i first j second same
    have first := Finset.mem_range.mp first
    have second := Finset.mem_range.mp second
    have lengths := congrArg List.length same
    simp only [List.length_take] at lengths
    omega
  calc loc.length = ((Finset.range loc.length).image fun i => loc.take (i + 1)).card := by
        rw [Finset.card_image_of_injOn distinct, Finset.card_range]
    _ ≤ ((fs.objects.map (·.1)).toFinset).card := Finset.card_le_card parts
    _ ≤ (fs.objects.map (·.1)).length := List.toFinset_card_le _
    _ = fs.objects.length := List.length_map _

end Places

end FileSystem

namespace Disk

open FileSystem KernelSpec.Path Steps

/-- A bound for how many directories the walk can still go down: it is at `loc`, inside of the
directories of the trail. -/
def remaining (fs : FileSystem) (trail : Trail) (loc : Loc) : Nat :=
  (fs.places \ insert loc (trail.map (·.2)).toFinset).card * (fs.objects.length + 1) +
    (fs.objects.length - loc.length)

section Remaining

variable {fs : FileSystem} {trail : Trail} {loc : Loc}

/-- Without a link the walk comes nearer to the bottom. -/
theorem remaining_plain {name : Name} (there : fs.kind? (loc ++ [name]) ≠ none) (object : Path)
    (trail : Trail) :
    remaining fs ((object, loc) :: trail) (loc ++ [name]) < remaining fs trail loc := by
  have deeper := length_le_objects there
  rw [List.length_append, List.length_singleton] at deeper
  have fewer : (fs.places \ insert (loc ++ [name])
      (((object, loc) :: trail).map (·.2)).toFinset).card ≤
      (fs.places \ insert loc (trail.map (·.2)).toFinset).card := by
    rw [List.map_cons, List.toFinset_cons]
    exact Finset.card_le_card (Finset.sdiff_subset_sdiff (Finset.Subset.refl _)
      (Finset.subset_insert _ _))
  have scaled := Nat.mul_le_mul_right (fs.objects.length + 1) fewer
  unfold remaining
  rw [List.length_append, List.length_singleton]
  omega

/-- Through a link the walk comes to a directory that it is not inside of. -/
theorem remaining_link {object : Path} {inner : Loc} (there : fs.kind? inner ≠ none)
    (fresh : ∀ ancestor ∈ (object, loc) :: trail, ancestor.2 ≠ inner) :
    remaining fs ((object, loc) :: trail) inner < remaining fs trail loc := by
  have notMem : inner ∉ insert loc (trail.map (·.2)).toFinset := by
    rw [← List.toFinset_cons, List.mem_toFinset]
    intro mem
    have mem : inner ∈ ((object, loc) :: trail).map (·.2) := mem
    obtain ⟨ancestor, mem, same⟩ := List.mem_map.mp mem
    exact fresh ancestor mem same
  have fewer : (fs.places \ insert inner (((object, loc) :: trail).map (·.2)).toFinset).card + 1 ≤
      (fs.places \ insert loc (trail.map (·.2)).toFinset).card := by
    rw [List.map_cons, List.toFinset_cons, Finset.sdiff_insert]
    exact Finset.card_erase_lt_of_mem (Finset.mem_sdiff.mpr ⟨mem_places there, notMem⟩)
  have scaled := Nat.mul_le_mul_right (fs.objects.length + 1) fewer
  rw [Nat.add_mul] at scaled
  unfold remaining
  omega

theorem remaining_root {root : Loc} (there : fs.kind? root ≠ none) :
    remaining fs [] root + 1 ≤ (fs.objects.length + 1) ^ 2 := by
  have fewer : (fs.places \ insert root (([] : Trail).map (·.2)).toFinset).card ≤
      fs.objects.length := by
    have all := card_places_le fs
    have one := Finset.card_erase_of_mem (mem_places there)
    rw [List.map_nil, List.toFinset_nil, Finset.sdiff_insert, Finset.sdiff_empty, one]
    omega
  have scaled := Nat.mul_le_mul_right (fs.objects.length + 1) fewer
  have square : (fs.objects.length + 1) ^ 2 =
      fs.objects.length * (fs.objects.length + 1) + fs.objects.length + 1 := by ring
  unfold remaining
  omega

end Remaining

/-! ## The depth of a walk -/

section Depth

variable {P : FileSystem → Prop} {aims : Path → Prop} {trail : Trail} {object target base : Path}
  {loc : Loc} {fs : FileSystem} {fuel : Nat}

/-- A directory is copied in the same way at two depths if each of its objects is. -/
theorem Safe.run_copyFrom_congr (safe : Safe P aims) (aim : aims target)
    (below : AimedBelow aims base) (holds : P fs) {more : Nat}
    (same : ∀ {dir name mid start}, fs.kind? loc = some .dir → fs.locate object = .ok dir →
      P mid → name ∈ namesIn dir mid → P start →
      (copyEntry fuel ((object, loc) :: trail) object base dir name).run start =
        (copyEntry more ((object, loc) :: trail) object base dir name).run start) :
    (copyFrom (fuel + 1) trail object target base loc).run fs =
      (copyFrom (more + 1) trail object target base loc).run fs := by
  rw [run_copyFrom, run_copyFrom]
  split
  · next isDir =>
    rw [run_bind, run_bind, run_ask]
    cases opens : openDir object fs with
    | error => rfl
    | ok dir =>
      have located := mapError_eq_ok_iff.mp opens
      have after := safe.keeps_createDirs aim fs holds
      simp only
      rw [run_bind, run_bind]
      revert after
      rcases (createDirs target).run fs with ⟨error | _, mid⟩ <;> intro after
      · rfl
      · unfold copyEntries
        refine run_forM_congr (fun name mem => ?_) (fun name mem start holds => ?_) after
        · exact safe.keeps_copyEntry below (isName_of_mem_namesIn (safe.named after) mem)
        · exact same (any_isDir_iff.mp isDir) located after mem holds
  · rfl

theorem run_copyEntry_congr {more : Nat} {dir : Loc} {name : Name}
    (same : ∀ {inner}, walkTo trail (object.join ⟨name⟩) (dir ++ [name]) fs = .ok inner →
      (copyFrom fuel trail (object.join ⟨name⟩) (base.join ⟨name⟩) (base.join ⟨name⟩) inner).run fs =
        (copyFrom more trail (object.join ⟨name⟩) (base.join ⟨name⟩) (base.join ⟨name⟩) inner).run
          fs) :
    (copyEntry fuel trail object base dir name).run fs =
      (copyEntry more trail object base dir name).run fs := by
  unfold copyEntry
  rw [run_bind, run_bind, run_ask]
  cases walked : walkTo trail (object.join ⟨name⟩) (dir ++ [name]) fs with
  | error => rfl
  | ok inner => exact same walked

/-- No deeper walk is needed than paths have bytes. -/
theorem Safe.run_copyFrom_of_length (safe : Safe P aims) (aim : aims target)
    (below : AimedBelow aims base) (holds : P fs)
    (fuelled : maxPath < fuel + object.bytes.length) :
    (copyFrom (fuel + 1) trail object target base loc).run fs =
      (copyFrom (fuel + 2) trail object target base loc).run fs := by
  induction fuel generalizing trail object target base loc fs with
  | zero =>
    refine safe.run_copyFrom_congr aim below holds fun _ located _ _ _ => ?_
    obtain ⟨_, _, fits⟩ := checkPath_eq_ok_iff.mp (locate_eq_ok_iff.mp located).1
    omega
  | succ fuel ih =>
    refine safe.run_copyFrom_congr aim below holds fun _ _ before mem start => ?_
    have isName := isName_of_mem_namesIn (safe.named before) mem
    have deeper := below.join isName
    have longer := length_lt_join isName object
    exact run_copyEntry_congr fun _ => ih deeper.aimed deeper start (by omega)

end Depth

section Walk

variable {before : FileSystem} {source place : Path} {gap : Gap} {root : Loc}
  (named : before.WellNamed) (located : before.locate source = .ok root)
  (isRoot : before.kind? root = some .dir) (absent : Absent before place gap)
  (clear : Clear before root gap.place)

include named located isRoot absent clear

/-- No deeper walk is needed than there are places to walk to. -/
theorem run_copyFrom_of_remaining {fuel : Nat} {trail : Trail} {names : List Name} {target : Path}
    {loc : Loc} {fs : FileSystem} (aim : Aims before gap.place target)
    (confined : Confined before fs gap.place) (reaches : Reaches before root names loc)
    (positive : 0 < fuel)
    (enough : before.kind? loc = some .dir → remaining before trail loc + 1 < fuel) :
    (copyFrom fuel trail (source.below names) target (place.below names) loc).run fs =
      (copyFrom (fuel + 1) trail (source.below names) target (place.below names) loc).run fs := by
  induction fuel generalizing trail names target loc fs with
  | zero => omega
  | succ fuel ih =>
    have areNames := reaches.areNames named
    have below := (aimedBelow_of_absent absent).below areNames
    obtain ⟨entry, there, _⟩ := reaches.there isRoot
    refine (safe_confined before gap.place).run_copyFrom_congr aim below confined
      fun {dir name mid start} isDir opens after mem holds => run_copyEntry_congr fun {inner} walked => ?_
    rw [confined.kept _ _ there, ← there] at isDir
    obtain ⟨rfl, opens⟩ := (reaches.locate_iff confined.toExtends named located isRoot).mp opens
    have isName := isName_of_mem_namesIn after.named mem
    obtain ⟨child, fresh⟩ := walkTo_clear clear holds absent.missing_place isRoot reaches isName
      opens walked
    have further := reaches.concat child
    have deeper := (aimedBelow_of_absent absent).below (further.areNames named)
    have enough := enough isDir
    rw [← below_concat, ← below_concat]
    refine ih deeper.aimed holds further (by omega) fun innerDir => ?_
    have less : remaining before ((source.below names, dir) :: trail) inner <
        remaining before trail dir := by
      cases child with
      | plain found => exact remaining_plain (kind?_ne_none found) _ _
      | link found => exact remaining_link (kind?_ne_none innerDir) (fresh _ found innerDir)
    omega

/-- A walk that is deep enough for the paths or for the objects there are makes no difference when it
may be deeper. -/
theorem run_copyWithin_succ {depth : Nat}
    (deep : maxPath + 1 < depth ∨ (before.objects.length + 1) ^ 2 < depth) :
    (copyWithin depth source place).run before = (copyWithin (depth + 1) source place).run before := by
  have asked : (ask (walkStart source)).run before = (.ok root, before) := by
    rw [run_ask, walkStart_of_locate located isRoot]
  have below := aimedBelow_of_absent absent
  have start := Confined.refl named gap.place
  unfold copyWithin
  rw [run_bind_of_ok asked, run_bind_of_ok asked]
  obtain long | many := deep
  · obtain ⟨fuel, rfl⟩ : ∃ fuel, depth = fuel + 1 := ⟨depth - 1, by omega⟩
    exact (safe_confined before gap.place).run_copyFrom_of_length (Along.slash below.aimed) below
      start (by omega)
  · have enough := remaining_root (kind?_ne_none isRoot)
    exact run_copyFrom_of_remaining named located isRoot absent clear (Along.slash below.aimed) start
      (.nil root) (by omega) fun _ => by omega

/-- The walk of a copy ends by itself: any depth that is enough gives the same copy. -/
theorem run_copyWithin {depth : Nat}
    (deep : min (maxPath + 1) ((before.objects.length + 1) ^ 2) < depth) :
    (copyWithin depth source place).run before = (copyTree source place).run before := by
  generalize least : min (maxPath + 1) ((before.objects.length + 1) ^ 2) = bound at deep
  have steady : ∀ depth, bound + 1 ≤ depth →
      (copyWithin depth source place).run before =
        (copyWithin (bound + 1) source place).run before := by
    intro depth deep
    induction depth, deep using Nat.le_induction with
    | base => rfl
    | succ depth deep ih =>
      rw [← ih]
      refine (run_copyWithin_succ named located isRoot absent clear ?_).symm
      rw [← min_lt_iff, least]
      omega
  have whole : bound + 1 ≤ maxPath + 2 := by omega
  exact (steady depth deep).trans (steady (maxPath + 2) whole).symm

end Walk

end Disk

end KernelSpec
