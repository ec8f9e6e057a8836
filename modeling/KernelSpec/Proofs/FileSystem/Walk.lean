import KernelSpec.Proofs.FileSystem.Mirror

/-! # Copies that complete

A tree can be walked when every object in it is found under its names and no directory is inside of
itself, with links followed (`Whole`). A tree without links is one (`Whole.of_plain`), and it makes
no difference what is at a place that the walk does not come to (`whole_iff`). So a copy to such a
place, when it is free, succeeds (`completes`): what grows there does not get into the walk's way.
-/

namespace KernelSpec

namespace FileSystem

open KernelSpec.Path

/-- Something is found below a path under the given names. -/
structure Finds (fs : FileSystem) (p : Path) (names : List Name) (place : Loc) : Prop where
  areNames : ∀ name ∈ names, IsName name
  located : fs.locate (p.below names) = .ok place

/-- A tree without links that lead nowhere or back into a directory they are in. -/
structure Whole (fs : FileSystem) (source : Path) (loc : Loc) : Prop where
  located : fs.locate source = .ok loc
  leads : ∀ names dir name, Finds fs source names dir → fs.kind? (dir ++ [name]) ≠ none →
    ∃ place, Finds fs source (names ++ [name]) place
  acyclic : ∀ names more dir, Finds fs source names dir → fs.kind? dir = some .dir → more ≠ [] →
    ¬ Finds fs source (names ++ more) dir

section Finds

variable {before fs : FileSystem} {object : Path} {top loc place : Loc} {names : List Name}

theorem Finds.passes (finds : Finds fs object names place) (located : fs.locate object = .ok loc) :
    Passes fs (loc, names.map .name) (place, []) :=
  passes_below finds.areNames located finds.located

theorem finds_join_iff {name : Name} (isName : IsName name) :
    Finds fs (object.join ⟨name⟩) names place ↔ Finds fs object (name :: names) place :=
  ⟨fun ⟨areNames, located⟩ => ⟨List.forall_mem_cons.mpr ⟨isName, areNames⟩, located⟩,
    fun ⟨areNames, located⟩ => ⟨(List.forall_mem_cons.mp areNames).2, located⟩⟩

theorem Whole.join {name : Name} (whole : Whole fs object loc) (isName : IsName name)
    (located : fs.locate (object.join ⟨name⟩) = .ok place) :
    Whole fs (object.join ⟨name⟩) place where
  located := located
  leads names dir inner finds there := by
    rw [finds_join_iff isName] at finds
    obtain ⟨place, found⟩ := whole.leads (name :: names) dir inner finds there
    exact ⟨place, (finds_join_iff isName).mpr found⟩
  acyclic names more dir finds isDir longer again := by
    rw [finds_join_iff isName] at finds again
    exact whole.acyclic (name :: names) more dir finds isDir longer again

/-- Files in which the walk finds the same are as good. -/
theorem Whole.congr (whole : Whole before object loc) (located : fs.locate object = .ok loc)
    (iff : ∀ {names place}, Finds fs object names place ↔ Finds before object names place)
    (kind : ∀ {names dir}, Finds before object names dir → fs.kind? dir = before.kind? dir)
    (inner : ∀ {names dir} (name : Name), Finds before object names dir →
      fs.kind? (dir ++ [name]) = before.kind? (dir ++ [name])) : Whole fs object loc where
  located := located
  leads names dir name finds there := by
    rw [iff] at finds
    rw [inner name finds] at there
    obtain ⟨place, found⟩ := whole.leads names dir name finds there
    exact ⟨place, iff.mpr found⟩
  acyclic names more dir finds isDir longer again := by
    rw [iff] at finds again
    rw [kind finds] at isDir
    exact whole.acyclic names more dir finds isDir longer again

/-- A name of a directory that the walk comes to is not that of the place. -/
theorem Outside.not_below {name : Name} (outside : Outside fs top loc)
    (missing : fs.kind? top = none) (passes : Passes fs (loc, names.map .name) (place, [])) :
    ¬ top <+: place ++ [name] := by
  by_cases linked : ∃ target, fs.kind? (place ++ [name]) = some (.link target)
  · obtain ⟨target, found⟩ := linked
    exact not_prefix_of_missing missing found
  · have onward : Passes fs (loc, (names ++ [name]).map .name) (place ++ [name], []) := by
      rw [List.map_append]
      exact (passes.append [.name name]).tail (.name (not_exists.mp linked))
    exact outside _ _ _ onward

section Extends

-- What there is more of is below a place that the walk does not come to.
variable (larger : Extends before fs) (missing : before.kind? top = none)
  (same : ∀ spot, ¬ top <+: spot → fs.kind? spot = before.kind? spot)
  (located : before.locate object = .ok loc) (outside : Outside before top loc)

include larger missing same located outside

omit missing in
theorem finds_iff : Finds fs object names place ↔ Finds before object names place := by
  have iff : ∀ areNames : ∀ name ∈ names, IsName name,
      fs.locate (object.below names) = .ok place ↔
        before.locate (object.below names) = .ok place := fun areNames =>
    locate_below_iff larger located areNames fun stop rest passes =>
      same stop (outside names stop rest passes)
  exact ⟨fun ⟨areNames, found⟩ => ⟨areNames, (iff areNames).mp found⟩,
    fun ⟨areNames, found⟩ => ⟨areNames, (iff areNames).mpr found⟩⟩

theorem whole_iff : Whole fs object loc ↔ Whole before object loc := by
  have iff : ∀ {names place}, Finds fs object names place ↔ Finds before object names place :=
    finds_iff larger same located outside
  have kind : ∀ {names dir}, Finds before object names dir → fs.kind? dir = before.kind? dir :=
    fun finds => same _ (outside _ _ _ (finds.passes located))
  have inner : ∀ {names dir} (name : Name), Finds before object names dir →
      fs.kind? (dir ++ [name]) = before.kind? (dir ++ [name]) :=
    fun _ finds => same _ (outside.not_below missing (finds.passes located))
  refine ⟨fun whole => ?_, fun whole => ?_⟩
  · exact whole.congr located iff.symm (fun finds => (kind (iff.mp finds)).symm)
      fun name finds => (inner name (iff.mp finds)).symm
  · exact whole.congr (locate_extend larger located) iff kind inner

end Extends

/-- Names lead down to an object below which the way has no links. -/
theorem locate_below {entry : Entry} (located : fs.locate object = .ok loc)
    (areNames : ∀ name ∈ names, IsName name ∧ name.length ≤ maxName)
    (valid : checkPath (object.below names) = .ok ()) (there : fs.kind? (loc ++ names) = some entry)
    (noLink : ∀ target, entry ≠ .link target) :
    fs.locate (object.below names) = .ok (loc ++ names) := by
  obtain rfl | nonempty := eq_or_ne names []
  · rw [List.append_nil]
    exact located
  · have spelled : ∀ name ∈ names, IsName name := fun name mem => (areNames name mem).1
    refine locate_eq_ok_iff.mpr ⟨valid, ?_⟩
    rw [lookupSegments_below spelled nonempty, startFrom, isAbsolute_below spelled]
    refine (follows_of_locate located).append_free ?_ (by simpa using nonempty)
    exact follows_names there noLink fun name mem => (areNames name mem).2

section Plain

variable (plain : ∀ below target, fs.kind? (loc ++ below) ≠ some (.link target))

include plain

/-- Without links, a tree is walked from each name to the object of that name. -/
theorem Finds.place_eq (finds : Finds fs object names place)
    (located : fs.locate object = .ok loc) : place = loc ++ names := by
  obtain ⟨_, follows⟩ := follows_below finds.areNames located finds.located
  exact follows.names plain

/-- A tree without links is whole, as far as its paths are not too long. -/
theorem Whole.of_plain (located : fs.locate object = .ok loc)
    (limits : ∀ names, fs.kind? (loc ++ names) ≠ none → checkPath (object.below names) = .ok () ∧
      ∀ name ∈ names, IsName name ∧ name.length ≤ maxName) : Whole fs object loc where
  located := located
  leads names dir name finds there := by
    cases finds.place_eq plain located
    rw [List.append_assoc] at there
    obtain ⟨valid, areNames⟩ := limits _ there
    obtain ⟨entry, kind⟩ := Option.ne_none_iff_exists'.mp there
    refine ⟨_, fun name mem => (areNames name mem).1,
      locate_below located areNames valid kind fun target linked => ?_⟩
    exact plain _ target (linked ▸ kind)
  acyclic names more dir finds _ longer again := by
    cases finds.place_eq plain located
    have same := again.place_eq plain located
    rw [← List.append_assoc] at same
    exact longer (List.self_eq_append_right.mp same)

end Plain

end Finds

end FileSystem

namespace Disk

open FileSystem KernelSpec.Path Steps

/-- The walk comes to where the path of a name leads, unless it is inside of that directory. -/
theorem walkTo_of_locate {fs : FileSystem} {trail : Trail} {object : Path} {loc place : Loc}
    {name : Name} (isName : IsName name) (located : fs.locate object = .ok loc)
    (found : fs.locate (object.join ⟨name⟩) = .ok place) (there : fs.kind? (loc ++ [name]) ≠ none)
    (apart : fs.kind? place = some .dir → ∀ ancestor ∈ trail, ancestor.2 ≠ place) :
    walkTo trail (object.join ⟨name⟩) (loc ++ [name]) fs = .ok place := by
  obtain ⟨entry, kind⟩ := Option.ne_none_iff_exists'.mp there
  obtain ⟨node, here, rfl⟩ := Option.map_eq_some_iff.mp kind
  cases node with
  | link target =>
    have fresh : (fs.get? place).any Node.isDir = true → trail.ancestor? place = none := by
      intro isDir
      rw [Trail.ancestor?, Option.map_eq_none_iff, List.find?_eq_none]
      exact fun ancestor mem same =>
        apart (any_isDir_iff.mp isDir) ancestor mem (of_decide_eq_true same)
    rw [walkTo, here]
    simp only [followLink, found]
    cases isDir : (fs.get? place).any Node.isDir with
    | false => rfl
    | true => rw [fresh isDir]
  | file | dir =>
    have walked : walkTo trail (object.join ⟨name⟩) (loc ++ [name]) fs = .ok (loc ++ [name]) :=
      walkTo_self kind fun _ => Entry.noConfusion
    rw [walked, (walkTo_unique isName located walked).1 place found]

/-- A tree can be copied: it can be walked below the directories of the trail, and the paths of the
copy are not too long. -/
structure Ready (fs : FileSystem) (trail : Trail) (object base : Path) (loc : Loc) : Prop
    extends Whole fs object loc where
  apart : ∀ names place, Finds fs object names place → fs.kind? place = some .dir →
    ∀ ancestor ∈ trail, ancestor.2 ≠ place
  fits : ∀ names place, Finds fs object names place → checkPath (base.below names) = .ok ()

section Ready

variable {before fs : FileSystem} {trail : Trail} {object base : Path} {top loc place : Loc}

theorem Ready.valid (ready : Ready fs trail object base loc) : checkPath base = .ok () :=
  ready.fits [] loc ⟨by simp, ready.located⟩

theorem Ready.join {name : Name} (ready : Ready fs trail object base loc)
    (isDir : fs.kind? loc = some .dir) (isName : IsName name)
    (located : fs.locate (object.join ⟨name⟩) = .ok place) :
    Ready fs ((object, loc) :: trail) (object.join ⟨name⟩) (base.join ⟨name⟩) place where
  toWhole := ready.toWhole.join isName located
  apart names found finds there ancestor mem := by
    rw [finds_join_iff isName] at finds
    obtain rfl | mem := List.mem_cons.mp mem
    · rintro rfl
      exact ready.acyclic [] (name :: names) loc ⟨by simp, ready.located⟩ isDir
        (List.cons_ne_nil _ _) finds
    · exact ready.apart _ found finds there ancestor mem
  fits names found finds := ready.fits _ found ((finds_join_iff isName).mp finds)

/-- What is made at a place that the walk does not come to is not in its way. -/
theorem Ready.extend (ready : Ready before trail object base loc) (larger : Extends before fs)
    (missing : before.kind? top = none)
    (same : ∀ spot, ¬ top <+: spot → fs.kind? spot = before.kind? spot)
    (outside : Outside before top loc) : Ready fs trail object base loc := by
  have earlier : ∀ {names found}, Finds fs object names found → Finds before object names found :=
    (finds_iff larger same ready.located outside).mp
  refine ⟨(whole_iff larger missing same ready.located outside).mpr ready.toWhole,
    fun names found finds isDir => ?_, fun names found finds => ?_⟩
  · rw [same _ (outside _ _ _ ((earlier finds).passes ready.located))] at isDir
    exact ready.apart names found (earlier finds) isDir
  · exact ready.fits names found (earlier finds)

end Ready

/-- A tree that can be copied to a free place is. The fuel is enough for the paths that are not too
long. -/
def Completes (fuel : Nat) : Prop :=
  ∀ {trail : Trail} {object base : Path} {loc dir : Loc} {name : Name} {front : List Segment}
    {fs : FileSystem} {entry : Entry}, Spare fs base front dir name → fs.WellNamed →
    Ready fs trail object base loc → Outside fs (dir ++ [name]) loc → name.length ≤ maxName →
    base.endsInSlash = false → fs.kind? loc = some entry → (∀ target, entry ≠ .link target) →
    maxPath < fuel + object.bytes.length →
    ((copyFrom fuel trail object base base loc).run fs).1 = .ok ()

/-- The objects of a directory are all copied. -/
theorem Completes.entries {fuel : Nat} (completes : Completes fuel) {trail : Trail}
    {object base : Path} {loc dir : Loc} {name : Name} {front : List Segment} {fs : FileSystem}
    (spare : Spare fs base front dir name) (named : fs.WellNamed)
    (ready : Ready fs trail object base loc) (outside : Outside fs (dir ++ [name]) loc)
    (short : name.length ≤ maxName) (isDir : fs.kind? loc = some .dir)
    (fuelled : maxPath ≤ fuel + object.bytes.length) :
    ((copyEntries fuel ((object, loc) :: trail) object base loc).run
      (fs.put (dir ++ [name]) (.dir []))).1 = .ok () := by
  cases run : (copyEntries fuel ((object, loc) :: trail) object base loc).run
      (fs.put (dir ++ [name]) (.dir [])) with
  | mk result changed =>
    have filled := Grows.filled_made (grows fuel) spare short named run
    cases result with
    | ok => rfl
    | error fault =>
      -- The object that was not copied could have been.
      obtain ⟨inner, mem, start, stop, grown, enters, free, failed⟩ := filled.stopped fault rfl
      have made : Grown fs (fs.put (dir ++ [name]) (.dir [])) (dir ++ [name]) :=
        spare.grown named rfl
      have isName := isName_of_mem_namesIn made.named mem
      have here : Passes fs (loc, ([] : List Name).map .name) (loc, []) := .refl
      have apart : ¬ dir ++ [name] <+: loc ++ [inner] := outside.not_below spare.missing here
      have there := kind?_of_mem_namesIn mem
      rw [made.outside apart, ← grown.outside apart] at there
      have isDir := (grown.extends spare.missing).kept _ _ isDir
      have again := ready.extend (grown.extends spare.missing) spare.missing
        (fun _ => grown.outside) outside
      obtain ⟨place, _, located⟩ := again.leads [] loc inner ⟨by simp, again.located⟩ there
      obtain ⟨brief, _, follows⟩ := follows_name_of_locate isName again.located located
      obtain ⟨entry, kind, noLink⟩ := follows.there isDir
      have deeper := again.join isDir isName located
      have walked : walkTo ((object, loc) :: trail) (object.join ⟨inner⟩) (loc ++ [inner]) start =
          .ok place :=
        walkTo_of_locate isName again.located located there
          (deeper.apart [] place ⟨by simp, located⟩)
      have away := ((outside.congr (grown.sameLinks spare.missing)).step
        follows.passes_followed).mono (List.prefix_append _ [inner])
      have longer := length_lt_join isName object
      have done := completes (enters.spare isName free) grown.named deeper away brief
        (endsInSlash_place isName) kind noLink (by omega)
      have asked : (ask (walkTo ((object, loc) :: trail) (object.join ⟨inner⟩)
          (loc ++ [inner]))).run start = (.ok place, start) := by
        rw [run_ask, walked]
      unfold copyEntry at failed
      rw [run_bind_of_ok asked] at failed
      rw [failed] at done
      cases done

theorem completes (fuel : Nat) : Completes fuel := by
  induction fuel with
  | zero =>
    intro _ object _ _ _ _ _ _ _ _ _ ready _ _ _ _ _ fuelled
    obtain ⟨_, _, fits⟩ := checkPath_eq_ok_iff.mp (locate_eq_ok_iff.mp ready.located).1
    omega
  | succ fuel ih =>
    intro trail object base loc dir name front fs entry spare named ready outside short noSlash
      kind noLink fuelled
    rw [run_copyFrom]
    cases entry with
    | dir =>
      have opens : (ask (openDir object)).run fs = (.ok loc, fs) := by
        rw [run_ask, openDir, ready.located]
        rfl
      have created := run_createDirs (parent?_ne_none spare)
        (makeDir_of_vacant ready.valid (spare.follows_vacant short .kept))
      rw [if_pos (any_isDir_iff.mpr kind), run_bind_of_ok opens, run_bind_of_ok created]
      exact ih.entries spare named ready outside short kind (by omega)
    | file content executable =>
      have notDir : ¬ (fs.get? loc).any Node.isDir = true := by
        rw [any_isDir_iff, kind]
        intro same
        cases same
      rw [if_neg notDir]
      exact run_copyLeaf_spare spare short ready.valid noSlash ready.located kind
    | link target => exact absurd rfl (noLink target)

/-- A tree is copied exactly to a free place that its walk does not come to. -/
theorem run_copyTree_ready {source place : Path} {front : List Segment} {dir loc : Loc}
    {child : Name} {fs : FileSystem} (spare : Spare fs place front dir child) (named : fs.WellNamed)
    (ready : Ready fs [] source place loc) (isDir : fs.kind? loc = some .dir)
    (outside : Outside fs (dir ++ [child]) loc) (short : child.length ≤ maxName)
    (valid : checkPath (place.join ⟨[]⟩) = .ok ()) :
    ∃ changed, (copyTree source place).run fs = (.ok (), changed) ∧
      Grown fs changed (dir ++ [child]) ∧ Enters changed place (dir ++ [child]) ∧
      ∀ names : List Name, (∀ name ∈ names, IsName name) →
        changed.kind? (dir ++ [child] ++ names) = fs.pathKind? (source.below names) := by
  rw [run_copyTree_spare (walkStart_of_locate ready.located isDir) isDir valid spare short]
  have done := Completes.entries (completes (maxPath + 1)) spare named ready outside short isDir
    (by omega)
  cases run : (copyEntries (maxPath + 1) [(source, loc)] source place loc).run
      (fs.put (dir ++ [child]) (.dir [])) with
  | mk result changed =>
    rw [run] at done
    obtain rfl : result = .ok () := done
    have filled := Grows.filled_made (grows _) spare short named run
    exact ⟨changed, rfl, filled.grown, filled.enters, fun names areNames =>
      Mirrors.entries (mirrors _) spare short named ready.located isDir outside run areNames⟩

end Disk

end KernelSpec
