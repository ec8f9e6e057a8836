import KernelSpec.Proofs.FileSystem.Success
import KernelSpec.Proofs.Registry.Install

/-! # What comes of a copy

Two file systems may have the same objects with the entries of their directories in different orders
(`SameObjects`). A walk takes the entries as they come, so the order decides what is copied first and
which fault stops the copy. It decides nothing else: the conditions for a copy to succeed speak of
objects only, and what a copy leaves is settled by what it found (`Copied.unique`).
-/

namespace KernelSpec

namespace FileSystem

open KernelSpec.Path

/-- The same objects at the same locations, in whatever order the entries of directories stand. -/
structure SameObjects (fs other : FileSystem) : Prop where
  cwd : other.cwd = fs.cwd
  kinds : ∀ loc, other.kind? loc = fs.kind? loc

section SameObjects

variable {fs other : FileSystem} {source p : Path} {root place : Loc}

theorem sameObjects_of_objects (cwd : other.cwd = fs.cwd) (top : other.kind? [] = fs.kind? [])
    (listed : ∀ object ∈ fs.objects ++ other.objects,
      other.kind? object.1 = fs.kind? object.1) : SameObjects fs other := by
  refine ⟨cwd, fun loc => ?_⟩
  obtain rfl | below := eq_or_ne loc []
  · exact top
  · by_contra differs
    obtain found | found : fs.kind? loc ≠ none ∨ other.kind? loc ≠ none := by
      by_contra missing
      obtain ⟨gone, gone'⟩ := not_or.mp missing
      exact differs ((not_not.mp gone').trans (not_not.mp gone).symm)
    all_goals obtain ⟨_, found⟩ := Option.ne_none_iff_exists'.mp found
    · exact differs (listed _ (List.mem_append_left _ (mem_objects found below)))
    · exact differs (listed _ (List.mem_append_right _ (mem_objects found below)))

variable (same : SameObjects fs other)

include same

theorem SameObjects.symm : SameObjects other fs :=
  ⟨same.cwd.symm, fun loc => (same.kinds loc).symm⟩

theorem SameObjects.extends : Extends fs other where
  cwd := same.cwd
  kept loc _ found := (same.kinds loc).trans found

theorem SameObjects.links : SameLinks fs other := fun loc target => by rw [same.kinds loc]

theorem SameObjects.wellNamed (named : fs.WellNamed) : other.WellNamed := by
  intro loc found
  rw [same.kinds loc] at found
  exact named loc found

theorem SameObjects.pathKind? : other.pathKind? p = fs.pathKind? p := by
  refine Option.ext fun entry => ?_
  rw [pathKind?_eq_some_iff, pathKind?_eq_some_iff]
  refine exists_congr fun loc => and_congr ?_ (by rw [same.kinds loc])
  exact ⟨locate_extend same.symm.extends, locate_extend same.extends⟩

theorem SameObjects.absent {gap : Gap} (absent : Absent fs p gap) : Absent other p gap where
  split := absent.split
  leads := by
    rw [same.cwd]
    exact absent.leads.extend same.extends
  isDir := (same.kinds gap.dir).trans absent.isDir
  missing := (same.kinds gap.top).trans absent.missing
  down := absent.down
  ends := absent.ends

theorem SameObjects.clear (clear : Clear fs root place) : Clear other root place where
  apart names dir reaches := clear.apart names dir (reaches.extend same.symm.extends)
  aside names dir name target stop reaches linked passes missing := by
    rw [same.kinds] at linked missing
    exact clear.aside names dir name target stop (reaches.extend same.symm.extends) linked
      (passes.congr same.symm.links) missing
  straight names dir name target stop rest reaches linked passes missing := by
    rw [same.kinds] at linked missing
    exact clear.straight names dir name target stop rest (reaches.extend same.symm.extends) linked
      (passes.congr same.symm.links) missing

theorem SameObjects.noDangling (noDangling : NoDangling fs root) : NoDangling other root := by
  intro names dir name target reaches linked
  rw [same.kinds] at linked
  obtain ⟨inner, child⟩ :=
    noDangling names dir name target (reaches.extend same.symm.extends) linked
  exact ⟨inner, child.extend same.extends⟩

theorem SameObjects.noLoop (noLoop : NoLoop fs root) : NoLoop other root := by
  intro names dir name target inner reaches linked child isDir part within again
  rw [same.kinds] at linked isDir
  exact noLoop names dir name target inner (reaches.extend same.symm.extends) linked
    (child.extend same.symm.extends) isDir part within (again.extend same.symm.extends)

theorem SameObjects.withinLimits (named : fs.WellNamed) (located : fs.locate source = .ok root)
    (limits : WithinLimits fs source p root) : WithinLimits other source p root := by
  refine .of_located (same.wellNamed named) limits.slash limits.short fun names spot reaches => ?_
  have reaches := reaches.extend same.symm.extends
  exact ⟨locate_extend same.extends (limits.located named located reaches),
    (limits.paths names spot reaches).2⟩

/-- Copies of the same tree to the same place leave the same objects. -/
theorem Copied.unique {changed changed' : FileSystem} (copied : Copied fs changed source place)
    (copied' : Copied other changed' source place) : SameObjects changed changed' := by
  refine ⟨by rw [copied'.cwd, copied.cwd, same.cwd], fun loc => ?_⟩
  by_cases above : loc <+: place
  · rw [copied.above loc above, copied'.above loc above]
  · by_cases below : place <+: loc
    · obtain ⟨names, rfl⟩ := below
      by_cases areNames : ∀ name ∈ names, IsName name
      · rw [copied.tree names areNames, copied'.tree names areNames, same.pathKind?]
      · -- What no path can spell is in neither.
        have neither : ∀ {left : FileSystem}, left.WellNamed → left.kind? (place ++ names) = none := by
          intro left named
          by_contra found
          exact areNames fun name mem => named _ found name (List.mem_append_right _ mem)
        rw [neither copied.named, neither copied'.named]
    · rw [copied.elsewhere loc above below, copied'.elsewhere loc above below, same.kinds loc]

end SameObjects

end FileSystem

namespace Disk

open FileSystem KernelSpec.Path Steps Registry

/-- A tree is copied to a free place that is clear of it. The walk ends by itself, at a depth that
the objects bound as well as the paths. It gets through exactly when no link leads nowhere, none leads
to a directory that it is below, and the limits of the system are kept. Then the tree is at the place,
and for every order of entries the copy leaves the same objects. -/
theorem copyTree_outcome {fs : FileSystem} {source place : Path} {gap : Gap} {root : Loc}
    (named : fs.WellNamed) (located : fs.locate source = .ok root)
    (isRoot : fs.kind? root = some .dir) (absent : Absent fs place gap)
    (clear : Clear fs root gap.place) :
    (∀ depth, min (maxPath + 1) ((fs.objects.length + 1) ^ 2) < depth →
      (copyWithin depth source place).run fs = (copyTree source place).run fs) ∧
    (((copyTree source place).run fs).1 = .ok () ↔
      NoDangling fs root ∧ NoLoop fs root ∧ WithinLimits fs source place root) ∧
    (((copyTree source place).run fs).1 = .ok () →
      Copied fs ((copyTree source place).run fs).2 source gap.place) ∧
    ∀ other, SameObjects fs other →
      (((copyTree source place).run other).1 = .ok () ↔
        ((copyTree source place).run fs).1 = .ok ()) ∧
      (((copyTree source place).run fs).1 = .ok () →
        SameObjects ((copyTree source place).run fs).2 ((copyTree source place).run other).2) := by
  have succeeds := copyTree_eq_ok_iff named located isRoot absent clear
  have leaves : ((copyTree source place).run fs).1 = .ok () →
      Copied fs ((copyTree source place).run fs).2 source gap.place :=
    fun done => copied_of_ok named located isRoot absent clear (Prod.ext done rfl)
  refine ⟨fun depth deep => run_copyWithin named located isRoot absent clear deep, succeeds, leaves,
    fun other same => ?_⟩
  have named' := same.wellNamed named
  have located' := locate_extend same.extends located
  have isRoot' := (same.kinds root).trans isRoot
  have succeeds' := copyTree_eq_ok_iff named' located' isRoot' (same.absent absent)
    (same.clear clear)
  have agree : ((copyTree source place).run other).1 = .ok () ↔
      ((copyTree source place).run fs).1 = .ok () := by
    rw [succeeds, succeeds']
    constructor
    · rintro ⟨noDangling, noLoop, limits⟩
      exact ⟨same.symm.noDangling noDangling, same.symm.noLoop noLoop,
        same.symm.withinLimits named' located' limits⟩
    · rintro ⟨noDangling, noLoop, limits⟩
      exact ⟨same.noDangling noDangling, same.noLoop noLoop,
        same.withinLimits named located limits⟩
  refine ⟨agree, fun done => Copied.unique same (leaves done) ?_⟩
  exact copied_of_ok named' located' isRoot' (same.absent absent) (same.clear clear)
    (Prod.ext (agree.mpr done) rfl)

/-- A tree `src` with a link to a directory and one to a file, both outside of it. -/
def linkedObjects : List (String × Node) :=
  [("src", directory [("kernel.json", .file [] false), ("lib", .link (.ofString "../shared/lib")),
    ("logo", .link (.ofString "lib/logo"))]),
   ("shared", directory [("lib", directory [("logo", .file [] true), ("empty", directory [])])])]

/-- The objects of `linkedObjects` in other orders. -/
def shuffledObjects : List (String × Node) :=
  [("shared", directory [("lib", directory [("empty", directory []), ("logo", .file [] true)])]),
   ("src", directory [("logo", .link (.ofString "lib/logo")),
    ("lib", .link (.ofString "../shared/lib")), ("kernel.json", .file [] false)])]

/-- A tree with links is copied below a directory that is missing, in either order. -/
theorem copyTree_outcome_shuffled :
    let copy (objects : List (String × Node)) :=
      (copyTree (.ofString "src") (.ofString "out/java")).run ⟨directory objects, []⟩
    (copy linkedObjects).1 = .ok () ∧ (copy shuffledObjects).1 = .ok () ∧
      (copy linkedObjects).2.objects ≠ (copy shuffledObjects).2.objects ∧
      SameObjects (copy linkedObjects).2 (copy shuffledObjects).2 := by
  intro copy
  let fs : FileSystem := ⟨directory linkedObjects, []⟩
  have absent : Absent fs (.ofString "out/java")
      ⟨[], [], Bytes.ofString "out", [.name (Bytes.ofString "java")]⟩ :=
    ⟨by decide +kernel, .done [], by decide +kernel, by decide +kernel, by decide +kernel,
      by decide +kernel⟩
  have clear : Clear fs [Bytes.ofString "src"] (["out", "java"].map Bytes.ofString) :=
    .of_objects (by decide +kernel) (by decide +kernel)
  have located : fs.locate (.ofString "src") = .ok [Bytes.ofString "src"] := by decide +kernel
  have outcome := copyTree_outcome (wellNamed_of_objects (by decide +kernel)) located
    (by decide +kernel) absent clear
  have same : SameObjects fs ⟨directory shuffledObjects, []⟩ :=
    sameObjects_of_objects rfl (by decide +kernel) (by decide +kernel)
  have done : (copy linkedObjects).1 = .ok () := by decide +kernel
  obtain ⟨agree, leaves⟩ := outcome.2.2.2 _ same
  exact ⟨done, agree.mpr done, by decide +kernel, leaves done⟩

/-- A tree `src` with a link to `s/a` along a chain of links. In `s/a` is one to `s/b`, along the same
chain. -/
def chainedObjects : List (String × Node) :=
  let chain := ["c1", "c2", "c3", "c4", "c5", "c6", "c7", "c8", "c9", "c10", "c11", "c12", "c13",
    "c14", "c15", "c16", "c17", "c18", "c19", "c20", "s"]
  ("src", directory [("l", .link (.ofString "../c1/a"))]) ::
    ("s", directory [("a", directory [("l", .link (.ofString "../../c1/b"))]),
      ("b", directory [])]) ::
    (chain.zip chain.tail).map fun step => (step.1, .link (.ofString step.2))

/-- Links that lead to directories and not back are not enough: on the way to `src/l/l` there are too
many. A destination may have a name that is too long, end in `.`, come back by `..` to what is there,
or be a link that leads nowhere. And a link that turns back in the copy leads somewhere once the copy
is there. -/
theorem copyTree_outcome_refused :
    let files (objects : List (String × Node)) : FileSystem := ⟨directory objects, []⟩
    let copy (objects : List (String × Node)) (target : String) :=
      ((copyTree (.ofString "src") (.ofString target)).run (files objects)).1
    let chained := files chainedObjects
    let src : Loc := [Bytes.ofString "src"]
    let out : Gap := ⟨[], [], Bytes.ofString "out", []⟩
    (chained.WellNamed ∧ chained.locate (.ofString "src") = .ok src ∧
      chained.kind? src = some .dir ∧ Absent chained (.ofString "out") out ∧
      Clear chained src out.place ∧ NoDangling chained src ∧ NoLoop chained src ∧
      copy chainedObjects "out" = .error (.walk (.ofString "src/l/l") (.os .tooManyLinks))) ∧
    copy [("src", directory [])] (String.ofList (List.replicate 256 'n')) =
      .error (.os .nameTooLong) ∧
    copy [("src", directory [])] "new/." = .error (.os .noEntry) ∧
    copy [("src", directory []), ("p", .file [] false)] "missing/../p" =
      .error (.os .alreadyExists) ∧
    copy [("src", directory []), ("gone", .link (.ofString "nowhere"))] "gone" =
      .error (.os .alreadyExists) ∧
    let turning := [("src", directory [("l", .link (.ofString "../out/../f"))]), ("f", .file [] false)]
    (files turning).pathExists (.ofString "src/l") = false ∧ copy turning "out" = .ok () := by
  intro files copy chained src out
  have absent : Absent chained (.ofString "out") out :=
    ⟨by decide +kernel, .done [], by decide +kernel, by decide +kernel, by decide +kernel,
      by decide +kernel⟩
  have clear : Clear chained src out.place := .of_objects (by decide +kernel) (by decide +kernel)
  have order : NoDangling chained src ∧ NoLoop chained src :=
    noLoop_of_order [src, ["s", "a"].map Bytes.ofString, ["s", "b"].map Bytes.ofString]
      (by decide +kernel) (by decide +kernel)
  refine ⟨⟨wellNamed_of_objects (by decide +kernel), by decide +kernel, by decide +kernel, absent,
    clear, order.1, order.2, by decide +kernel⟩, ?_⟩
  decide +kernel

end Disk

end KernelSpec
