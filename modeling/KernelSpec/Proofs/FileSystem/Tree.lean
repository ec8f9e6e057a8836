import KernelSpec.FileSystem.Change
import KernelSpec.FileSystem.Operation
import Mathlib

/-! # What a change leaves alone

Putting an object at a location and taking one away both change the entries of one directory, in
one name (`alter`). What is neither above nor below that place is the same as before
(`get?_put_of_apart`, `get?_erase_of_apart`), and above it every object stays what it is, though not
what is below it (`kind?_put`, `kind?_erase`).
-/

namespace KernelSpec

namespace Node

theorem get?_append (node : Node) (above below : Loc) :
    node.get? (above ++ below) = (node.get? above).bind (·.get? below) := by
  induction above generalizing node with
  | nil => simp [get?]
  | cons name rest ih =>
    cases node with
    | file | link => rfl
    | dir entries =>
      simp only [List.cons_append, get?]
      cases Entries.find? entries name with
      | none => rfl
      | some child => exact ih child

theorem get?_concat {node : Node} {dir : Loc} {entries : Entries}
    (found : node.get? dir = some (.dir entries)) (name : Name) :
    node.get? (dir ++ [name]) = entries.find? name := by
  rw [get?_append, found]
  simp only [Option.bind_some, get?]
  cases Entries.find? entries name <;> rfl

/-- An object that has something below it is a directory. -/
theorem isDir_of_get?_append {node child : Node} {above : Loc} {name : Name} {below : Loc}
    (found : node.get? (above ++ name :: below) = some child) :
    ∃ entries, node.get? above = some (.dir entries) := by
  rw [get?_append, Option.bind_eq_some_iff] at found
  obtain ⟨inner, here, later⟩ := found
  cases inner with
  | file | link => cases later
  | dir entries => exact ⟨entries, here⟩

theorem mem_of_find? {entries : Entries} {name : Name} {node : Node}
    (found : entries.find? name = some node) : (name, node) ∈ entries := by
  induction entries with
  | nil => cases found
  | cons entry rest ih =>
    obtain ⟨other, first⟩ := entry
    rw [Entries.find?] at found
    split at found
    · next same =>
      cases found
      rw [same]
      exact List.mem_cons_self
    · exact List.mem_cons_of_mem _ (ih found)

/-- An object of a directory is listed, with all that is below it. -/
theorem mem_listingOf {above : Loc} {entries : Entries} {name : Name} {node : Node}
    (mem : (name, node) ∈ entries) :
    (above ++ [name], node.entry) ∈ listingOf above entries ∧
      ∀ object ∈ node.listing (above ++ [name]), object ∈ listingOf above entries := by
  induction entries with
  | nil => cases mem
  | cons entry rest ih =>
    rw [listingOf]
    obtain rfl | later := List.mem_cons.mp mem
    · exact ⟨List.mem_cons_self,
        fun object listed => List.mem_cons_of_mem _ (List.mem_append_left _ listed)⟩
    · obtain ⟨here, below⟩ := ih later
      exact ⟨List.mem_cons_of_mem _ (List.mem_append_right _ here),
        fun object listed => List.mem_cons_of_mem _ (List.mem_append_right _ (below object listed))⟩

/-- Everything below a node is listed. -/
theorem mem_listing {node child : Node} {above : Loc} {name : Name} {below : Loc}
    (found : node.get? (name :: below) = some child) :
    (above ++ name :: below, child.entry) ∈ node.listing above := by
  induction below generalizing node above name with
  | nil =>
    cases node with
    | file | link => cases found
    | dir entries =>
      obtain ⟨inner, here, same⟩ := Option.bind_eq_some_iff.mp found
      cases same
      exact (mem_listingOf (mem_of_find? here)).1
  | cons next below ih =>
    cases node with
    | file | link => cases found
    | dir entries =>
      obtain ⟨inner, here, later⟩ := Option.bind_eq_some_iff.mp found
      have listed : (above ++ [name] ++ next :: below, child.entry) ∈
          inner.listing (above ++ [name]) := ih later
      rw [List.append_assoc] at listed
      exact (mem_listingOf (mem_of_find? here)).2 _ listed

/-- Changes the entries of the directory at a location. -/
def alter (change : Entries → Entries) : Node → Loc → Node
  | .dir entries, [] => .dir (change entries)
  | .dir entries, name :: rest =>
    match Entries.find? entries name with
    | some child => .dir (Entries.set entries name (child.alter change rest))
    | none => .dir entries
  | node, _ => node

theorem put_concat (node : Node) (dir : Loc) (name : Name) (new : Node) :
    node.put (dir ++ [name]) new = node.alter (·.set name new) dir := by
  induction dir generalizing node with
  | nil => cases node <;> rfl
  | cons first rest ih =>
    cases node with
    | file | link => cases rest <;> rfl
    | dir entries =>
      have nonempty : rest ++ [name] ≠ [] := by simp
      rw [List.cons_append, put, alter]
      · cases Entries.find? entries first with
        | none => rfl
        | some child => simp only [ih child]
      · exact fun same => nonempty same

theorem erase_concat (node : Node) (dir : Loc) (name : Name) :
    node.erase (dir ++ [name]) = node.alter (·.erase name) dir := by
  induction dir generalizing node with
  | nil => cases node <;> rfl
  | cons first rest ih =>
    cases node with
    | file | link => cases rest <;> rfl
    | dir entries =>
      have nonempty : rest ++ [name] ≠ [] := by simp
      rw [List.cons_append, erase, alter]
      · cases Entries.find? entries first with
        | none => rfl
        | some child => simp only [ih child]
      · exact fun same => nonempty same

/-- Above the directory whose entries change, only what is below differs. -/
theorem get?_alter_append (change : Entries → Entries) (node : Node) (above below : Loc) :
    (node.alter change (above ++ below)).get? above =
      (node.get? above).map (·.alter change below) := by
  induction above generalizing node with
  | nil => rfl
  | cons first rest ih =>
    cases node with
    | file | link => rfl
    | dir entries =>
      simp only [List.cons_append, alter, get?]
      cases found : Entries.find? entries first with
      | none => simp [get?, found]
      | some child => simp [get?, Entries.find?_set, ih child]

theorem get?_alter {change : Entries → Entries} {node : Node} {dir : Loc} {entries : Entries}
    (found : node.get? dir = some (.dir entries)) :
    (node.alter change dir).get? dir = some (.dir (change entries)) := by
  have step := get?_alter_append change node dir []
  rw [List.append_nil, found] at step
  exact step

theorem entry_alter_self (change : Entries → Entries) (node : Node) (dir : Loc) :
    (node.alter change dir).entry = node.entry := by
  cases node with
  | file | link => cases dir <;> rfl
  | dir entries =>
    cases dir with
    | nil => rfl
    | cons name rest =>
      simp only [alter]
      cases Entries.find? entries name <;> rfl

section OneName

variable {change : Entries → Entries} {name : Name}
  (others : ∀ (entries : Entries) (other : Name), other ≠ name →
    (change entries).find? other = entries.find? other)

include others

/-- Neither above nor below the name whose entry changes, everything is as before. -/
theorem get?_alter_of_apart (node : Node) {dir loc : Loc} (notBelow : ¬ dir ++ [name] <+: loc)
    (notAbove : ¬ loc <+: dir ++ [name]) : (node.alter change dir).get? loc = node.get? loc := by
  induction dir generalizing node loc with
  | nil =>
    cases loc with
    | nil => exact absurd List.nil_prefix notAbove
    | cons first rest =>
      have other : first ≠ name := by
        rintro rfl
        exact notBelow (List.cons_prefix_cons.mpr ⟨rfl, List.nil_prefix⟩)
      cases node with
      | file | link => rfl
      | dir entries => simp only [alter, get?, others entries first other]
  | cons head tail ih =>
    cases loc with
    | nil => exact absurd List.nil_prefix notAbove
    | cons first rest =>
      cases node with
      | file | link => rfl
      | dir entries =>
        simp only [alter]
        cases found : Entries.find? entries head with
        | none => rfl
        | some child =>
          simp only [get?, Entries.find?_set]
          split
          · next same =>
            subst same
            rw [found]
            refine ih child (fun below => notBelow ?_) (fun above => notAbove ?_)
            · exact List.cons_prefix_cons.mpr ⟨rfl, below⟩
            · exact List.cons_prefix_cons.mpr ⟨rfl, above⟩
          · rfl

/-- Outside of what is below the name, every object stays what it is. -/
theorem entry_alter (node : Node) {dir loc : Loc} (notBelow : ¬ dir ++ [name] <+: loc) :
    ((node.alter change dir).get? loc).map entry = (node.get? loc).map entry := by
  by_cases above : loc <+: dir ++ [name]
  · obtain rfl | ⟨more, rfl⟩ := List.prefix_concat_iff.mp above
    · exact absurd List.prefix_rfl notBelow
    · rw [get?_alter_append, Option.map_map]
      congr 1
      exact funext fun child => entry_alter_self change child more
  · rw [get?_alter_of_apart others node notBelow above]

end OneName

end Node

namespace FileSystem

theorem get?_concat {fs : FileSystem} {dir : Loc} {entries : Entries}
    (found : fs.get? dir = some (.dir entries)) (name : Name) :
    fs.get? (dir ++ [name]) = entries.find? name := Node.get?_concat found name

theorem isDir_of_get?_concat {fs : FileSystem} {dir : Loc} {name : Name} {node : Node}
    (found : fs.get? (dir ++ [name]) = some node) :
    ∃ entries, fs.get? dir = some (.dir entries) := Node.isDir_of_get?_append found

/-- Nothing is below what is missing, a file or a link. -/
theorem get?_append_eq_none {fs : FileSystem} {loc : Loc}
    (leaf : ∀ entries, fs.get? loc ≠ some (.dir entries)) (name : Name) (below : Loc) :
    fs.get? (loc ++ name :: below) = none := by
  cases found : fs.get? (loc ++ name :: below) with
  | none => rfl
  | some node =>
    obtain ⟨entries, here⟩ := Node.isDir_of_get?_append found
    exact absurd here (leaf entries)

/-- Every object but the root is among the objects. -/
theorem mem_objects {fs : FileSystem} {loc : Loc} {entry : Entry}
    (found : fs.kind? loc = some entry) (notRoot : loc ≠ []) : (loc, entry) ∈ fs.objects := by
  obtain ⟨node, here, rfl⟩ := Option.map_eq_some_iff.mp found
  cases loc with
  | nil => exact absurd rfl notRoot
  | cons name below => exact Node.mem_listing here

section Put

variable (fs : FileSystem) (new : Node) {place loc : Loc}

theorem get?_put_of_apart (notBelow : ¬ place <+: loc) (notAbove : ¬ loc <+: place) :
    (fs.put place new).get? loc = fs.get? loc := by
  obtain rfl | ⟨dir, name, rfl⟩ := List.eq_nil_or_concat place
  · exact absurd List.nil_prefix notBelow
  · rw [List.concat_eq_append] at notBelow notAbove ⊢
    rw [put, get?, Node.put_concat]
    exact Node.get?_alter_of_apart
      (fun entries other different => by rw [Entries.find?_set, if_neg different])
      fs.root notBelow notAbove

theorem kind?_put (notBelow : ¬ place <+: loc) : (fs.put place new).kind? loc = fs.kind? loc := by
  obtain rfl | ⟨dir, name, rfl⟩ := List.eq_nil_or_concat place
  · exact absurd List.nil_prefix notBelow
  · rw [List.concat_eq_append] at notBelow ⊢
    rw [put, kind?, get?, Node.put_concat]
    exact Node.entry_alter
      (fun entries other different => by rw [Entries.find?_set, if_neg different])
      fs.root notBelow

/-- What is at and below the place, once an object is there. -/
theorem get?_put_append {dir : Loc} {name : Name} {entries : Entries}
    (parent : fs.get? dir = some (.dir entries)) (below : Loc) :
    (fs.put (dir ++ [name]) new).get? (dir ++ [name] ++ below) = new.get? below := by
  rw [put, get?, Node.put_concat, Node.get?_append, Node.get?_concat (Node.get?_alter parent),
    Entries.find?_set, if_pos rfl, Option.bind_some]

end Put

section Erase

variable (fs : FileSystem) {place loc : Loc}

theorem get?_erase_of_apart (notBelow : ¬ place <+: loc) (notAbove : ¬ loc <+: place) :
    (fs.erase place).get? loc = fs.get? loc := by
  obtain rfl | ⟨dir, name, rfl⟩ := List.eq_nil_or_concat place
  · exact absurd List.nil_prefix notBelow
  · rw [List.concat_eq_append] at notBelow notAbove ⊢
    rw [erase, get?, Node.erase_concat]
    exact Node.get?_alter_of_apart
      (fun entries other different => by rw [Entries.find?_erase, if_neg different])
      fs.root notBelow notAbove

theorem kind?_erase (notBelow : ¬ place <+: loc) :
    (fs.erase place).kind? loc = fs.kind? loc := by
  obtain rfl | ⟨dir, name, rfl⟩ := List.eq_nil_or_concat place
  · exact absurd List.nil_prefix notBelow
  · rw [List.concat_eq_append] at notBelow ⊢
    rw [erase, kind?, get?, Node.erase_concat]
    exact Node.entry_alter
      (fun entries other different => by rw [Entries.find?_erase, if_neg different])
      fs.root notBelow

/-- Nothing is left at and below the place. -/
theorem get?_erase_append (dir : Loc) (name : Name) (below : Loc) :
    (fs.erase (dir ++ [name])).get? (dir ++ [name] ++ below) = none := by
  have missing : (fs.erase (dir ++ [name])).get? (dir ++ [name]) = none := by
    have altered := Node.get?_alter_append (·.erase name) fs.root dir []
    rw [List.append_nil] at altered
    rw [erase, get?, Node.erase_concat, Node.get?_append, altered]
    cases fs.root.get? dir with
    | none => rfl
    | some node =>
      cases node with
      | file | link => rfl
      | dir entries =>
        simp [Node.alter, Node.get?, Entries.find?_erase]
  rw [get?, Node.get?_append]
  rw [get?] at missing
  rw [missing]
  rfl

end Erase

end FileSystem

end KernelSpec
