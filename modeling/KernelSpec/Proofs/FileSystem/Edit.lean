import KernelSpec.Proofs.FileSystem.Tree

/-! # Changes at one place after another

Of two changes at one place the second wins (`put_put`, `erase_put`), a change below an object that
was just put changes that object (`put_append`), and an object that is put again where it was
missing before stands where it stood (`put_erase`). These are equalities of file systems, with the
order in which directories are enumerated.
-/

namespace KernelSpec

namespace Entries

variable (entries : Entries) (name : Name)

theorem erase_erase : (entries.erase name).erase name = entries.erase name := by
  simp [erase, List.filter_filter]

theorem erase_set (node : Node) : (entries.set name node).erase name = entries.erase name := by
  induction entries with
  | nil => simp [set, erase]
  | cons entry rest ih =>
    obtain ⟨other, old⟩ := entry
    rw [set]
    split
    · next same =>
      subst same
      have here : erase ((name, node) :: erase rest name) name = erase (erase rest name) name :=
        List.filter_cons_of_neg (by simp)
      have there : erase ((name, old) :: rest) name = erase rest name :=
        List.filter_cons_of_neg (by simp)
      rw [here, there, erase_erase]
    · next different =>
      have kept : ∀ others : Entries,
          erase ((other, old) :: others) name = (other, old) :: erase others name :=
        fun _ => List.filter_cons_of_pos (by simpa using Ne.symm different)
      rw [kept, kept, ih]

theorem set_set (first second : Node) :
    (entries.set name first).set name second = entries.set name second := by
  induction entries with
  | nil => simp [set, erase]
  | cons entry rest ih =>
    obtain ⟨other, old⟩ := entry
    rw [set]
    split
    · next same => simp [set, same, erase_erase]
    · next different => simp [set, different, ih]

variable {entries name}

theorem erase_of_missing (missing : entries.find? name = none) : entries.erase name = entries := by
  refine List.filter_eq_self.mpr fun entry mem => ?_
  induction entries with
  | nil => cases mem
  | cons first rest ih =>
    rw [find?] at missing
    split at missing
    · cases missing
    · next different =>
      obtain rfl | later := List.mem_cons.mp mem
      · simpa using Ne.symm different
      · exact ih missing later

/-- Changes the object of a name, if there is one. -/
def modify (entries : Entries) (name : Name) (change : Node → Node) : Entries :=
  match entries.find? name with
  | some node => entries.set name (change node)
  | none => entries

theorem modify_set (entries : Entries) (name : Name) (node : Node) (change : Node → Node) :
    (entries.set name node).modify name change = entries.set name (change node) := by
  rw [modify, find?_set, if_pos rfl]
  exact set_set entries name node (change node)

end Entries

namespace Node

theorem alter_alter (first second : Entries → Entries) (node : Node) (dir : Loc) :
    (node.alter first dir).alter second dir = node.alter (second ∘ first) dir := by
  induction dir generalizing node with
  | nil => cases node <;> rfl
  | cons name rest ih =>
    cases node with
    | file | link => rfl
    | dir entries =>
      simp only [alter]
      cases found : Entries.find? entries name with
      | none => simp [alter, found]
      | some child =>
        simp only [alter, Entries.find?_set, if_true, Entries.set_set, ih child]

/-- Only the entries that are there matter. -/
theorem alter_congr {first second : Entries → Entries} {node : Node} {dir : Loc}
    (same : ∀ entries, node.get? dir = some (.dir entries) → first entries = second entries) :
    node.alter first dir = node.alter second dir := by
  induction dir generalizing node with
  | nil =>
    cases node with
    | file | link => rfl
    | dir entries => simp only [alter, same entries rfl]
  | cons name rest ih =>
    cases node with
    | file | link => rfl
    | dir entries =>
      simp only [alter]
      cases found : Entries.find? entries name with
      | none => rfl
      | some child =>
        have inner : child.alter first rest = child.alter second rest := by
          refine ih fun entries here => same entries ?_
          rw [get?, found]
          exact here
        simp only [inner]

theorem alter_append (change : Entries → Entries) (node : Node) (dir : Loc) (name : Name)
    (rest : Loc) :
    node.alter change (dir ++ name :: rest) =
      node.alter (·.modify name (·.alter change rest)) dir := by
  induction dir generalizing node with
  | nil =>
    cases node with
    | file | link => rfl
    | dir entries =>
      simp only [List.nil_append, alter, Entries.modify]
      cases Entries.find? entries name <;> rfl
  | cons first dir ih =>
    cases node with
    | file | link => rfl
    | dir entries =>
      simp only [List.cons_append, alter]
      cases Entries.find? entries first with
      | none => rfl
      | some child => simp only [ih child]

end Node

namespace FileSystem

variable (fs : FileSystem) {place : Loc}

theorem put_put (place : Loc) (first second : Node) :
    (fs.put place first).put place second = fs.put place second := by
  obtain rfl | ⟨dir, name, rfl⟩ := List.eq_nil_or_concat place
  · simp [put, Node.put]
  · rw [List.concat_eq_append]
    simp only [put, Node.put_concat, Node.alter_alter]
    congr 1
    exact Node.alter_congr fun entries _ => Entries.set_set entries name first second

theorem erase_put (notRoot : place ≠ []) (node : Node) :
    (fs.put place node).erase place = fs.erase place := by
  obtain ⟨dir, name, rfl⟩ := (List.eq_nil_or_concat place).resolve_left notRoot
  rw [List.concat_eq_append]
  simp only [put, erase, Node.put_concat, Node.erase_concat, Node.alter_alter]
  congr 1
  exact Node.alter_congr fun entries _ => Entries.erase_set entries name node

/-- An object is put where it was missing, whether or not something was taken away there. -/
theorem put_erase {fs : FileSystem} (notRoot : place ≠ []) (missing : fs.get? place = none)
    (node : Node) : (fs.erase place).put place node = fs.put place node := by
  obtain ⟨dir, name, rfl⟩ := (List.eq_nil_or_concat place).resolve_left notRoot
  rw [List.concat_eq_append] at missing ⊢
  simp only [put, erase, Node.put_concat, Node.erase_concat, Node.alter_alter]
  congr 1
  refine Node.alter_congr fun entries found => ?_
  rw [get?_concat found] at missing
  simp only [Function.comp, Entries.erase_of_missing missing]

/-- A change below an object that was just put is a change of that object. -/
theorem put_append (notRoot : place ≠ []) (node new : Node) (name : Name) (rest : Loc) :
    (fs.put place node).put (place ++ name :: rest) new =
      fs.put place (node.put (name :: rest) new) := by
  obtain ⟨dir, top, rfl⟩ := (List.eq_nil_or_concat place).resolve_left notRoot
  obtain ⟨inner, last, split⟩ := (List.eq_nil_or_concat (name :: rest)).resolve_left (by simp)
  rw [split, List.concat_eq_append, List.concat_eq_append]
  have whole : dir ++ [top] ++ (inner ++ [last]) = dir ++ top :: inner ++ [last] := by simp
  rw [whole]
  simp only [put, Node.put_concat, Node.alter_append, Node.alter_alter]
  congr 1
  exact Node.alter_congr fun entries _ => Entries.modify_set entries top node _

end FileSystem

end KernelSpec
