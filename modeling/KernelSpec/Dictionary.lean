/-! # Dictionaries

A dictionary lists its entries in increasing order of the names, each name once. The order is that
of code points, which is also the order of the UTF-8 bytes. `insert` keeps both properties
(`Ordered.insert`) and is described by what `get?` finds afterwards (`get?_insert`). What `get?`
finds determines the dictionary (`Ordered.ext`), so entries with different names can be inserted in
any order (`ofEntries_perm`). A list of entries that is in no order is sorted by `sortEntries`.
-/

namespace KernelSpec

/-- Names with values, in increasing order of the names. -/
abbrev Dictionary (α : Type) := List (String × α)

namespace Dictionary

variable {α : Type}

/-- The value of a name. -/
def get? : Dictionary α → String → Option α
  | [], _ => none
  | (name, value) :: rest, wanted => if wanted = name then some value else get? rest wanted

/-- Gives the name a value, in the place of the one it had. -/
def insert (name : String) (value : α) : Dictionary α → Dictionary α
  | [] => [(name, value)]
  | (other, old) :: rest =>
    if name = other then (name, value) :: rest
    else if name < other then (name, value) :: (other, old) :: rest
    else (other, old) :: insert name value rest

/-- Inserts the entries of a list one after another, so that the last of a repeated name counts. -/
def ofEntries (entries : List (String × α)) : Dictionary α :=
  entries.foldl (fun d entry => insert entry.1 entry.2 d) []

/-- Puts an entry in front of the first one whose name is not smaller. -/
def placeEntry (entry : String × α) : List (String × α) → List (String × α)
  | [] => [entry]
  | other :: rest =>
    if entry.1 ≤ other.1 then entry :: other :: rest else other :: placeEntry entry rest

/-- The entries in the order of their names; of one name, in the order they were listed. -/
def sortEntries (entries : List (String × α)) : List (String × α) := entries.foldr placeEntry []

/-- Every name is smaller than the names after it. -/
def Ordered (d : Dictionary α) : Prop := d.Pairwise fun a b => a.1 < b.1

instance (d : Dictionary α) : Decidable (Ordered d) :=
  inferInstanceAs (Decidable (d.Pairwise fun a b => a.1 < b.1))

theorem get?_insert (name : String) (value : α) (d : Dictionary α) (wanted : String) :
    get? (insert name value d) wanted = if wanted = name then some value else get? d wanted := by
  induction d with
  | nil => simp [insert, get?]
  | cons entry rest ih =>
    obtain ⟨other, old⟩ := entry
    simp only [insert]
    split
    · next same =>
      subst same
      by_cases found : wanted = name <;> simp [get?, found]
    · split
      · simp [get?]
      · next different _ =>
        by_cases found : wanted = other
        · subst found
          simp [get?, Ne.symm different]
        · simp [get?, found, ih]

/-- A value that is given twice is the second one. -/
theorem insert_insert (name : String) (first second : α) (d : Dictionary α) :
    insert name second (insert name first d) = insert name second d := by
  induction d with
  | nil => simp [insert]
  | cons entry rest ih =>
    obtain ⟨other, old⟩ := entry
    by_cases same : name = other
    · simp [insert, same]
    · by_cases less : name < other <;> simp [insert, same, less, ih]

theorem mem_of_get? {d : Dictionary α} {name : String} {value : α}
    (found : d.get? name = some value) : (name, value) ∈ d := by
  induction d with
  | nil => cases found
  | cons entry rest ih =>
    obtain ⟨other, old⟩ := entry
    rw [get?] at found
    split at found
    · next same =>
      cases found
      rw [same]
      exact List.mem_cons_self
    · exact List.mem_cons_of_mem _ (ih found)

theorem get?_eq_none_of_less {d : Dictionary α} {name : String}
    (less : ∀ entry ∈ d, name < entry.1) : d.get? name = none := by
  cases found : d.get? name with
  | none => rfl
  | some value => exact absurd (less _ (mem_of_get? found)) (String.lt_irrefl _)

theorem mem_insert {name : String} {value : α} {d : Dictionary α} {entry : String × α}
    (mem : entry ∈ insert name value d) : entry = (name, value) ∨ entry ∈ d := by
  induction d with
  | nil => simpa [insert] using mem
  | cons head rest ih =>
    obtain ⟨other, old⟩ := head
    simp only [insert] at mem
    split at mem
    · rcases List.mem_cons.mp mem with found | found
      · exact .inl found
      · exact .inr (List.mem_cons_of_mem _ found)
    · split at mem
      · exact List.mem_cons.mp mem
      · rcases List.mem_cons.mp mem with found | found
        · exact .inr (found ▸ List.mem_cons_self)
        · rcases ih found with found | found
          · exact .inl found
          · exact .inr (List.mem_cons_of_mem _ found)

theorem mem_names_insert {name : String} {value : α} {d : Dictionary α} {wanted : String} :
    wanted ∈ (insert name value d).map Prod.fst ↔ wanted = name ∨ wanted ∈ d.map Prod.fst := by
  induction d with
  | nil => simp [insert]
  | cons head rest ih =>
    obtain ⟨other, old⟩ := head
    simp only [insert]
    split
    · next same => simp [same]
    · split
      · simp
      · simp only [List.map_cons, List.mem_cons, ih]
        exact or_left_comm

theorem Ordered.insert {d : Dictionary α} (ordered : Ordered d) (name : String) (value : α) :
    Ordered (insert name value d) := by
  induction d with
  | nil => simp [Dictionary.insert, Ordered]
  | cons head rest ih =>
    obtain ⟨other, old⟩ := head
    obtain ⟨below, tail⟩ := List.pairwise_cons.mp ordered
    simp only [Dictionary.insert]
    split
    · next same =>
      subst same
      exact List.pairwise_cons.mpr ⟨fun entry mem => below entry mem, tail⟩
    · split
      · next smaller =>
        refine List.pairwise_cons.mpr ⟨fun entry mem => ?_, ordered⟩
        rcases List.mem_cons.mp mem with rfl | mem
        · exact smaller
        · exact String.lt_trans smaller (below entry mem)
      · next different notSmaller =>
        refine List.pairwise_cons.mpr ⟨fun entry mem => ?_, ih tail⟩
        rcases mem_insert mem with rfl | mem
        · exact Decidable.byContradiction fun notLess =>
            different (String.le_antisymm (String.not_lt.mp notLess) (String.not_lt.mp notSmaller))
        · exact below entry mem

/-- A name below the first one is not found. -/
theorem Ordered.get?_of_lt {first : String} {value : α} {rest : Dictionary α}
    (ordered : Ordered ((first, value) :: rest)) {name : String} (less : name < first) :
    get? ((first, value) :: rest) name = none := by
  refine get?_eq_none_of_less fun entry mem => ?_
  rcases List.mem_cons.mp mem with rfl | mem
  · exact less
  · exact String.lt_trans less (List.rel_of_pairwise_cons ordered mem)

/-- A dictionary is given by what is found in it. -/
theorem Ordered.ext {d e : Dictionary α} (ordered : Ordered d) (ordered' : Ordered e)
    (same : ∀ name, d.get? name = e.get? name) : d = e := by
  induction d generalizing e with
  | nil =>
    rcases e with _ | ⟨⟨name, value⟩, rest⟩
    · rfl
    · have found := same name
      simp [get?] at found
  | cons head rest ih =>
    obtain ⟨name, value⟩ := head
    have here : e.get? name = some value := by rw [← same name, get?, if_pos rfl]
    rcases e with _ | ⟨⟨name', value'⟩, rest'⟩
    · cases here
    have here' : get? ((name, value) :: rest) name' = some value' := by
      rw [same name', get?, if_pos rfl]
    -- The smaller of two different first names would be missing on the other side.
    have names : name = name' := by
      refine String.le_antisymm (String.not_lt.mp fun less => ?_) (String.not_lt.mp fun less => ?_)
      · rw [ordered.get?_of_lt less] at here'
        cases here'
      · rw [ordered'.get?_of_lt less] at here
        cases here
    subst names
    rw [get?, if_pos rfl] at here
    cases here
    obtain ⟨below, tail⟩ := List.pairwise_cons.mp ordered
    obtain ⟨below', tail'⟩ := List.pairwise_cons.mp ordered'
    have rests : ∀ wanted, get? rest wanted = get? rest' wanted := by
      intro wanted
      by_cases first : wanted = name
      · rw [first, get?_eq_none_of_less below, get?_eq_none_of_less below']
      · simpa [get?, first] using same wanted
    rw [ih tail tail' rests]

/-! ## Dictionaries of lists of entries -/

theorem ordered_foldl_insert {β : Type} (f : β → α) (entries : Dictionary β) {d : Dictionary α}
    (ordered : Ordered d) :
    Ordered (entries.foldl (fun d entry => insert entry.1 (f entry.2) d) d) := by
  induction entries generalizing d with
  | nil => exact ordered
  | cons entry entries ih => exact ih (ordered.insert _ _)

theorem ordered_ofEntries (entries : List (String × α)) : Ordered (ofEntries entries) :=
  ordered_foldl_insert id entries List.Pairwise.nil

theorem get?_eq_none_of_notMem {d : Dictionary α} {name : String}
    (missing : name ∉ d.map Prod.fst) : d.get? name = none := by
  cases found : d.get? name with
  | none => rfl
  | some value => exact absurd (List.mem_map.mpr ⟨_, mem_of_get? found, rfl⟩) missing

theorem get?_append (d e : Dictionary α) (name : String) :
    get? (d ++ e) name = (get? d name).or (get? e name) := by
  induction d with
  | nil => rfl
  | cons entry rest ih =>
    rw [List.cons_append, get?, get?, ih]
    split <;> rfl

/-- Of the values that are inserted for a name, the last one is found. -/
theorem get?_foldl_insert {β : Type} (f : β → α) (entries : Dictionary β) (d : Dictionary α)
    (name : String) :
    get? (entries.foldl (fun d entry => insert entry.1 (f entry.2) d) d) name =
      ((get? entries.reverse name).map f).or (get? d name) := by
  induction entries generalizing d with
  | nil => rfl
  | cons entry entries ih =>
    rw [List.foldl_cons, ih, get?_insert, List.reverse_cons, get?_append, get?, get?]
    cases get? entries.reverse name with
    | some value => rfl
    | none => by_cases same : name = entry.1 <;> simp [same]

theorem get?_reverse {d : Dictionary α} (unique : (d.map Prod.fst).Nodup) (name : String) :
    get? d.reverse name = get? d name := by
  induction d with
  | nil => rfl
  | cons entry rest ih =>
    obtain ⟨fresh, unique⟩ := List.nodup_cons.mp unique
    rw [List.reverse_cons, get?_append, ih unique, get?, get?, get?]
    by_cases same : name = entry.1
    · rw [if_pos same, if_pos same, same, get?_eq_none_of_notMem fresh]
      rfl
    · rw [if_neg same, if_neg same, Option.or_none]

theorem get?_ofEntries_last (entries : List (String × α)) (name : String) :
    (ofEntries entries).get? name = get? entries.reverse name := by
  have last := get?_foldl_insert id entries [] name
  rw [Option.map_id, get?, Option.or_none] at last
  exact last

/-- Where no name is repeated, what is found is what was listed. -/
theorem get?_ofEntries {entries : List (String × α)} (unique : (entries.map Prod.fst).Nodup)
    (name : String) : (ofEntries entries).get? name = get? entries name := by
  rw [get?_ofEntries_last, get?_reverse unique]

theorem get?_of_mem {d : Dictionary α} (unique : (d.map Prod.fst).Nodup) {name : String} {value : α}
    (mem : (name, value) ∈ d) : d.get? name = some value := by
  induction d with
  | nil => cases mem
  | cons entry rest ih =>
    obtain ⟨fresh, unique⟩ := List.nodup_cons.mp unique
    rcases List.mem_cons.mp mem with rfl | later
    · rw [get?, if_pos rfl]
    · have other : name ≠ entry.1 := by
        rintro rfl
        exact fresh (List.mem_map.mpr ⟨_, later, rfl⟩)
      rw [get?, if_neg other, ih unique later]

/-- Where no name is repeated, the order of the list does not matter. -/
theorem ofEntries_perm {entries others : List (String × α)} (order : entries.Perm others)
    (unique : (entries.map Prod.fst).Nodup) : ofEntries entries = ofEntries others := by
  have unique' : (others.map Prod.fst).Nodup := (order.map Prod.fst).nodup_iff.mp unique
  refine (ordered_ofEntries entries).ext (ordered_ofEntries others) fun name => ?_
  rw [get?_ofEntries unique, get?_ofEntries unique']
  apply Option.ext
  intro value
  constructor
  · exact fun found => get?_of_mem unique' (order.mem_iff.mp (mem_of_get? found))
  · exact fun found => get?_of_mem unique (order.mem_iff.mpr (mem_of_get? found))

theorem Ordered.nodup {d : Dictionary α} (ordered : Ordered d) : (d.map Prod.fst).Nodup := by
  apply List.pairwise_map.mpr
  refine List.Pairwise.imp ?_ ordered
  intro a b less same
  rw [same] at less
  exact String.lt_irrefl _ less

/-- A dictionary is the one of its own entries. -/
theorem ofEntries_of_ordered {d : Dictionary α} (ordered : Ordered d) : ofEntries d = d :=
  (ordered_ofEntries d).ext ordered (get?_ofEntries ordered.nodup)

end Dictionary

end KernelSpec
