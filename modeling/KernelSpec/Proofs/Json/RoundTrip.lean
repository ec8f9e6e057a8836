import KernelSpec.Proofs.Json.Reader
import KernelSpec.Proofs.Json.Sorting

/-! # Reading what was written

`read_write` says that a written value is read again as itself. It holds of the values that reading
can give (`Canonical`): members in order, not too deep, and integers of at most 64 bits. Other
numbers are left out, because a decimal fraction is not always read as the nearest number.
-/

namespace KernelSpec.Json

/-- An integer. Minus zero is spelled like one, though it is read as a real number. -/
def Number.IsInteger : Number → Prop
  | .integer _ => True
  | .real x => x = minusZero

mutual

/-- The numbers in a value, at any depth. -/
def Value.numbers : Value → List Number
  | .number n => [n]
  | .array items => numbersOfItems items
  | .object members => numbersOfMembers members
  | _ => []

def numbersOfItems : List Value → List Number
  | [] => []
  | v :: vs => v.numbers ++ numbersOfItems vs

def numbersOfMembers : List (String × Value) → List Number
  | [] => []
  | (_, v) :: members => v.numbers ++ numbersOfMembers members

end

theorem numbers_subset_items {v : Value} {vs : List Value} (mem : v ∈ vs) :
    v.numbers ⊆ numbersOfItems vs := by
  induction vs with
  | nil => cases mem
  | cons first vs ih =>
    rw [numbersOfItems]
    obtain rfl | later := List.mem_cons.mp mem
    · exact List.subset_append_left _ _
    · exact List.Subset.trans (ih later) (List.subset_append_right _ _)

theorem numbers_subset_members {entry : String × Value} {members : List (String × Value)}
    (mem : entry ∈ members) : entry.2.numbers ⊆ numbersOfMembers members := by
  induction members with
  | nil => cases mem
  | cons first members ih =>
    rw [numbersOfMembers]
    obtain rfl | later := List.mem_cons.mp mem
    · exact List.subset_append_left _ _
    · exact List.Subset.trans (ih later) (List.subset_append_right _ _)

/-- A value as reading gives it, with at most so many arrays and objects inside each other. -/
inductive Canonical : Nat → Value → Prop
  | null {depth : Nat} : Canonical depth .null
  | bool {depth : Nat} (b : Bool) : Canonical depth (.bool b)
  | integer {depth : Nat} {n : Int} (word : IsWord n) : Canonical depth (.number (.integer n))
  | minusZero {depth : Nat} : Canonical depth (.number (.real minusZero))
  | string {depth : Nat} (s : String) : Canonical depth (.string s)
  | array {depth : Nat} {vs : List Value} (items : ∀ v ∈ vs, Canonical depth v) :
      Canonical (depth + 1) (.array vs)
  | object {depth : Nat} {members : Dictionary Value} (ordered : members.Ordered)
      (values : ∀ entry ∈ members, Canonical depth entry.2) :
      Canonical (depth + 1) (.object members)

/-! ## What is read is canonical -/

section Read

variable {item : Spelling Value} {P : Value → Prop} (holds : ∀ ⦃cs v rest⦄, item cs v rest → P v)

include holds

theorem ArrayTail.forall_mem {cs rest : List Char} {vs : List Value}
    (tail : ArrayTail item cs vs rest) : ∀ v ∈ vs, P v := by
  induction tail with
  | close => simp
  | next _ _ _ head _ ih => exact List.forall_mem_cons.mpr ⟨holds head, ih⟩

theorem ArrayBody.forall_mem {cs rest : List Char} {vs : List Value}
    (body : ArrayBody item cs vs rest) : ∀ v ∈ vs, P v := by
  cases body with
  | empty => simp
  | items _ _ head tail => exact List.forall_mem_cons.mpr ⟨holds head, tail.forall_mem holds⟩

theorem Member.value {cs rest : List Char} {entry : String × Value}
    (member : Member item cs entry rest) : P entry.2 := by
  cases member with
  | mk _ _ spelled => exact holds spelled

theorem ObjectTail.forall_mem {members final : Dictionary Value} {cs rest : List Char}
    (tail : ObjectTail item members cs final rest) (before : ∀ entry ∈ members, P entry.2) :
    ∀ entry ∈ final, P entry.2 := by
  induction tail with
  | close => exact before
  | next _ _ head _ ih =>
    refine ih fun entry mem => ?_
    obtain rfl | old := Dictionary.mem_insert mem
    · exact head.value holds
    · exact before entry old

theorem ObjectBody.forall_mem {members : Dictionary Value} {cs rest : List Char}
    (body : ObjectBody item cs members rest) : ∀ entry ∈ members, P entry.2 := by
  cases body with
  | empty => simp
  | members _ head tail =>
    refine tail.forall_mem holds fun entry mem => ?_
    obtain rfl | none := Dictionary.mem_insert mem
    · exact head.value holds
    · cases none

end Read

theorem ObjectTail.ordered {item : Spelling Value} {members final : Dictionary Value}
    {cs rest : List Char} (tail : ObjectTail item members cs final rest)
    (before : members.Ordered) : final.Ordered := by
  induction tail with
  | close => exact before
  | next _ _ _ _ ih => exact ih (before.insert _ _)

theorem ObjectBody.ordered {item : Spelling Value} {members : Dictionary Value}
    {cs rest : List Char} (body : ObjectBody item cs members rest) : members.Ordered := by
  have empty : Dictionary.Ordered ([] : Dictionary Value) := List.Pairwise.nil
  cases body with
  | empty => exact empty
  | members _ _ tail => exact tail.ordered (empty.insert _ _)

theorem ValueOf.canonical {inner? : Option (Spelling Value)} {depth : Nat} {cs rest : List Char}
    {v : Value} (spelled : ValueOf inner? cs v rest) (integers : ∀ n ∈ v.numbers, n.IsInteger)
    (inner : ∀ item ∈ inner?, ∃ less, depth = less + 1 ∧ ∀ ⦃cs v rest⦄, item cs v rest →
      (∀ n ∈ v.numbers, n.IsInteger) → Canonical less v) : Canonical depth v := by
  cases spelled with
  | null => exact .null
  | yes => exact .bool true
  | no => exact .bool false
  | string => exact .string _
  | array _ opens body =>
    obtain ⟨less, rfl, canonical⟩ := inner _ opens
    refine .array fun v mem => ?_
    refine body.forall_mem canonical v mem fun n numbered => ?_
    exact integers n (numbers_subset_items mem numbered)
  | object _ opens body =>
    obtain ⟨less, rfl, canonical⟩ := inner _ opens
    refine .object body.ordered fun entry mem => ?_
    refine body.forall_mem canonical entry mem fun n numbered => ?_
    exact integers n (numbers_subset_members mem numbered)
  | @number _ _ _ _ n _ _ read =>
    cases n with
    | integer n => exact .integer (number_isWord read)
    | real x =>
      obtain rfl : x = minusZero := integers _ List.mem_cons_self
      exact .minusZero

theorem Spells.canonical {depth : Nat} {cs rest : List Char} {v : Value}
    (spelled : Spells depth cs v rest) (integers : ∀ n ∈ v.numbers, n.IsInteger) :
    Canonical depth v := by
  induction depth generalizing cs v rest with
  | zero => exact ValueOf.canonical spelled integers (by simp)
  | succ depth ih =>
    refine ValueOf.canonical spelled integers fun item opens => ⟨depth, rfl, ?_⟩
    cases opens
    exact fun _ _ _ spelled integers => ih spelled integers

/-! ## What is canonical is read again -/

theorem skipBlank_newline (level : Nat) (cs : List Char) :
    skipBlank (newline level ++ cs) = skipBlank cs := by
  have blanks : ∀ c ∈ newline level, isBlank c = true := by
    intro c mem
    obtain rfl | mem := List.mem_cons.mp mem
    · decide
    · rw [List.eq_of_mem_replicate mem]
      decide
  exact List.dropWhile_append_of_pos blanks

/-- Blanks before a value do not matter. -/
theorem ValueOf.of_skipBlank {inner? : Option (Spelling Value)} {cs other rest : List Char}
    {v : Value} (spelled : ValueOf inner? cs v rest) (same : skipBlank other = skipBlank cs) :
    ValueOf inner? other v rest := by
  cases spelled with
  | null found => exact .null (same.trans found)
  | yes found => exact .yes (same.trans found)
  | no found => exact .no (same.trans found)
  | string found body => exact .string (same.trans found) body
  | array found opens body => exact .array (same.trans found) opens body
  | object found opens body => exact .object (same.trans found) opens body
  | number found starts read => exact .number (same.trans found) starts read

/-- A value does not begin like the end of an array. -/
theorem ValueOf.starts {inner? : Option (Spelling Value)} {cs rest : List Char} {v : Value}
    (spelled : ValueOf inner? cs v rest) : ∃ c more, skipBlank cs = c :: more ∧ c ≠ ']' := by
  cases spelled with
  | null found | yes found | no found | string found | array found | object found =>
    exact ⟨_, _, found, by decide⟩
  | number found starts =>
    refine ⟨_, _, found, ?_⟩
    rintro rfl
    exact absurd starts (by decide)

/-- The texts of elements: blanks before them do not matter, and none begins like the end of an
array. -/
structure OfElements {α : Type} (item : Spelling α) : Prop where
  of_skipBlank : ∀ ⦃cs other : List Char⦄ ⦃a : α⦄ ⦃rest : List Char⦄, item cs a rest →
    skipBlank other = skipBlank cs → item other a rest
  starts : ∀ ⦃cs : List Char⦄ ⦃a : α⦄ ⦃rest : List Char⦄, item cs a rest →
    ∃ c more, skipBlank cs = c :: more ∧ c ≠ ']'

theorem spells_ofElements (depth : Nat) : OfElements (Spells depth) := by
  cases depth <;> exact
    ⟨fun _ _ _ _ spelled same => ValueOf.of_skipBlank spelled same,
      fun _ _ _ spelled => ValueOf.starts spelled⟩

theorem endsNumber_cons {c : Char} (other : isNumberChar c = false) (cs : List Char) :
    EndsNumber (c :: cs) := by
  intro d head
  cases head
  exact other

theorem endsNumber_newline (level : Nat) (cs : List Char) : EndsNumber (newline level ++ cs) :=
  endsNumber_cons (by decide) _

section Written

variable {α : Type} {item : Spelling α} (f : Value → α)

/-- The text of a value is related to what is made of the value, before anything that ends a
number. -/
def Written (item : Spelling α) (level : Nat) (v : Value) (a : α) : Prop :=
  ∀ ⦃rest : List Char⦄, EndsNumber rest → item (writeValue level v ++ rest) a rest

theorem endsNumber_writeItems (level close : Nat) (vs : List Value) (rest : List Char) :
    EndsNumber (writeItems level vs ++ (newline close ++ rest)) := by
  cases vs with
  | nil => exact endsNumber_newline close rest
  | cons v vs => exact endsNumber_cons (by decide) _

theorem endsNumber_writeMembers (level close : Nat) (members : List (String × Value))
    (rest : List Char) : EndsNumber (writeMembers level members ++ (newline close ++ rest)) := by
  cases members with
  | nil => exact endsNumber_newline close rest
  | cons member members => exact endsNumber_cons (by decide) _

/-- The reader looks at the first character of an element to see that it is no bracket. -/
theorem OfElements.first (elements : OfElements item) {cs rest : List Char} {a : α}
    (holds : item cs a rest) :
    ∃ c more, skipBlank cs = c :: more ∧ c ≠ ']' ∧ item (c :: more) a rest := by
  obtain ⟨c, more, found, other⟩ := elements.starts holds
  refine ⟨c, more, found, other, elements.of_skipBlank holds ?_⟩
  rw [← found, skipBlank_idem]

theorem arrayTail_write (elements : OfElements item) {level : Nat} (close : Nat) {vs : List Value}
    (written : ∀ v ∈ vs, Written item level v (f v)) (rest : List Char) :
    ArrayTail item (writeItems level vs ++ (newline close ++ ']' :: rest)) (vs.map f) rest := by
  induction vs with
  | nil => exact .close (skipBlank_newline close _)
  | cons v vs ih =>
    obtain ⟨here, later⟩ := List.forall_mem_cons.mp written
    obtain ⟨c, more, found, other, holds⟩ :=
      elements.first (here (endsNumber_writeItems level close vs (']' :: rest)))
    have text : writeItems level (v :: vs) ++ (newline close ++ ']' :: rest) =
        ',' :: (newline level ++ (writeValue level v ++
          (writeItems level vs ++ (newline close ++ ']' :: rest)))) := by
      simp [writeItems]
    rw [text]
    exact .next rfl ((skipBlank_newline level _).trans found) other holds (ih later)

theorem arrayBody_write (elements : OfElements item) {level : Nat} {vs : List Value}
    (written : ∀ v ∈ vs, Written item (level + 1) v (f v)) (rest : List Char) :
    ∃ mid, writeValue level (.array vs) ++ rest = '[' :: mid ∧
      ArrayBody item mid (vs.map f) rest := by
  cases vs with
  | nil => exact ⟨']' :: rest, by simp [writeValue], .empty rfl⟩
  | cons v vs =>
    obtain ⟨here, later⟩ := List.forall_mem_cons.mp written
    obtain ⟨c, more, found, other, holds⟩ :=
      elements.first (here (endsNumber_writeItems (level + 1) level vs (']' :: rest)))
    have text : writeValue level (.array (v :: vs)) ++ rest =
        '[' :: (newline (level + 1) ++ (writeValue (level + 1) v ++
          (writeItems (level + 1) vs ++ (newline level ++ ']' :: rest)))) := by
      simp [writeValue]
    exact ⟨_, text, .items ((skipBlank_newline _ _).trans found) other holds
      (arrayTail_write f elements level later rest)⟩

theorem stringBody_escapeChars (s : String) (rest : List Char) :
    StringBody (escapeChars s.toList ++ '"' :: rest) s.toList rest := by
  have body : StringBody (escapeChars s.toList ++ '"' :: rest) (s.toList ++ []) rest :=
    (StringBody.close rest).escapeChars_append s.toList
  rwa [List.append_nil] at body

theorem writeValue_string_append (level : Nat) (s : String) (rest : List Char) :
    writeValue level (.string s) ++ rest = '"' :: (escapeChars s.toList ++ '"' :: rest) := by
  simp [writeValue, writeString]

/-- A member is spelled by its name in quotes, a colon, a blank and its value. -/
theorem member_write (elements : OfElements item) {level : Nat} {name : String} {v : Value} {a : α}
    (written : Written item level v a) {rest : List Char} (ends : EndsNumber rest) :
    Member item (escapeChars name.toList ++ '"' :: ':' :: ' ' :: (writeValue level v ++ rest))
      (name, a) rest :=
  .mk (stringBody_escapeChars name _) rfl (elements.of_skipBlank (written ends) rfl)

theorem membersTail_write (elements : OfElements item) {level : Nat} (close : Nat)
    {members : List (String × Value)}
    (written : ∀ entry ∈ members, Written item level entry.2 (f entry.2)) (rest : List Char) :
    MembersTail item (writeMembers level members ++ (newline close ++ '\x7d' :: rest))
      (members.map fun entry => (entry.1, f entry.2)) rest := by
  induction members with
  | nil => exact .close (skipBlank_newline close _)
  | cons entry members ih =>
    obtain ⟨here, later⟩ := List.forall_mem_cons.mp written
    have text : writeMembers level (entry :: members) ++ (newline close ++ '\x7d' :: rest) =
        ',' :: (newline level ++ ('"' :: (escapeChars entry.1.toList ++ '"' :: ':' :: ' ' ::
          (writeValue level entry.2 ++ (writeMembers level members ++
            (newline close ++ '\x7d' :: rest)))))) := by
      simp [writeMembers, writeString]
    rw [text]
    exact .next rfl (skipBlank_newline level _)
      (member_write elements here (endsNumber_writeMembers level close members _)) (ih later)

theorem membersBody_write (elements : OfElements item) {level : Nat}
    {members : List (String × Value)}
    (written : ∀ entry ∈ members, Written item (level + 1) entry.2 (f entry.2))
    (rest : List Char) :
    ∃ mid, writeValue level (.object members) ++ rest = '\x7b' :: mid ∧
      MembersBody item mid (members.map fun entry => (entry.1, f entry.2)) rest := by
  cases members with
  | nil => exact ⟨'\x7d' :: rest, by simp [writeValue], .empty rfl⟩
  | cons entry members =>
    obtain ⟨here, later⟩ := List.forall_mem_cons.mp written
    have text : writeValue level (.object (entry :: members)) ++ rest =
        '\x7b' :: (newline (level + 1) ++ ('"' :: (escapeChars entry.1.toList ++ '"' :: ':' ::
          ' ' :: (writeValue (level + 1) entry.2 ++ (writeMembers (level + 1) members ++
            (newline level ++ '\x7d' :: rest)))))) := by
      simp [writeValue, writeString]
    exact ⟨_, text, .members (skipBlank_newline _ _)
      (member_write elements here (endsNumber_writeMembers (level + 1) level members _))
      (membersTail_write f elements level later rest)⟩

end Written

theorem isNumberChar_of_isBlank {c : Char} (blank : isBlank c = true) :
    isNumberChar c = false := by
  simp only [isBlank, Bool.or_eq_true, beq_iff_eq] at blank
  obtain ((rfl | rfl) | rfl) | rfl := blank <;> decide

theorem isNumberChar_of_startsNumber {c : Char} (starts : startsNumber c = true) :
    isNumberChar c = true := by
  simp only [startsNumber, Bool.or_eq_true, beq_iff_eq] at starts
  obtain rfl | digit := starts
  · decide
  · exact isNumberChar_of_isDigit digit

/-- What a number is made of is no blank. -/
theorem skipBlank_of_isNumberChar {c : Char} (char : isNumberChar c = true) (cs : List Char) :
    skipBlank (c :: cs) = c :: cs :=
  List.dropWhile_cons_of_neg fun blank =>
    absurd char (Bool.eq_false_iff.mp (isNumberChar_of_isBlank blank))

theorem writeInteger_starts (n : Int) :
    ∃ c more, writeInteger n = c :: more ∧ startsNumber c = true := by
  unfold writeInteger
  split
  · exact ⟨'-', _, rfl, by decide⟩
  · cases digits : Nat.toDigits 10 n.natAbs with
    | nil => exact absurd digits Nat.toDigits_ne_nil
    | cons d ds =>
      have isDigit : d.isDigit = true :=
        Nat.isDigit_of_mem_toDigits (b := 10) (n := n.natAbs) (by decide) (by decide)
          (by simp [digits])
      exact ⟨d, ds, rfl, by simp [startsNumber, isDigit]⟩

theorem valueOf_number {inner? : Option (Spelling Value)} {text more rest : List Char} {c : Char}
    {n : Number} (first : text = c :: more) (starts : startsNumber c = true)
    (read : number (text ++ rest) = .ok (n, rest)) :
    ValueOf inner? (text ++ rest) (.number n) rest := by
  subst first
  exact .number (skipBlank_of_isNumberChar (isNumberChar_of_startsNumber starts) _) starts read

/-- The spelling of a value that holds no other does not depend on the depth. -/
theorem Spells.of_valueOf {cs rest : List Char} {v : Value}
    (spelled : ∀ inner?, ValueOf inner? cs v rest) (depth : Nat) : Spells depth cs v rest := by
  cases depth <;> exact spelled _

theorem spells_writeString (depth level : Nat) (s : String) :
    Written (Spells depth) level (.string s) (.string s) := by
  intro rest _
  rw [writeValue_string_append]
  exact .of_valueOf (fun _ => .string rfl (stringBody_escapeChars s rest)) depth

theorem spells_writeArray {depth level : Nat} {vs : List Value}
    (written : ∀ v ∈ vs, Written (Spells depth) (level + 1) v v) :
    Written (Spells (depth + 1)) level (.array vs) (.array vs) := by
  intro rest _
  obtain ⟨mid, text, body⟩ := arrayBody_write id (spells_ofElements depth) written rest
  rw [List.map_id] at body
  rw [text]
  exact ValueOf.array rfl rfl body

theorem spells_writeObject {depth level : Nat} {members : Dictionary Value}
    (ordered : members.Ordered)
    (written : ∀ entry ∈ members, Written (Spells depth) (level + 1) entry.2 entry.2) :
    Written (Spells (depth + 1)) level (.object members) (.object members) := by
  intro rest _
  obtain ⟨mid, text, body⟩ := membersBody_write id (spells_ofElements depth) written rest
  rw [show (fun entry : String × Value => (entry.1, id entry.2)) = id from rfl, List.map_id] at body
  rw [text]
  -- Members are read by inserting them, which changes nothing as they were written in order.
  exact ValueOf.object rfl rfl
    (objectBody_iff.mpr ⟨members, body, Dictionary.ofEntries_of_ordered ordered⟩)

theorem Canonical.written {depth : Nat} {v : Value} (canonical : Canonical depth v) (level : Nat) :
    Written (Spells depth) level v v := by
  induction canonical generalizing level with
  | null => exact fun rest _ => .of_valueOf (fun _ => .null rfl) _
  | bool b =>
    intro rest _
    cases b with
    | true => exact .of_valueOf (fun _ => .yes rfl) _
    | false => exact .of_valueOf (fun _ => .no rfl) _
  | @integer _ n word =>
    intro rest ends
    obtain ⟨c, more, first, starts⟩ := writeInteger_starts n
    exact .of_valueOf (fun _ => valueOf_number first starts (number_writeInteger word ends)) _
  | minusZero =>
    intro rest ends
    have first : writeReal Json.minusZero = '-' :: ['0', '.', '0'] := rfl
    exact .of_valueOf
      (fun _ => valueOf_number first (by decide) (number_writeReal_minusZero ends)) _
  | string s => exact spells_writeString _ level s
  | array _ ih => exact spells_writeArray fun v mem => ih v mem (level + 1)
  | object ordered _ ih =>
    exact spells_writeObject ordered fun entry mem => ih entry mem (level + 1)

theorem Canonical.sorted {depth : Nat} {v : Value} (canonical : Canonical depth v) : v.Sorted := by
  induction canonical with
  | null => exact .null
  | bool b => exact .bool b
  | integer | minusZero => exact .number _
  | string s => exact .string s
  | array _ ih => exact .array ih
  | object ordered _ ih => exact .object ordered ih

/-- A written value is read again as itself. -/
theorem read_write {v : Value} (canonical : Canonical maxDepth v) : read (write v) = .ok v := by
  have spelled := canonical.written 0 endsNumber_nil
  rw [List.append_nil] at spelled
  refine read_eq_ok_iff.mpr ⟨[], ?_, rfl⟩
  rwa [write, canonical.sorted.sortKeys, String.toList_ofList]

end KernelSpec.Json
