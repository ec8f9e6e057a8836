import KernelSpec.Proofs.Json.RoundTrip

/-! # Texts as trees

A tree is what a text says before it is made a value: the members of an object stand in the order
of the text, also where a name is repeated, and a number is the characters that spell it. Blanks
and the spelling of strings are left out. A text that is read gives the value of its tree
(`Document.value`), and the text written for a value has the tree with the members in order, also
where the value lists them in another one (`document_write`).
-/

namespace KernelSpec.Json

/-- The content of a text. -/
inductive Tree where
  | null
  | bool (value : Bool)
  | number (numeral : List Char)
  | string (value : String)
  | array (items : List Tree)
  | object (members : List (String × Tree))

/-- The trees of texts. The numeral of a number is any run of characters that numbers are made of,
as long as it goes. -/
inductive Shows : Spelling Tree
  | null {cs rest : List Char} (found : skipBlank cs = 'n' :: 'u' :: 'l' :: 'l' :: rest) :
      Shows cs .null rest
  | yes {cs rest : List Char} (found : skipBlank cs = 't' :: 'r' :: 'u' :: 'e' :: rest) :
      Shows cs (.bool true) rest
  | no {cs rest : List Char} (found : skipBlank cs = 'f' :: 'a' :: 'l' :: 's' :: 'e' :: rest) :
      Shows cs (.bool false) rest
  | string {cs mid rest : List Char} {s : String} (found : skipBlank cs = '"' :: mid)
      (body : StringBody mid s.toList rest) : Shows cs (.string s) rest
  | array {cs mid rest : List Char} {items : List Tree} (found : skipBlank cs = '[' :: mid)
      (body : ArrayBody Shows mid items rest) : Shows cs (.array items) rest
  | object {cs mid rest : List Char} {members : List (String × Tree)}
      (found : skipBlank cs = '\x7b' :: mid) (body : MembersBody Shows mid members rest) :
      Shows cs (.object members) rest
  | number {cs more rest : List Char} {c : Char} (found : skipBlank cs = c :: (more ++ rest))
      (chars : ∀ d ∈ c :: more, isNumberChar d = true) (ends : EndsNumber rest) :
      Shows cs (.number (c :: more)) rest

/-- A text with nothing but blanks around its tree. -/
def Document (t : Tree) (text : String) : Prop :=
  ∃ rest, Shows text.toList t rest ∧ skipBlank rest = []

/-! ## The value of a tree -/

/-- The number that characters spell, and zero if they spell none. -/
def numeralValue (numeral : List Char) : Number :=
  ((number numeral).toOption.map Prod.fst).getD (.integer 0)

mutual

/-- The value of a tree: of a repeated name the last value counts. -/
def Tree.value : Tree → Value
  | .null => .null
  | .bool b => .bool b
  | .number numeral => .number (numeralValue numeral)
  | .string s => .string s
  | .array items => .array (valuesOfItems items)
  | .object members => .object (Dictionary.ofEntries (valuesOfMembers members))

def valuesOfItems : List Tree → List Value
  | [] => []
  | t :: ts => t.value :: valuesOfItems ts

def valuesOfMembers : List (String × Tree) → List (String × Value)
  | [] => []
  | (name, t) :: members => (name, t.value) :: valuesOfMembers members

end

theorem valuesOfItems_eq (items : List Tree) : valuesOfItems items = items.map Tree.value := by
  induction items with
  | nil => rfl
  | cons t ts ih => rw [valuesOfItems, ih, List.map_cons]

theorem valuesOfMembers_eq (members : List (String × Tree)) :
    valuesOfMembers members = members.map fun entry => (entry.1, entry.2.value) := by
  induction members with
  | nil => rfl
  | cons entry members ih => rw [valuesOfMembers, ih, List.map_cons]

theorem endsNumber_of_skipBlank {cs more : List Char} {c : Char} (found : skipBlank cs = c :: more)
    (other : isNumberChar c = false) : EndsNumber cs := by
  cases cs with
  | nil => cases found
  | cons d ds =>
    by_cases blank : isBlank d = true
    · exact endsNumber_cons (isNumberChar_of_isBlank blank) ds
    · rw [skipBlank, List.dropWhile_cons_of_neg blank] at found
      cases found
      exact endsNumber_cons other _

theorem ArrayTail.endsNumber {α : Type} {item : Spelling α} {cs rest : List Char} {as : List α}
    (tail : ArrayTail item cs as rest) : EndsNumber cs := by
  cases tail with
  | close ends => exact endsNumber_of_skipBlank ends (by decide)
  | next comma => exact endsNumber_of_skipBlank comma (by decide)

theorem MembersTail.endsNumber {α : Type} {item : Spelling α} {cs rest : List Char}
    {entries : List (String × α)} (tail : MembersTail item cs entries rest) : EndsNumber cs := by
  cases tail with
  | close ends => exact endsNumber_of_skipBlank ends (by decide)
  | next comma => exact endsNumber_of_skipBlank comma (by decide)

theorem StringBody.unique {cs ds es rest left : List Char} (body : StringBody cs ds rest)
    (other : StringBody cs es left) : ds = es ∧ rest = left := by
  have read := stringBody_complete body (Nat.le_refl _)
  rw [stringBody_complete other (Nat.le_refl _)] at read
  cases read
  exact ⟨rfl, rfl⟩

section Agree

/-- What one relation shows of a text is what the other reads of it, as far as the text after it
cannot be a part of a number. -/
def Agree {α β : Type} (f : α → β) (shown : Spelling α) (read : Spelling β) : Prop :=
  ∀ ⦃cs : List Char⦄ ⦃a : α⦄ ⦃rest : List Char⦄ ⦃b : β⦄ ⦃left : List Char⦄,
    shown cs a rest → read cs b left → EndsNumber left → left = rest ∧ f a = b

variable {α β : Type} {f : α → β} {shown : Spelling α} {read : Spelling β}
  (agree : Agree f shown read)

include agree

theorem arrayTail_agree {cs rest left : List Char} {as : List α} {bs : List β}
    (tail : ArrayTail shown cs as rest) (other : ArrayTail read cs bs left) :
    left = rest ∧ as.map f = bs := by
  induction tail generalizing bs with
  | close ends =>
    cases other with
    | close ends' =>
      cases ends.symm.trans ends'
      exact ⟨rfl, rfl⟩
    | next comma => cases ends.symm.trans comma
  | next comma starts _ head _ ih =>
    cases other with
    | close ends => cases comma.symm.trans ends
    | next comma' starts' _ head' tail' =>
      cases comma.symm.trans comma'
      cases starts.symm.trans starts'
      obtain ⟨rfl, rfl⟩ := agree head head' tail'.endsNumber
      obtain ⟨rfl, rfl⟩ := ih tail'
      exact ⟨rfl, rfl⟩

theorem arrayBody_agree {cs rest left : List Char} {as : List α} {bs : List β}
    (body : ArrayBody shown cs as rest) (other : ArrayBody read cs bs left) :
    left = rest ∧ as.map f = bs := by
  rcases body with ends | ⟨starts, goesOn, head, tail⟩
  · rcases other with ends' | ⟨starts', goesOn', _, _⟩
    · cases ends.symm.trans ends'
      exact ⟨rfl, rfl⟩
    · cases ends.symm.trans starts'
      exact absurd rfl goesOn'
  · rcases other with ends' | ⟨starts', _, head', tail'⟩
    · cases starts.symm.trans ends'
      exact absurd rfl goesOn
    · cases starts.symm.trans starts'
      obtain ⟨rfl, rfl⟩ := agree head head' tail'.endsNumber
      obtain ⟨rfl, rfl⟩ := arrayTail_agree agree tail tail'
      exact ⟨rfl, rfl⟩

theorem member_agree : Agree (fun entry : String × α => (entry.1, f entry.2)) (Member shown)
    (Member read) := by
  rintro cs _ rest _ left ⟨named, colon, holds⟩ ⟨named', colon', holds'⟩ ends
  obtain ⟨names, rfl⟩ := named.unique named'
  cases colon.symm.trans colon'
  obtain ⟨rfl, rfl⟩ := agree holds holds' ends
  rw [String.toList_inj.mp names]
  exact ⟨rfl, rfl⟩

theorem membersTail_agree {cs rest left : List Char} {as : List (String × α)}
    {bs : List (String × β)} (tail : MembersTail shown cs as rest)
    (other : MembersTail read cs bs left) :
    left = rest ∧ (as.map fun entry => (entry.1, f entry.2)) = bs := by
  induction tail generalizing bs with
  | close ends =>
    cases other with
    | close ends' =>
      cases ends.symm.trans ends'
      exact ⟨rfl, rfl⟩
    | next comma => cases ends.symm.trans comma
  | next comma starts head _ ih =>
    cases other with
    | close ends => cases comma.symm.trans ends
    | next comma' starts' head' tail' =>
      cases comma.symm.trans comma'
      cases starts.symm.trans starts'
      obtain ⟨rfl, rfl⟩ := member_agree agree head head' tail'.endsNumber
      obtain ⟨rfl, rfl⟩ := ih tail'
      exact ⟨rfl, rfl⟩

theorem membersBody_agree {cs rest left : List Char} {as : List (String × α)}
    {bs : List (String × β)} (body : MembersBody shown cs as rest)
    (other : MembersBody read cs bs left) :
    left = rest ∧ (as.map fun entry => (entry.1, f entry.2)) = bs := by
  rcases body with ends | ⟨starts, head, tail⟩
  · rcases other with ends' | ⟨starts', _, _⟩
    · cases ends.symm.trans ends'
      exact ⟨rfl, rfl⟩
    · cases ends.symm.trans starts'
  · rcases other with ends' | ⟨starts', head', tail'⟩
    · cases starts.symm.trans ends'
    · cases starts.symm.trans starts'
      obtain ⟨rfl, rfl⟩ := member_agree agree head head' tail'.endsNumber
      obtain ⟨rfl, rfl⟩ := membersTail_agree agree tail tail'
      exact ⟨rfl, rfl⟩

end Agree

/-- What a tree is that begins with the given character. -/
def ShownFrom (c : Char) (more : List Char) (t : Tree) (rest : List Char) : Prop :=
  match c with
  | 'n' => t = .null ∧ more = 'u' :: 'l' :: 'l' :: rest
  | 't' => t = .bool true ∧ more = 'r' :: 'u' :: 'e' :: rest
  | 'f' => t = .bool false ∧ more = 'a' :: 'l' :: 's' :: 'e' :: rest
  | '"' => ∃ s : String, t = .string s ∧ StringBody more s.toList rest
  | '[' => ∃ items, t = .array items ∧ ArrayBody Shows more items rest
  | '\x7b' => ∃ members, t = .object members ∧ MembersBody Shows more members rest
  | c => ∃ run, t = .number (c :: run) ∧ more = run ++ rest ∧ EndsNumber rest ∧
      ∀ d ∈ c :: run, isNumberChar d = true

theorem shownFrom_number {c : Char} (char : isNumberChar c = true) (more : List Char) (t : Tree)
    (rest : List Char) : ShownFrom c more t rest ↔
      ∃ run, t = .number (c :: run) ∧ more = run ++ rest ∧ EndsNumber rest ∧
        ∀ d ∈ c :: run, isNumberChar d = true := by
  unfold ShownFrom
  split
  case h_7 => rfl
  all_goals exact absurd char (by decide)

theorem Shows.inv {cs more rest : List Char} {c : Char} {t : Tree} (shown : Shows cs t rest)
    (found : skipBlank cs = c :: more) : ShownFrom c more t rest := by
  cases shown with
  | null found' | yes found' | no found' =>
    cases found.symm.trans found'
    exact ⟨rfl, rfl⟩
  | string found' body | array found' body | object found' body =>
    cases found.symm.trans found'
    exact ⟨_, rfl, body⟩
  | number found' chars ends =>
    cases found.symm.trans found'
    apply (shownFrom_number (chars _ List.mem_cons_self) _ _ _).mpr
    exact ⟨_, rfl, rfl, ends, chars⟩

theorem takeWhile_run {run rest : List Char} (chars : ∀ d ∈ run, isNumberChar d = true)
    (ends : EndsNumber rest) : (run ++ rest).takeWhile isNumberChar = run := by
  rw [List.takeWhile_append_of_pos chars]
  cases rest with
  | nil => rw [List.takeWhile_nil, List.append_nil]
  | cons c rest =>
    rw [List.takeWhile_cons_of_neg (Bool.eq_false_iff.mp (ends c rfl)), List.append_nil]

/-- A number that is read is the whole run, and is read from the run alone. -/
theorem number_run {run rest left : List Char} {c : Char} {n : Number}
    (read : number (c :: (run ++ rest)) = .ok (n, left))
    (chars : ∀ d ∈ c :: run, isNumberChar d = true) (ends : EndsNumber rest)
    (ends' : EndsNumber left) : left = rest ∧ numeralValue (c :: run) = n := by
  rw [← List.cons_append] at read
  obtain ⟨used, whole, chars', again⟩ := number_local _ read
  have same : used = c :: run := by
    rw [← takeWhile_run chars' ends', ← whole, takeWhile_run chars ends]
  subst same
  have alone := again [] (.inr endsNumber_nil)
  rw [List.append_nil] at alone
  refine ⟨(List.append_cancel_left whole).symm, ?_⟩
  rw [numeralValue, alone]
  rfl

theorem agree_valueOf {inner? : Option (Spelling Value)}
    (inner : ∀ item ∈ inner?, Agree Tree.value Shows item) :
    Agree Tree.value Shows (ValueOf inner?) := by
  intro cs t rest v left shown spelled ends
  cases spelled with
  | null found | yes found | no found =>
    obtain ⟨rfl, same⟩ := shown.inv found
    cases same
    exact ⟨rfl, rfl⟩
  | string found body =>
    obtain ⟨s, rfl, body'⟩ := shown.inv found
    obtain ⟨same, rfl⟩ := body.unique body'
    rw [String.toList_inj.mp same]
    exact ⟨rfl, rfl⟩
  | array found opens body =>
    obtain ⟨items, rfl, body'⟩ := shown.inv found
    obtain ⟨rfl, rfl⟩ := arrayBody_agree (inner _ opens) body' body
    rw [Tree.value, valuesOfItems_eq]
    exact ⟨rfl, rfl⟩
  | object found opens body =>
    obtain ⟨members, rfl, body'⟩ := shown.inv found
    obtain ⟨entries, listed, rfl⟩ := objectBody_iff.mp body
    obtain ⟨rfl, rfl⟩ := membersBody_agree (inner _ opens) body' listed
    rw [Tree.value, valuesOfMembers_eq]
    exact ⟨rfl, rfl⟩
  | number found starts read =>
    obtain ⟨run, rfl, rfl, ends', chars⟩ :=
      (shownFrom_number (isNumberChar_of_startsNumber starts) _ _ _).mp (shown.inv found)
    obtain ⟨rfl, rfl⟩ := number_run read chars ends' ends
    exact ⟨rfl, rfl⟩

theorem agree_spells (depth : Nat) : Agree Tree.value Shows (Spells depth) := by
  induction depth with
  | zero => exact agree_valueOf (by simp)
  | succ depth ih => exact agree_valueOf (by simpa using ih)

theorem endsNumber_of_blank {cs : List Char} (blank : skipBlank cs = []) : EndsNumber cs := by
  cases cs with
  | nil => exact endsNumber_nil
  | cons c cs =>
    have first : isBlank c = true := List.dropWhile_eq_nil_iff.mp blank c List.mem_cons_self
    exact endsNumber_cons (isNumberChar_of_isBlank first) cs

/-- Reading a text gives the value of its tree. -/
theorem Document.value {t : Tree} {text : String} {v : Value} (document : Document t text)
    (read : read text = .ok v) : t.value = v := by
  obtain ⟨rest, shown, _⟩ := document
  obtain ⟨left, spelled, blank⟩ := read_eq_ok_iff.mp read
  exact (agree_spells maxDepth shown spelled (endsNumber_of_blank blank)).2

section Shown

/-- What is read is also shown, as far as the text after it cannot be a part of a number. -/
def Shown {α β : Type} (read : Spelling β) (shown : Spelling α) : Prop :=
  ∀ ⦃cs : List Char⦄ ⦃b : β⦄ ⦃left : List Char⦄, read cs b left → EndsNumber left →
    ∃ a, shown cs a left

variable {α β : Type} {shown : Spelling α} {read : Spelling β} (each : Shown read shown)

include each

theorem arrayTail_shown {cs left : List Char} {bs : List β} (tail : ArrayTail read cs bs left) :
    ∃ as, ArrayTail shown cs as left := by
  induction tail with
  | close ends => exact ⟨[], .close ends⟩
  | next comma starts goesOn head tail ih =>
    obtain ⟨a, head'⟩ := each head tail.endsNumber
    obtain ⟨as, tail'⟩ := ih
    exact ⟨a :: as, .next comma starts goesOn head' tail'⟩

theorem arrayBody_shown {cs left : List Char} {bs : List β} (body : ArrayBody read cs bs left) :
    ∃ as, ArrayBody shown cs as left := by
  rcases body with ends | ⟨starts, goesOn, head, tail⟩
  · exact ⟨[], .empty ends⟩
  · obtain ⟨a, head'⟩ := each head tail.endsNumber
    obtain ⟨as, tail'⟩ := arrayTail_shown each tail
    exact ⟨a :: as, .items starts goesOn head' tail'⟩

theorem member_shown : Shown (Member read) (Member shown) := by
  rintro cs _ left ⟨named, colon, holds⟩ ends
  obtain ⟨a, holds'⟩ := each holds ends
  exact ⟨_, .mk named colon holds'⟩

theorem membersTail_shown {cs left : List Char} {bs : List (String × β)}
    (tail : MembersTail read cs bs left) : ∃ as, MembersTail shown cs as left := by
  induction tail with
  | close ends => exact ⟨[], .close ends⟩
  | next comma starts head tail ih =>
    obtain ⟨a, head'⟩ := member_shown each head tail.endsNumber
    obtain ⟨as, tail'⟩ := ih
    exact ⟨a :: as, .next comma starts head' tail'⟩

theorem membersBody_shown {cs left : List Char} {bs : List (String × β)}
    (body : MembersBody read cs bs left) : ∃ as, MembersBody shown cs as left := by
  rcases body with ends | ⟨starts, head, tail⟩
  · exact ⟨[], .empty ends⟩
  · obtain ⟨a, head'⟩ := member_shown each head tail.endsNumber
    obtain ⟨as, tail'⟩ := membersTail_shown each tail
    exact ⟨a :: as, .members starts head' tail'⟩

end Shown

theorem shown_valueOf {inner? : Option (Spelling Value)}
    (inner : ∀ item ∈ inner?, Shown item Shows) : Shown (ValueOf inner?) Shows := by
  intro cs v left spelled ends
  cases spelled with
  | null found => exact ⟨_, .null found⟩
  | yes found => exact ⟨_, .yes found⟩
  | no found => exact ⟨_, .no found⟩
  | string found body => exact ⟨_, .string found body⟩
  | array found opens body =>
    obtain ⟨items, body'⟩ := arrayBody_shown (inner _ opens) body
    exact ⟨_, .array found body'⟩
  | object found opens body =>
    obtain ⟨_, listed, _⟩ := objectBody_iff.mp body
    obtain ⟨members, body'⟩ := membersBody_shown (inner _ opens) listed
    exact ⟨_, .object found body'⟩
  | number found starts read =>
    obtain ⟨used, whole, chars, _⟩ := number_local _ read
    cases used with
    | nil =>
      have shorter := number_length_lt read
      rw [whole] at shorter
      exact absurd shorter (Nat.lt_irrefl _)
    | cons c run =>
      cases whole
      exact ⟨_, .number found chars ends⟩

/-- Every text that is read has a tree. -/
theorem exists_document {text : String} {v : Value} (read : read text = .ok v) :
    ∃ t, Document t text := by
  have shown (depth : Nat) : Shown (Spells depth) Shows := by
    induction depth with
    | zero => exact shown_valueOf (by simp)
    | succ depth ih => exact shown_valueOf (by simpa using ih)
  obtain ⟨left, spelled, blank⟩ := read_eq_ok_iff.mp read
  obtain ⟨t, tree⟩ := shown maxDepth spelled (endsNumber_of_blank blank)
  exact ⟨t, left, tree, blank⟩

/-! ## The tree of what is written -/

theorem isDigit_ofGrid (n : Nat) (e : Int) :
    ∀ c ∈ (Decimal.ofGrid n e).digits, c.isDigit = true := by
  intro c mem
  have written : c ∈ Nat.toDigits 10 n :=
    List.mem_reverse.mp ((List.dropWhile_sublist _).subset (List.mem_reverse.mp mem))
  exact Nat.isDigit_of_mem_toDigits (by decide) (by decide) written

theorem isDigit_shortest (x : Binary64) : ∀ c ∈ (Decimal.shortest x).digits, c.isDigit = true := by
  have grid : ∃ n e, Decimal.shortest x = Decimal.ofGrid n e := by
    unfold Decimal.shortest
    dsimp only
    generalize sought : List.findSome? _ _ = found
    cases found with
    | none => exact ⟨0, 0, rfl⟩
    | some d =>
      obtain ⟨count, _, hit⟩ := List.exists_of_findSome?_eq_some sought
      obtain ⟨n, _, same⟩ := Option.map_eq_some_iff.mp hit
      exact ⟨n, _, same.symm⟩
  obtain ⟨n, e, same⟩ := grid
  rw [same]
  exact isDigit_ofGrid n e

theorem all_of_isDigit {cs : List Char} (digits : ∀ c ∈ cs, c.isDigit = true) :
    cs.all isNumberChar = true :=
  List.all_eq_true.mpr fun c mem => isNumberChar_of_isDigit (digits c mem)

theorem all_toDigits (n : Nat) : (Nat.toDigits 10 n).all isNumberChar = true :=
  all_of_isDigit fun _ mem => Nat.isDigit_of_mem_toDigits (by decide) (by decide) mem

theorem all_layout {d : Decimal} (digits : ∀ c ∈ d.digits, c.isDigit = true) :
    layout d ≠ [] ∧ (layout d).all isNumberChar = true := by
  have some := all_of_isDigit digits
  have taken (n : Nat) : (d.digits.take n).all isNumberChar = true :=
    all_of_isDigit fun c mem => digits c (List.mem_of_mem_take mem)
  have dropped (n : Nat) : (d.digits.drop n).all isNumberChar = true :=
    all_of_isDigit fun c mem => digits c (List.mem_of_mem_drop mem)
  have zeros (n : Nat) : (List.replicate n '0').all isNumberChar = true :=
    all_of_isDigit fun c mem => List.eq_of_mem_replicate mem ▸ by decide
  have marks : isNumberChar '0' = true ∧ isNumberChar '.' = true ∧ isNumberChar 'e' = true ∧
      isNumberChar '+' = true ∧ isNumberChar '-' = true := by decide
  unfold layout
  dsimp only
  split_ifs <;>
    simp only [ne_eq, List.append_eq_nil_iff, List.cons_ne_nil, and_false, not_false_eq_true,
      true_and, List.cons_append, List.all_append, List.all_cons, List.all_nil, Bool.and_true,
      some, taken, dropped, zeros, marks, all_toDigits]

theorem all_writeNumber (n : Number) :
    writeNumber n ≠ [] ∧ (writeNumber n).all isNumberChar = true := by
  cases n with
  | integer n =>
    rw [writeNumber, writeInteger]
    refine ⟨fun empty => Nat.toDigits_ne_nil (List.append_eq_nil_iff.mp empty).2, ?_⟩
    rw [List.all_append, all_toDigits]
    split <;> decide
  | real x =>
    obtain ⟨some, chars⟩ := all_layout (isDigit_shortest x)
    have marks : isNumberChar '0' = true ∧ isNumberChar '.' = true ∧ isNumberChar '-' = true := by
      decide
    rw [writeNumber, writeReal]
    split_ifs <;> simp [some, chars, marks]

mutual

/-- The tree of the text that is written for a value. -/
def Value.tree : Value → Tree
  | .null => .null
  | .bool b => .bool b
  | .number n => .number (writeNumber n)
  | .string s => .string s
  | .array items => .array (treesOfItems items)
  | .object members => .object (treesOfMembers members)

def treesOfItems : List Value → List Tree
  | [] => []
  | v :: vs => v.tree :: treesOfItems vs

def treesOfMembers : List (String × Value) → List (String × Tree)
  | [] => []
  | (name, v) :: members => (name, v.tree) :: treesOfMembers members

end

theorem treesOfItems_eq (items : List Value) : treesOfItems items = items.map Value.tree := by
  induction items with
  | nil => rfl
  | cons v vs ih => rw [treesOfItems, ih, List.map_cons]

theorem treesOfMembers_eq (members : List (String × Value)) :
    treesOfMembers members = members.map fun entry => (entry.1, entry.2.tree) := by
  induction members with
  | nil => rfl
  | cons entry members ih => rw [treesOfMembers, ih, List.map_cons]

theorem ValueOf.sorted {inner? : Option (Spelling Value)} {cs rest : List Char} {v : Value}
    (spelled : ValueOf inner? cs v rest)
    (inner : ∀ item ∈ inner?, ∀ ⦃cs v rest⦄, item cs v rest → v.Sorted) : v.Sorted := by
  cases spelled with
  | null => exact .null
  | yes => exact .bool true
  | no => exact .bool false
  | string => exact .string _
  | array _ opens body => exact .array (body.forall_mem (inner _ opens))
  | object _ opens body => exact .object body.ordered (body.forall_mem (inner _ opens))
  | number => exact .number _

theorem Spells.sorted {depth : Nat} {cs rest : List Char} {v : Value}
    (spelled : Spells depth cs v rest) : v.Sorted := by
  induction depth generalizing cs v rest with
  | zero => exact ValueOf.sorted spelled (by simp)
  | succ depth ih =>
    refine ValueOf.sorted spelled fun item opens => ?_
    cases opens
    exact fun _ _ _ spelled => ih spelled

theorem shows_ofElements : OfElements Shows := by
  constructor
  · intro cs other t rest shown same
    cases shown with
    | null found => exact .null (same.trans found)
    | yes found => exact .yes (same.trans found)
    | no found => exact .no (same.trans found)
    | string found body => exact .string (same.trans found) body
    | array found body => exact .array (same.trans found) body
    | object found body => exact .object (same.trans found) body
    | number found chars ends => exact .number (same.trans found) chars ends
  · intro cs t rest shown
    cases shown with
    | null found | yes found | no found | string found | array found | object found =>
      exact ⟨_, _, found, by decide⟩
    | number found chars =>
      refine ⟨_, _, found, ?_⟩
      rintro rfl
      exact absurd (chars _ List.mem_cons_self) (by decide)

theorem shows_writeNumber (level : Nat) (n : Number) :
    Written Shows level (.number n) (.number (writeNumber n)) := by
  intro rest ends
  obtain ⟨some, chars⟩ := all_writeNumber n
  rw [writeValue]
  cases run : writeNumber n with
  | nil => exact absurd run some
  | cons c more =>
    rw [run, List.all_eq_true] at chars
    exact .number (skipBlank_of_isNumberChar (chars c List.mem_cons_self) _) chars ends

/-- The text of a value shows its tree. -/
theorem Value.Sorted.written {v : Value} (sorted : v.Sorted) (level : Nat) :
    Written Shows level v v.tree := by
  induction sorted generalizing level with
  | null => exact fun rest _ => .null rfl
  | bool b =>
    cases b with
    | true => exact fun rest _ => .yes rfl
    | false => exact fun rest _ => .no rfl
  | number n => exact shows_writeNumber level n
  | string s =>
    intro rest _
    rw [writeValue_string_append]
    exact .string rfl (stringBody_escapeChars s rest)
  | array _ ih =>
    intro rest _
    obtain ⟨mid, text, body⟩ := arrayBody_write Value.tree shows_ofElements
      (fun v mem => ih v mem (level + 1)) rest
    rw [text, Value.tree, treesOfItems_eq]
    exact .array rfl body
  | object _ _ ih =>
    intro rest _
    obtain ⟨mid, text, body⟩ := membersBody_write Value.tree shows_ofElements
      (fun entry mem => ih entry mem (level + 1)) rest
    rw [text, Value.tree, treesOfMembers_eq]
    exact .object rfl body

theorem sorted_of_read {text : String} {v : Value} (parsed : read text = .ok v) : v.Sorted := by
  obtain ⟨_, spelled, _⟩ := read_eq_ok_iff.mp parsed
  exact spelled.sorted

/-- What is written for a sorted value, in whatever order its members are given, is a document with
the tree of the sorted value. -/
theorem document_write {v w : Value} (sorted : v.Sorted) (same : v.Reordered w) :
    Document v.tree (write w) := by
  have shown := sorted.written 0 endsNumber_nil
  rw [List.append_nil] at shown
  refine ⟨[], ?_, rfl⟩
  rwa [write, same.sortKeys sorted, String.toList_ofList]

end KernelSpec.Json
