import KernelSpec.Proofs.Json.Tree
import KernelSpec.Proofs.Text.Bytes

/-! # One text for one content

Texts whose trees differ only in the order of members have the same value, as long as no object
repeats a name (`Reordered.value`). Writing sorts the members of objects itself. So such texts are
written as one and the same text, in whatever order their members are kept in between, and in it the
names of every object stand in the order of their bytes (`write_eq_of_reordered`).
-/

namespace KernelSpec.Json

namespace Tree

/-- The names of every object, at any depth, have the property. -/
inductive Everywhere (P : List String → Prop) : Tree → Prop
  | null : Everywhere P .null
  | bool (b : Bool) : Everywhere P (.bool b)
  | number (numeral : List Char) : Everywhere P (.number numeral)
  | string (s : String) : Everywhere P (.string s)
  | array {items : List Tree} (each : ∀ t ∈ items, Everywhere P t) : Everywhere P (.array items)
  | object {members : List (String × Tree)} (names : P (members.map Prod.fst))
      (each : ∀ entry ∈ members, Everywhere P entry.2) : Everywhere P (.object members)

/-- The same content with the members of objects in another order, at any depth. Numerals may
differ if they are read as the same number. -/
inductive Reordered : Tree → Tree → Prop
  | null : Reordered .null .null
  | bool (b : Bool) : Reordered (.bool b) (.bool b)
  | number {numeral other : List Char} (same : Json.number numeral = Json.number other) :
      Reordered (.number numeral) (.number other)
  | string (s : String) : Reordered (.string s) (.string s)
  | array {pairs : List (Tree × Tree)} (each : ∀ pair ∈ pairs, Reordered pair.1 pair.2) :
      Reordered (.array (pairs.map Prod.fst)) (.array (pairs.map Prod.snd))
  | object {pairs : List (String × Tree × Tree)} {others : List (String × Tree)}
      (each : ∀ entry ∈ pairs, Reordered entry.2.1 entry.2.2)
      (order : (pairs.map fun entry => (entry.1, entry.2.2)).Perm others) :
      Reordered (.object (pairs.map fun entry => (entry.1, entry.2.1))) (.object others)

end Tree

/-- Each name has smaller bytes than those after it. -/
def Increasing (names : List String) : Prop :=
  names.Pairwise fun a b => Bytes.ofString a < Bytes.ofString b

/-- The order of members does not matter to the value where no name is repeated. -/
theorem Tree.Reordered.value {s t : Tree} (same : s.Reordered t)
    (distinct : s.Everywhere List.Nodup) : s.value = t.value := by
  induction same with
  | null | bool | string => rfl
  | number same => rw [Tree.value, Tree.value, numeralValue, numeralValue, same]
  | array _ ih =>
    cases distinct with
    | array each =>
      rw [Tree.value, Tree.value, valuesOfItems_eq, valuesOfItems_eq, List.map_map, List.map_map]
      congr 1
      exact List.map_congr_left fun pair mem => ih pair mem (each _ (List.mem_map_of_mem mem))
  | @object pairs others _ order ih =>
    cases distinct with
    | object names each =>
      have values : (pairs.map fun entry => (entry.1, entry.2.1.value)) =
          pairs.map fun entry => (entry.1, entry.2.2.value) :=
        List.map_congr_left fun entry mem =>
          congrArg (Prod.mk entry.1) (ih entry mem (each _ (List.mem_map_of_mem mem)))
      have unique : ((pairs.map fun entry => (entry.1, entry.2.2.value)).map Prod.fst).Nodup := by
        simpa [Function.comp_def] using names
      have listed : (pairs.map fun entry => (entry.1, entry.2.2.value)).Perm
          (others.map fun entry => (entry.1, entry.2.value)) := by
        simpa [Function.comp_def] using order.map fun entry => (entry.1, entry.2.value)
      rw [Tree.value, Tree.value, valuesOfMembers_eq, valuesOfMembers_eq, List.map_map]
      exact congrArg Value.object
        ((congrArg Dictionary.ofEntries values).trans (Dictionary.ofEntries_perm listed unique))

theorem Value.Sorted.increasing {v : Value} (sorted : v.Sorted) : v.tree.Everywhere Increasing := by
  induction sorted with
  | null => exact .null
  | bool b => exact .bool b
  | number n => exact .number _
  | string s => exact .string s
  | array _ ih =>
    rw [Value.tree, treesOfItems_eq]
    refine .array fun t mem => ?_
    obtain ⟨v, found, rfl⟩ := List.mem_map.mp mem
    exact ih v found
  | object ordered _ ih =>
    rw [Value.tree, treesOfMembers_eq]
    refine .object ?_ fun entry mem => ?_
    · rw [List.map_map]
      apply List.pairwise_map.mpr
      exact ordered.imp fun less => Bytes.ofString_lt_ofString less
    · obtain ⟨member, found, rfl⟩ := List.mem_map.mp mem
      exact ih member found

/-- Every text that is read has a tree. Take texts whose trees are the same up to the order of
members, so that they differ at most in blanks, in the spelling of strings and in that order. Once
they are read they are written as one text, whether the members of objects, at any depth, are left
as reading has them (`Value.Reordered.refl`) or are in any other order by then. That text has the tree of the value, in which the names of every
object stand in the order of their bytes. -/
theorem write_eq_of_reordered {first second : String} {v w : Value} (parsed : read first = .ok v)
    (parsed' : read second = .ok w) :
    (∃ s, Document s first) ∧
      (∀ s t : Tree, Document s first → Document t second → s.Everywhere List.Nodup →
        s.Reordered t → ∀ v' w' : Value, v.Reordered v' → w.Reordered w' → write v' = write w') ∧
      v.tree.Everywhere Increasing ∧
      ∀ v' : Value, v.Reordered v' → Document v.tree (write v') := by
  have sorted : v.Sorted := sorted_of_read parsed
  refine ⟨exists_document parsed, ?_, sorted.increasing, fun v' => document_write sorted⟩
  intro s t shown shown' distinct same v' w' kept kept'
  have values : v = w := by
    rw [← shown.value parsed, ← shown'.value parsed', same.value distinct]
  rw [write, write, kept.sortKeys sorted, kept'.sortKeys (sorted_of_read parsed'), values]

/-- The names of the outer object stand in the order of the alphabet, which is not that of their
bytes. -/
def shuffledText : String :=
  "\x7b\"\\u00E9\": [\x7b\"b\": 1, \"a\": null\x7d], \"z\": \"\\u0041\"\x7d"

def shuffledTree : Tree :=
  .object [("é", .array [.object [("b", .number ['1']), ("a", .null)]]), ("z", .string "A")]

def orderedText : String :=
  "\x7b \"z\" :\"A\",\"é\":[\x7b\"a\":null,\"b\":1\x7d ]\x7d "

def orderedTree : Tree :=
  .object [("z", .string "A"), ("é", .array [.object [("a", .null), ("b", .number ['1'])]])]

theorem shuffled_document : Document shuffledTree shuffledText :=
  ⟨[], .object rfl (.members rfl
    (.mk (quoted_eq_ok_iff.mp rfl) rfl (.array rfl (.items rfl (by decide)
      (.object rfl (.members rfl
        (.mk (quoted_eq_ok_iff.mp rfl) rfl
          (.number rfl (by simp [isNumberChar]) (endsNumber_cons (by decide) _)))
        (.next rfl rfl (.mk (quoted_eq_ok_iff.mp rfl) rfl (.null rfl)) (.close rfl))))
      (.close rfl))))
    (.next rfl rfl (.mk (quoted_eq_ok_iff.mp rfl) rfl (.string rfl (quoted_eq_ok_iff.mp rfl)))
      (.close rfl))), rfl⟩

theorem ordered_document : Document orderedTree orderedText :=
  ⟨[' '], .object rfl (.members rfl
    (.mk (quoted_eq_ok_iff.mp rfl) rfl (.string rfl (quoted_eq_ok_iff.mp rfl)))
    (.next rfl rfl
      (.mk (quoted_eq_ok_iff.mp rfl) rfl (.array rfl (.items rfl (by decide)
        (.object rfl (.members rfl
          (.mk (quoted_eq_ok_iff.mp rfl) rfl (.null rfl))
          (.next rfl rfl
            (.mk (quoted_eq_ok_iff.mp rfl) rfl
              (.number rfl (by simp [isNumberChar]) (endsNumber_cons (by decide) _)))
            (.close rfl))))
        (.close rfl))))
      (.close rfl))), rfl⟩

theorem shuffled_reordered : shuffledTree.Reordered orderedTree := by
  have inner : Tree.Reordered (.object [("b", .number ['1']), ("a", .null)])
      (.object [("a", .null), ("b", .number ['1'])]) := by
    apply @Tree.Reordered.object [("b", .number ['1'], .number ['1']), ("a", .null, .null)]
    · simp [Tree.Reordered.null, Tree.Reordered.number]
    · exact List.Perm.swap _ _ _
  have items : Tree.Reordered (.array [.object [("b", .number ['1']), ("a", .null)]])
      (.array [.object [("a", .null), ("b", .number ['1'])]]) := by
    apply @Tree.Reordered.array [(_, _)]
    simpa using inner
  apply @Tree.Reordered.object [("é", _, _), ("z", .string "A", .string "A")]
  · simpa [Tree.Reordered.string] using items
  · exact List.Perm.swap _ _ _

theorem shuffled_distinct : shuffledTree.Everywhere List.Nodup := by
  have inner : Tree.Everywhere List.Nodup (.object [("b", .number ['1']), ("a", .null)]) :=
    .object (by decide) (by simp [Tree.Everywhere.number, Tree.Everywhere.null])
  have items : Tree.Everywhere List.Nodup (.array [.object [("b", .number ['1']), ("a", .null)]]) :=
    .array (by simpa using inner)
  exact .object (by decide) (by simpa [Tree.Everywhere.string] using items)

def orderedValue : Value :=
  .object [("z", .string "A"),
    ("é", .array [.object [("a", .null), ("b", .number (.integer 1))]])]

/-- The value with its members as the shuffled text lists them. -/
def shuffledValue : Value :=
  .object [("é", .array [.object [("b", .number (.integer 1)), ("a", .null)]]),
    ("z", .string "A")]

theorem ordered_reordered : orderedValue.Reordered shuffledValue := by
  have inner : Value.Reordered (.object [("a", .null), ("b", .number (.integer 1))])
      (.object [("b", .number (.integer 1)), ("a", .null)]) := by
    apply @Value.Reordered.object [("a", .null, .null),
      ("b", .number (.integer 1), .number (.integer 1))]
    · simp [Value.Reordered.null, Value.Reordered.number]
    · exact List.Perm.swap _ _ _
  have items : Value.Reordered (.array [.object [("a", .null), ("b", .number (.integer 1))]])
      (.array [.object [("b", .number (.integer 1)), ("a", .null)]]) := by
    apply @Value.Reordered.array [(_, _)]
    simpa using inner
  apply @Value.Reordered.object [("z", .string "A", .string "A"), ("é", _, _)]
  · simpa [Value.Reordered.string] using items
  · exact List.Perm.swap _ _ _

theorem write_eq_of_reordered_shuffled :
    read shuffledText = .ok orderedValue ∧ read orderedText = .ok orderedValue ∧
      write shuffledValue = write orderedValue ∧
      Document orderedValue.tree (write shuffledValue) ∧
      orderedValue.tree.Everywhere Increasing := by
  have parsed : read shuffledText = .ok orderedValue := by cbv
  have parsed' : read orderedText = .ok orderedValue := by cbv
  obtain ⟨_, same, increasing, written⟩ := write_eq_of_reordered parsed parsed'
  exact ⟨parsed, parsed', same _ _ shuffled_document ordered_document shuffled_distinct
    shuffled_reordered _ _ ordered_reordered (.refl _), written _ ordered_reordered, increasing⟩

end KernelSpec.Json
