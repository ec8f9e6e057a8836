import KernelSpec.Json.Writer
import Mathlib

/-! # Sorting the members of objects

`sortKeys` reaches the objects at every depth, through arrays and objects. What is sorted already
stays as it is (`Value.Sorted.sortKeys`), and the members of a sorted value can be given in any
order: sorting finds the value again (`Value.Reordered.sortKeys`).
-/

namespace KernelSpec

namespace Dictionary

variable {α : Type}

theorem placeEntry_eq (entry : String × α) (entries : List (String × α)) :
    placeEntry entry entries = entries.orderedInsert (fun a b => a.1 ≤ b.1) entry := by
  induction entries with
  | nil => rfl
  | cons other rest ih => rw [placeEntry, List.orderedInsert_cons, ih]

theorem sortEntries_eq (entries : List (String × α)) :
    sortEntries entries = entries.insertionSort fun a b => a.1 ≤ b.1 := by
  induction entries with
  | nil => rfl
  | cons entry entries ih =>
    rw [List.insertionSort_cons, ← ih, ← placeEntry_eq]
    rfl

/-- Entries in any order are sorted to the one dictionary that has them. -/
theorem sortEntries_of_perm {entries : List (String × α)} {d : Dictionary α}
    (order : entries.Perm d) (ordered : Ordered d) : sortEntries entries = d := by
  have listed : (sortEntries entries).Perm d := by
    rw [sortEntries_eq]
    exact (List.perm_insertionSort _ entries).trans order
  have rising : (sortEntries entries).Pairwise fun a b => a.1 ≤ b.1 := by
    rw [sortEntries_eq]
    exact List.pairwise_insertionSort (fun a b : String × α => a.1 ≤ b.1) entries
  have distinct : ((sortEntries entries).map Prod.fst).Nodup :=
    (listed.map Prod.fst).nodup_iff.mpr ordered.nodup
  have strict : Ordered (sortEntries entries) :=
    rising.imp₂ (fun _ _ le ne => lt_of_le_of_ne le ne) (List.pairwise_map.mp distinct)
  exact listed.eq_of_pairwise (fun a b _ _ less more => absurd more (lt_asymm less)) strict ordered

end Dictionary

namespace Json

theorem sortItems_eq (vs : List Value) : sortItems vs = vs.map sortKeys := by
  induction vs with
  | nil => rfl
  | cons v vs ih => rw [sortItems, ih, List.map_cons]

theorem sortMembers_eq (members : List (String × Value)) :
    sortMembers members = members.map fun entry => (entry.1, sortKeys entry.2) := by
  induction members with
  | nil => rfl
  | cons entry members ih => rw [sortMembers, ih, List.map_cons]

namespace Value

/-- The members of every object, at any depth, are in order. -/
inductive Sorted : Value → Prop
  | null : Sorted .null
  | bool (b : Bool) : Sorted (.bool b)
  | number (n : Number) : Sorted (.number n)
  | string (s : String) : Sorted (.string s)
  | array {vs : List Value} (items : ∀ v ∈ vs, Sorted v) : Sorted (.array vs)
  | object {members : Dictionary Value} (ordered : members.Ordered)
      (values : ∀ entry ∈ members, Sorted entry.2) : Sorted (.object members)

/-- The same value with the members of objects in another order, at any depth. -/
inductive Reordered : Value → Value → Prop
  | null : Reordered .null .null
  | bool (b : Bool) : Reordered (.bool b) (.bool b)
  | number (n : Number) : Reordered (.number n) (.number n)
  | string (s : String) : Reordered (.string s) (.string s)
  | array {pairs : List (Value × Value)} (each : ∀ pair ∈ pairs, Reordered pair.1 pair.2) :
      Reordered (.array (pairs.map Prod.fst)) (.array (pairs.map Prod.snd))
  | object {pairs : List (String × Value × Value)} {others : List (String × Value)}
      (each : ∀ entry ∈ pairs, Reordered entry.2.1 entry.2.2)
      (order : (pairs.map fun entry => (entry.1, entry.2.2)).Perm others) :
      Reordered (.object (pairs.map fun entry => (entry.1, entry.2.1))) (.object others)

/-- The members may be left in the order they have. -/
theorem Reordered.refl : ∀ v : Value, v.Reordered v
  | .null => .null
  | .bool b => .bool b
  | .number n => .number n
  | .string s => .string s
  | .array vs => by
    have same := @Reordered.array (vs.map fun v => (v, v))
      (List.forall_mem_map.mpr fun v _ => Reordered.refl v)
    simpa [Function.comp_def] using same
  | .object members => by
    have same := @Reordered.object (members.map fun entry => (entry.1, entry.2, entry.2)) _
      (List.forall_mem_map.mpr fun entry _ => Reordered.refl entry.2) (.refl _)
    simpa [Function.comp_def] using same
termination_by v => sizeOf v
decreasing_by
  · have smaller := List.sizeOf_lt_of_mem ‹v ∈ vs›
    rw [Value.array.sizeOf_spec]
    omega
  · have smaller := List.sizeOf_lt_of_mem ‹entry ∈ members›
    rw [Value.object.sizeOf_spec]
    rw [← Prod.mk.eta (p := entry), Prod.mk.sizeOf_spec] at smaller
    omega

/-- Sorting finds a sorted value again, whatever order its members are given in. -/
theorem Reordered.sortKeys {v w : Value} (same : v.Reordered w) (sorted : v.Sorted) :
    Json.sortKeys w = v := by
  induction same with
  | null | bool | number | string => rfl
  | array _ ih =>
    cases sorted with
    | array items =>
      rw [Json.sortKeys, sortItems_eq, List.map_map]
      congr 1
      exact List.map_congr_left fun pair mem => ih pair mem (items _ (List.mem_map_of_mem mem))
  | @object pairs others _ order ih =>
    cases sorted with
    | object ordered values =>
      -- The members are sorted inside first, which leaves them in the other order.
      have inside : (pairs.map fun entry => (entry.1, Json.sortKeys entry.2.2)) =
          pairs.map fun entry => (entry.1, entry.2.1) :=
        List.map_congr_left fun entry mem =>
          congrArg (Prod.mk entry.1) (ih entry mem (values _ (List.mem_map_of_mem mem)))
      have listed : (sortMembers others).Perm (pairs.map fun entry => (entry.1, entry.2.1)) := by
        have other := order.map fun entry => (entry.1, Json.sortKeys entry.2)
        rw [List.map_map] at other
        rw [sortMembers_eq, ← inside]
        exact other.symm
      rw [Json.sortKeys, Dictionary.sortEntries_of_perm listed ordered]

theorem Sorted.sortKeys {v : Value} (sorted : v.Sorted) : Json.sortKeys v = v :=
  (Reordered.refl v).sortKeys sorted

end Value

end Json

end KernelSpec
