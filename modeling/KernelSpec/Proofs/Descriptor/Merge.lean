import KernelSpec.Proofs.Descriptor.Render
import KernelSpec.Proofs.Json.Tree

/-! # Merging variables into a descriptor

Variables are added all at once or not at all: adding them fails at a value that is no object or has
another kind of `env`, and leaves the value as it was. Adding the variables of several dictionaries
one after another comes to adding those of their union, in which a later dictionary wins
(`addEnv_union`).
-/

namespace KernelSpec

namespace Dictionary

variable {α : Type}

/-- The entries of all dictionaries, where those of a later one replace those of an earlier one. -/
def unionAll (maps : List (Dictionary α)) : Dictionary α := ofEntries maps.flatten

theorem ordered_unionAll (maps : List (Dictionary α)) : (unionAll maps).Ordered :=
  ordered_ofEntries _

/-- A name has the value that the last dictionary with this name gives it. -/
theorem get?_flatten_reverse {maps : List (Dictionary α)} (ordered : ∀ map ∈ maps, map.Ordered)
    (name : String) :
    get? maps.flatten.reverse name = maps.reverse.findSome? (·.get? name) := by
  induction maps with
  | nil => rfl
  | cons map maps ih =>
    have unique : (map.map Prod.fst).Nodup := (ordered map List.mem_cons_self).nodup
    have later := ih fun other mem => ordered other (List.mem_cons_of_mem map mem)
    rw [List.flatten_cons, List.reverse_append, get?_append, later, get?_reverse unique,
      List.reverse_cons, List.findSome?_append]
    simp

theorem get?_unionAll {maps : List (Dictionary α)} (ordered : ∀ map ∈ maps, map.Ordered)
    (name : String) : (unionAll maps).get? name = maps.reverse.findSome? (·.get? name) := by
  rw [unionAll, get?_ofEntries_last, get?_flatten_reverse ordered]

end Dictionary

namespace Descriptor

open Json

/-- The value is no object, or has a member `env` that is none. -/
def Refuses (value : Value) : Prop :=
  (∀ members, value ≠ .object members) ∨
    ∃ members env, value = .object members ∧ Dictionary.get? members envKey = some env ∧
      ∀ inner, env ≠ .object inner

/-- What is in the way of variables is in the value before they are added. -/
theorem refuses_of_error {members : Dictionary Value} {error : DescriptorError}
    (failed : envMembers members = .error error) : Refuses (.object members) := by
  unfold envMembers at failed
  split at failed
  · cases failed
  · cases failed
  · next env notObject found => exact .inr ⟨members, env, rfl, found, notObject⟩

theorem not_refuses {members own : Dictionary Value} (found : envMembers members = .ok own) :
    ¬ Refuses (.object members) := by
  rintro (notObject | ⟨_, env, same, there, other⟩)
  · exact notObject members rfl
  · cases same
    obtain object | ⟨missing, _⟩ := envMembers_eq_ok found
    · exact other own (Option.some.inj (there.symm.trans object))
    · cases missing.symm.trans there

theorem ordered_envMembers {members own : Dictionary Value}
    (sorted : (Value.object members).Sorted) (found : envMembers members = .ok own) :
    own.Ordered ∧ ∀ entry ∈ own, entry.2.Sorted := by
  cases sorted with
  | object ordered values =>
    obtain object | ⟨_, rfl⟩ := envMembers_eq_ok found
    · have inner := values _ (Dictionary.mem_of_get? object)
      cases inner with
      | object ordered values => exact ⟨ordered, values⟩
    · exact ⟨List.Pairwise.nil, by simp⟩

theorem run_addEnv_of_ok {members own : Dictionary Value} (found : envMembers members = .ok own)
    (overrides : Overrides) : (addEnv overrides).run (.object members) = (.ok (), .object
      (Dictionary.insert envKey (.object (addVariables own overrides)) members)) := by
  obtain ⟨_, same, run⟩ | ⟨_, failed, _⟩ := run_addEnv overrides members
  · cases found.symm.trans same
    exact run
  · cases found.symm.trans failed

theorem run_addEnv_of_error {members : Dictionary Value} {error : DescriptorError}
    (failed : envMembers members = .error error) (overrides : Overrides) :
    (addEnv overrides).run (.object members) = (.error error, .object members) := by
  obtain ⟨_, found, _⟩ | ⟨_, same, run⟩ := run_addEnv overrides members
  · cases failed.symm.trans found
  · cases failed.symm.trans same
    exact run

/-- A value that refuses variables refuses all of them for the same reason, and stays as it is. -/
theorem refuses_or (value : Value) :
    (Refuses value ∧ ∃ error, ∀ overrides,
      (addEnv overrides).run value = (.error error, value)) ∨
    ¬ Refuses value ∧ ∃ members own, value = .object members ∧ envMembers members = .ok own := by
  cases value with
  | object members =>
    cases found : envMembers members with
    | ok own => exact .inr ⟨not_refuses found, members, own, rfl, found⟩
    | error error => exact .inl ⟨refuses_of_error found, error, run_addEnv_of_error found⟩
  | _ => exact .inl ⟨.inl fun _ => Value.noConfusion, .notObject, fun _ => rfl⟩

theorem sorted_insert_env {members own : Dictionary Value} (sorted : (Value.object members).Sorted)
    (found : envMembers members = .ok own) (overrides : Overrides) :
    (Value.object (Dictionary.insert envKey (.object (addVariables own overrides)) members)).Sorted
      := by
  obtain ⟨ownOrdered, ownValues⟩ := ordered_envMembers sorted found
  cases sorted with
  | object ordered values =>
    refine .object (ordered.insert _ _) fun entry mem => ?_
    obtain rfl | old := Dictionary.mem_insert mem
    · refine .object (ordered_addVariables overrides ownOrdered) fun inner there => ?_
      obtain ⟨text, same⟩ | old := mem_addVariables there
      · rw [same]
        exact .string text
      · exact ownValues inner old
    · exact values entry old

/-! ## One after another -/

theorem Editing.run_bind_of_ok {step next : Editing Unit} {value changed : Value}
    (ran : step.run value = (.ok (), changed)) :
    (step >>= fun _ => next).run value = next.run changed := by
  have unfolded : (step >>= fun _ => next).run value =
      (ExceptT.bindCont (fun _ => next) (step.run value).1) (step.run value).2 := rfl
  rw [unfolded, ran]
  rfl

theorem Editing.run_bind_of_error {step next : Editing Unit} {value changed : Value}
    {error : DescriptorError} (ran : step.run value = (.error error, changed)) :
    (step >>= fun _ => next).run value = (.error error, changed) := by
  have unfolded : (step >>= fun _ => next).run value =
      (ExceptT.bindCont (fun _ => next) (step.run value).1) (step.run value).2 := rfl
  rw [unfolded, ran]
  rfl

theorem envMembers_insert (env members : Dictionary Value) :
    envMembers (Dictionary.insert envKey (.object env) members) = .ok env := by
  rw [envMembers, Dictionary.get?_insert, if_pos rfl]

/-- The variables of several dictionaries are added to the one object `env`. -/
theorem run_forM_addEnv {members own : Dictionary Value} (found : envMembers members = .ok own)
    (first : Overrides) (rest : List Overrides) :
    ((first :: rest).forM addEnv).run (.object members) = (.ok (), .object (Dictionary.insert envKey
      (.object ((first :: rest).foldl addVariables own)) members)) := by
  -- After the first dictionary there is an object `env`, which every later one replaces.
  induction rest generalizing first members own with
  | nil => exact Editing.run_bind_of_ok (run_addEnv_of_ok found first)
  | cons second rest ih =>
    have others := ih (envMembers_insert (addVariables own first) members) second
    rw [Dictionary.insert_insert] at others
    exact (Editing.run_bind_of_ok (run_addEnv_of_ok found first)).trans others

/-- Only the last value of a name is seen in an object. -/
theorem addVariables_ofEntries {own : Dictionary Value} (ordered : own.Ordered)
    (entries : List (String × String)) :
    addVariables own (Dictionary.ofEntries entries) = addVariables own entries := by
  refine (ordered_addVariables _ ordered).ext (ordered_addVariables _ ordered) fun name => ?_
  rw [get?_addVariables (Dictionary.ordered_ofEntries entries), Dictionary.get?_ofEntries_last,
    addVariables, Dictionary.get?_foldl_insert Value.string]

theorem foldl_addVariables {own : Dictionary Value} (ordered : own.Ordered)
    (maps : List Overrides) :
    maps.foldl addVariables own = addVariables own (Dictionary.unionAll maps) := by
  rw [Dictionary.unionAll, addVariables_ofEntries ordered, addVariables, List.foldl_flatten]
  rfl

/-- Adding the variables of one dictionary after another comes to adding those of their union. -/
theorem run_forM_eq {value : Value} (sorted : value.Sorted) (first : Overrides)
    (rest : List Overrides) :
    ((first :: rest).forM addEnv).run value =
      (addEnv (Dictionary.unionAll (first :: rest))).run value := by
  obtain ⟨_, error, run⟩ | ⟨_, members, own, rfl, found⟩ := refuses_or value
  · exact (Editing.run_bind_of_error (run first)).trans (run _).symm
  · have ordered := (ordered_envMembers sorted found).1
    rw [run_forM_addEnv found, run_addEnv_of_ok found, foldl_addVariables ordered]

/-- Variables are refused by a value that is no object or has a member `env` that is none, which then
is as it was, and are otherwise added to `env` alone. Several dictionaries, one after another, are
taken iff the first one is, and come to their union, where the last dictionary with a name gives its
value. -/
theorem addEnv_union {value : Value} (sorted : value.Sorted) :
    (∀ overrides : Overrides, overrides.Ordered →
      ((∃ error, ((addEnv overrides).run value).1 = .error error) ↔ Refuses value) ∧
      (Refuses value → ((addEnv overrides).run value).2 = value) ∧
      (¬ Refuses value → ∃ template final, value = .object template ∧
        (addEnv overrides).run value = (.ok (), .object final) ∧ (Value.object final).Sorted ∧
        Merges overrides template final)) ∧
    ∀ (first : Overrides) (rest : List Overrides), (∀ map ∈ first :: rest, map.Ordered) →
      (((first :: rest).forM addEnv).run value).1 = ((addEnv first).run value).1 ∧
      ((first :: rest).forM addEnv).run value =
        (addEnv (Dictionary.unionAll (first :: rest))).run value ∧
      (Dictionary.unionAll (first :: rest)).Ordered ∧
      ∀ name, (Dictionary.unionAll (first :: rest)).get? name =
        (first :: rest).reverse.findSome? (·.get? name) := by
  refine ⟨fun overrides ordered => ?_, fun first rest ordered => ?_⟩
  · obtain ⟨refused, error, run⟩ | ⟨taken, members, own, rfl, found⟩ := refuses_or value
    · rw [run]
      exact ⟨⟨fun _ => refused, fun _ => ⟨error, rfl⟩⟩, fun _ => rfl, absurd refused⟩
    · have run := run_addEnv_of_ok found overrides
      rw [run]
      refine ⟨⟨?_, fun refused => absurd refused taken⟩, fun refused => absurd refused taken,
        fun _ => ⟨members, _, rfl, rfl, ?_, ?_⟩⟩
      · rintro ⟨_, failed⟩
        cases failed
      · exact sorted_insert_env sorted found overrides
      · exact merges_insert ordered found
  · refine ⟨?_, run_forM_eq sorted first rest, Dictionary.ordered_unionAll _,
      Dictionary.get?_unionAll ordered⟩
    rw [run_forM_eq sorted]
    obtain ⟨_, error, run⟩ | ⟨_, members, own, rfl, found⟩ := refuses_or value
    · rw [run, run]
    · rw [run_addEnv_of_ok found, run_addEnv_of_ok found]

/-- The second dictionary replaces a variable of the first, and the first one of the descriptor. -/
theorem addEnv_union_sample :
    (Value.object [("env", .object [("A", .number (.integer 1)), ("K", .null)])]).Sorted ∧
    (∀ map ∈ [[("A", "a"), ("B", "b")], [("B", "c")]], Dictionary.Ordered map) ∧
    Dictionary.unionAll [[("A", "a"), ("B", "b")], [("B", "c")]] = [("A", "a"), ("B", "c")] ∧
    ([[("A", "a"), ("B", "b")], [("B", "c")]].forM addEnv).run
      (.object [("env", .object [("A", .number (.integer 1)), ("K", .null)])]) =
        (.ok (), .object [("env", .object [("A", .string "a"), ("B", .string "c"), ("K", .null)])])
    := by
  have sorted :
      (Value.object [("env", .object [("A", .number (.integer 1)), ("K", .null)])]).Sorted := by
    refine .object (by decide) fun entry mem => ?_
    rw [List.mem_singleton.mp mem]
    refine .object (by decide) fun entry mem => ?_
    rcases List.mem_pair.mp mem with rfl | rfl
    · exact .number _
    · exact .null
  have ordered : ∀ map ∈ [[("A", "a"), ("B", "b")], [("B", "c")]], Dictionary.Ordered map := by
    decide
  have united : Dictionary.unionAll [[("A", "a"), ("B", "b")], [("B", "c")]] =
      [("A", "a"), ("B", "c")] := by
    decide
  obtain ⟨_, run, _⟩ := (addEnv_union sorted).2 [("A", "a"), ("B", "b")] [[("B", "c")]] ordered
  refine ⟨sorted, ordered, united, run.trans ?_⟩
  rw [united]
  rfl

end Descriptor

end KernelSpec
