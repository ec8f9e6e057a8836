import KernelSpec.Descriptor
import KernelSpec.Proofs.FileSystem.Write
import KernelSpec.Proofs.Json.RoundTrip

/-! # Rendering a descriptor

Variables are added to the member `env`, where they replace those of the template, and nothing else
changes (`mergeEnv_merges`). A rendered descriptor is within the depth and the order that reading
gives (`canonical_mergeEnv`), so it is read again from the file it is written to (`readFile_write`).
-/

namespace KernelSpec.Descriptor

open Json

/-- The members of a template and those after variables are merged into it. -/
structure Merges (overrides : Overrides) (template final : Dictionary Value) : Prop where
  others : ∀ name, name ≠ envKey → final.get? name = template.get? name
  env : ∃ own env : Dictionary Value, final.get? envKey = some (.object env) ∧
    (template.get? envKey = some (.object own) ∨ template.get? envKey = none ∧ own = []) ∧
    ∀ name, env.get? name = ((overrides.get? name).map .string).or (own.get? name)

theorem get?_addVariables {env : Dictionary Value} {overrides : Overrides}
    (ordered : overrides.Ordered) (name : String) :
    (addVariables env overrides).get? name =
      ((overrides.get? name).map .string).or (env.get? name) := by
  rw [addVariables, Dictionary.get?_foldl_insert Value.string,
    Dictionary.get?_reverse ordered.nodup]

/-- The members of the object `env` of a descriptor, none when there is no such member. -/
def envMembers (members : Dictionary Value) : Except DescriptorError (Dictionary Value) :=
  match members.get? envKey with
  | none => .ok []
  | some (.object env) => .ok env
  | some _ => .error .envNotObject

theorem envMembers_eq_ok {members own : Dictionary Value} (found : envMembers members = .ok own) :
    members.get? envKey = some (.object own) ∨ members.get? envKey = none ∧ own = [] := by
  unfold envMembers at found
  split at found
  · next missing =>
    cases found
    exact .inr ⟨missing, rfl⟩
  · next object =>
    cases found
    exact .inl object
  · cases found

/-- Variables are added, or nothing is changed: a member `env` that was made is an object. -/
theorem run_addEnv (overrides : Overrides) (members : Dictionary Value) :
    (∃ own, envMembers members = .ok own ∧ (addEnv overrides).run (.object members) =
      (.ok (), .object
        (Dictionary.insert envKey (.object (addVariables own overrides)) members))) ∨
    (∃ error, envMembers members = .error error ∧
      (addEnv overrides).run (.object members) = (.error error, .object members)) := by
  have run : (addEnv overrides).run (.object members) =
      (fillEnv overrides (withEnv members)).run (.object (withEnv members)) := rfl
  rw [run]
  unfold fillEnv envMembers
  cases found : members.get? envKey with
  | none =>
    have made : withEnv members = Dictionary.insert envKey (.object []) members := by
      rw [withEnv, found]
      rfl
    have twice := Dictionary.insert_insert envKey (.object [])
      (.object (addVariables [] overrides)) members
    refine .inl ⟨[], rfl, ?_⟩
    rw [made, Dictionary.get?_insert, if_pos rfl, ← twice]
    rfl
  | some env =>
    have kept : withEnv members = members := by
      rw [withEnv, found]
      rfl
    rw [kept, found]
    cases env with
    | object own => exact .inl ⟨own, rfl, rfl⟩
    | _ => exact .inr ⟨.envNotObject, rfl, rfl⟩

theorem mergeEnv_object (overrides : Overrides) (members : Dictionary Value) :
    mergeEnv overrides (.object members) = (envMembers members).map fun own =>
      .object (Dictionary.insert envKey (.object (addVariables own overrides)) members) := by
  unfold mergeEnv
  obtain ⟨own, found, run⟩ | ⟨error, failed, run⟩ := run_addEnv overrides members
  · rw [run, found]
    rfl
  · rw [run, failed]
    rfl

theorem mergeEnv_eq_ok {overrides : Overrides} {value descriptor : Value}
    (merged : mergeEnv overrides value = .ok descriptor) :
    ∃ template own, value = .object template ∧ envMembers template = .ok own ∧
      descriptor =
        .object (Dictionary.insert envKey (.object (addVariables own overrides)) template) := by
  cases value with
  | object template =>
    rw [mergeEnv_object] at merged
    obtain ⟨own, found, same⟩ := map_eq_ok_iff.mp merged
    exact ⟨template, own, rfl, found, same.symm⟩
  | _ => cases merged

theorem merges_insert {overrides : Overrides} (ordered : overrides.Ordered)
    {template own : Dictionary Value} (found : envMembers template = .ok own) :
    Merges overrides template
      (Dictionary.insert envKey (.object (addVariables own overrides)) template) := by
  refine ⟨fun name other => ?_, own, addVariables own overrides, ?_, envMembers_eq_ok found,
    get?_addVariables ordered⟩
  · rw [Dictionary.get?_insert, if_neg other]
  · rw [Dictionary.get?_insert, if_pos rfl]

theorem mergeEnv_merges {overrides : Overrides} (ordered : overrides.Ordered)
    {value descriptor : Value} (merged : mergeEnv overrides value = .ok descriptor) :
    ∃ template final : Dictionary Value, value = .object template ∧ descriptor = .object final ∧
      Merges overrides template final := by
  obtain ⟨template, own, rfl, found, rfl⟩ := mergeEnv_eq_ok merged
  exact ⟨template, _, rfl, rfl, merges_insert ordered found⟩

/-! ## Depth and order -/

theorem ordered_addVariables {env : Dictionary Value} (overrides : Overrides)
    (ordered : env.Ordered) : (addVariables env overrides).Ordered :=
  Dictionary.ordered_foldl_insert Value.string overrides ordered

theorem mem_addVariables {env : Dictionary Value} {overrides : Overrides} {entry : String × Value}
    (mem : entry ∈ addVariables env overrides) :
    (∃ text, entry.2 = .string text) ∨ entry ∈ env := by
  unfold addVariables at mem
  induction overrides generalizing env with
  | nil => exact .inr mem
  | cons added overrides ih =>
    rw [List.foldl_cons] at mem
    obtain text | there := ih mem
    · exact .inl text
    · obtain rfl | old := Dictionary.mem_insert there
      · exact .inl ⟨added.2, rfl⟩
      · exact .inr old

theorem canonical_addVariables {depth : Nat} {env : Dictionary Value} (overrides : Overrides)
    (ordered : env.Ordered) (values : ∀ entry ∈ env, Canonical depth entry.2) :
    Canonical (depth + 1) (.object (addVariables env overrides)) := by
  refine .object (ordered_addVariables overrides ordered) fun entry mem => ?_
  obtain ⟨text, same⟩ | old := mem_addVariables mem
  · rw [same]
    exact .string text
  · exact values entry old

theorem canonical_mergeEnv {depth : Nat} {overrides : Overrides} {value descriptor : Value}
    (canonical : Canonical (depth + 2) value)
    (merged : mergeEnv overrides value = .ok descriptor) : Canonical (depth + 2) descriptor := by
  obtain ⟨template, own, rfl, found, rfl⟩ := mergeEnv_eq_ok merged
  cases canonical with
  | object ordered values =>
    have env : Canonical (depth + 1) (.object (addVariables own overrides)) := by
      obtain object | ⟨_, rfl⟩ := envMembers_eq_ok found
      · have inner := values _ (Dictionary.mem_of_get? object)
        cases inner with
        | object ordered values => exact canonical_addVariables overrides ordered values
      · exact canonical_addVariables overrides List.Pairwise.nil (by simp)
    refine .object (ordered.insert _ _) fun entry mem => ?_
    obtain rfl | old := Dictionary.mem_insert mem
    · exact env
    · exact values entry old

theorem canonical_mergeEnvs {depth : Nat} {maps : List Overrides} {value descriptor : Value}
    (canonical : Canonical (depth + 2) value)
    (merged : maps.foldlM (fun value overrides => mergeEnv overrides value) value =
      .ok descriptor) : Canonical (depth + 2) descriptor := by
  induction maps generalizing value with
  | nil =>
    cases merged
    exact canonical
  | cons overrides maps ih =>
    rw [List.foldlM_cons] at merged
    obtain ⟨next, first, others⟩ := bind_eq_ok_iff.mp merged
    exact ih (canonical_mergeEnv canonical first) others

/-- A descriptor is written so that it is read again as itself, however often variables were merged
into what was read. -/
theorem read_write_mergeEnvs {text : String} {parsed descriptor : Value} {maps : List Overrides}
    (read : Json.read text = .ok parsed) (integers : ∀ n ∈ parsed.numbers, n.IsInteger)
    (merged : maps.foldlM (fun value overrides => mergeEnv overrides value) parsed =
      .ok descriptor) : Json.read (Json.write descriptor) = .ok descriptor := by
  obtain ⟨rest, spelled, _⟩ := read_eq_ok_iff.mp read
  have canonical : Canonical (125 + 2) parsed := spelled.canonical integers
  apply read_write
  exact canonical_mergeEnvs canonical merged

/-- Empty containers, both limits of 64 bits, escapes and a repeated name; the second map replaces a
variable of the first. -/
theorem read_write_mergeEnvs_sample :
    ∃ parsed descriptor,
      Json.read ("\x7b\"z\": [[], \x7b\x7d, 18446744073709551615, -9223372036854775808], " ++
        "\"\\ud83d\\ude00\": \"\\u0001\\/\", \"y\": 1, \"y\": [\x7b\"b\": true\x7d]\x7d") =
          .ok parsed ∧
      [[("B", "\\"), ("A", "")], [("A", "\n")]].foldlM
        (fun value overrides => mergeEnv overrides value) parsed = .ok descriptor ∧
      Json.read (Json.write descriptor) = .ok descriptor := by
  have parsed : Json.read
      ("\x7b\"z\": [[], \x7b\x7d, 18446744073709551615, -9223372036854775808], " ++
        "\"\\ud83d\\ude00\": \"\\u0001\\/\", \"y\": 1, \"y\": [\x7b\"b\": true\x7d]\x7d") =
      .ok (.object [("y", .array [.object [("b", .bool true)]]),
        ("z", .array [.array [], .object [], .number (.integer 18446744073709551615),
          .number (.integer (-9223372036854775808))]),
        ("😀", .string "\x01/")]) := by
    cbv
  have again := @read_write_mergeEnvs _ _ _ [[("B", "\\"), ("A", "")], [("A", "\n")]] parsed
    (fun n mem => ?_) rfl
  · exact ⟨_, _, parsed, rfl, again⟩
  · simp only [Value.numbers, numbersOfMembers, numbersOfItems, List.mem_append, List.mem_cons,
      List.not_mem_nil, or_false, false_or] at mem
    rcases mem with rfl | rfl <;> trivial

/-! ## Files -/

theorem render_eq_ok {fs : FileSystem} {path dir : Path} {overrides : Overrides}
    {descriptor : Value} (rendered : render fs path dir overrides = .ok descriptor) :
    ∃ text filled value, readTemplate fs path = .ok text ∧ substitute text dir = .ok filled ∧
      Json.read filled = .ok value ∧ mergeEnv overrides value = .ok descriptor := by
  obtain ⟨text, found, rendered⟩ := bind_eq_ok_iff.mp rendered
  obtain ⟨filled, substituted, rendered⟩ := bind_eq_ok_iff.mp rendered
  obtain ⟨value, read, merged⟩ := bind_eq_ok_iff.mp rendered
  exact ⟨text, filled, value, found, substituted, mapError_eq_ok_iff.mp read,
    mapError_eq_ok_iff.mp merged⟩

/-- The descriptor that is written is read again. -/
theorem readFile_write {path : Path} {descriptor : Value} {fs changed : FileSystem}
    (wrote : write path descriptor fs = .ok changed) (canonical : Canonical maxDepth descriptor) :
    ∃ written executable, changed.readFile path = .ok (Bytes.ofString written, executable) ∧
      Json.read written = .ok descriptor := by
  obtain ⟨executable, found⟩ := FileSystem.readFile_writeFile (mapError_eq_ok_iff.mp wrote)
  exact ⟨Json.write descriptor, executable, found, read_write canonical⟩

end KernelSpec.Descriptor
