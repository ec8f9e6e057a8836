import KernelSpec.Proofs.CommandLine

/-! # What repeated settings come to

The values of a setting are joined or the last of them is taken, whatever other settings stand
between them (`fold_joins`). On a command line that is what its values come to (`combined`). This is
what the variables of an invocation hold (`overrides_get?_envName`); they hold nothing else
(`overrides_get?_other`).
-/

namespace KernelSpec

namespace Setting

/-- The values of a setting, in their order. -/
def valuesIn {α : Type} (s : Setting) (entries : List (Setting × α)) : List α :=
  entries.filterMap fun entry => if entry.1 = s then some entry.2 else none

/-- The one value that the values given for a setting come to. -/
def combined : Setting → List String → String
  | .classpath, values => ":".intercalate values
  | .compilerOptions, values => " ".intercalate values
  | .startupScriptsPath, values => ":".intercalate values
  | .startupScript, values => values.getLastD ""
  | .timeout, values =>
    let last := values.getLastD ""
    if last = "NO_TIMEOUT" then "-1" else last

/-- The values that are stored for a setting, joined or the last of them. -/
def merged? (s : Setting) (values : List String) : Option String :=
  match s.separator? with
  | some separator => if values = [] then none else some (separator.intercalate values)
  | none => values.getLast?

/-- A value after those that were merged before. -/
def mergedWith (s : Setting) (before? : Option String) (value : String) : String :=
  match s.separator?, before? with
  | some separator, some before => before ++ separator ++ value
  | _, _ => value

theorem merged?_concat (s : Setting) (values : List String) (value : String) :
    s.merged? (values ++ [value]) = some (s.mergedWith (s.merged? values) value) := by
  unfold merged? mergedWith
  cases s.separator? with
  | none => simp
  | some separator =>
    by_cases empty : values = []
    · simp [empty]
    · simp [empty, String.intercalate_append_of_ne_nil]

theorem accumulate_eq (overrides : Overrides) (s : Setting) (value : String) :
    accumulate overrides s value =
      overrides.insert s.envName (s.mergedWith (overrides.get? s.envName) value) := by
  unfold accumulate mergedWith
  split <;> simp_all

theorem get?_accumulate (overrides : Overrides) (s : Setting) (value name : String) :
    (accumulate overrides s value).get? name =
      if name = s.envName then some (s.mergedWith (overrides.get? s.envName) value)
      else overrides.get? name := by
  rw [accumulate_eq, Dictionary.get?_insert]

theorem fold_concat (entries : List (Setting × String)) (entry : Setting × String) :
    fold (entries ++ [entry]) = accumulate (fold entries) entry.1 entry.2 := by
  simp [fold]

theorem valuesIn_concat {α : Type} (s : Setting) (entries : List (Setting × α))
    (entry : Setting × α) : s.valuesIn (entries ++ [entry]) =
      if entry.1 = s then s.valuesIn entries ++ [entry.2] else s.valuesIn entries := by
  unfold valuesIn
  split <;> simp_all

/-- The entries of a setting are its values. -/
theorem filter_eq_map_valuesIn {α : Type} (s : Setting) (entries : List (Setting × α)) :
    (entries.filter fun entry => entry.1 = s) =
      (s.valuesIn entries).map fun value => (s, value) := by
  induction entries with
  | nil => rfl
  | cons entry entries ih =>
    obtain ⟨t, value⟩ := entry
    unfold valuesIn at ih ⊢
    by_cases same : t = s <;> simp [same, ih]

theorem get?_fold (entries : List (Setting × String)) (s : Setting) :
    (fold entries).get? s.envName = s.merged? (s.valuesIn entries) := by
  induction entries using List.reverseRecOn with
  | nil => cases s <;> rfl
  | append_singleton entries entry ih =>
    rw [fold_concat, get?_accumulate, valuesIn_concat]
    by_cases same : entry.1 = s
    · subst same
      rw [if_pos rfl, if_pos rfl, merged?_concat, ih]
    · rw [if_neg fun names => same (envName_injective names).symm, if_neg same, ih]

theorem get?_fold_other (entries : List (Setting × String)) {name : String}
    (other : ∀ s : Setting, name ≠ s.envName) : (fold entries).get? name = none := by
  induction entries using List.reverseRecOn with
  | nil => rfl
  | append_singleton entries entry ih => rw [fold_concat, get?_accumulate, if_neg (other _), ih]

theorem ordered_fold (entries : List (Setting × String)) : (fold entries).Ordered := by
  induction entries using List.reverseRecOn with
  | nil => exact List.Pairwise.nil
  | append_singleton entries entry ih =>
    rw [fold_concat, accumulate_eq]
    exact ih.insert _ _

/-- A fold has the variables of the settings that occur. -/
theorem mem_names_fold {entries : List (Setting × String)} {name : String} :
    name ∈ (fold entries).map Prod.fst ↔ ∃ entry ∈ entries, entry.1.envName = name := by
  induction entries using List.reverseRecOn with
  | nil => simp [fold]
  | append_singleton entries entry ih =>
    rw [fold_concat, accumulate_eq, Dictionary.mem_names_insert, ih]
    constructor
    · rintro (rfl | ⟨earlier, mem, named⟩)
      · exact ⟨entry, by simp, rfl⟩
      · exact ⟨earlier, List.mem_append_left _ mem, named⟩
    · rintro ⟨other, mem, named⟩
      obtain earlier | last := List.mem_append.mp mem
      · exact .inr ⟨other, earlier, named⟩
      · obtain rfl := List.mem_singleton.mp last
        exact .inl named.symm

/-- Only the order within each setting counts, not how the settings are interleaved. -/
theorem fold_congr {entries others : List (Setting × String)}
    (same : ∀ s : Setting, s.valuesIn entries = s.valuesIn others) :
    fold entries = fold others := by
  refine (ordered_fold entries).ext (ordered_fold others) fun name => ?_
  by_cases known : ∃ s : Setting, name = s.envName
  · obtain ⟨s, rfl⟩ := known
    rw [get?_fold, get?_fold, same]
  · have other : ∀ s : Setting, name ≠ s.envName := fun s named => known ⟨s, named⟩
    rw [get?_fold_other entries other, get?_fold_other others other]

/-- A fold is a dictionary of the variables of the settings that occur. Each variable holds the
values of its setting joined or the last of them, however the settings are interleaved. -/
theorem fold_joins (entries : List (Setting × String)) :
    (fold entries).Ordered ∧
      (∀ name, name ∈ (fold entries).map Prod.fst ↔
        ∃ s value, (s, value) ∈ entries ∧ s.envName = name) ∧
      (∀ s separator, separator? s = some separator → s.valuesIn entries ≠ [] →
        (fold entries).get? s.envName = some (separator.intercalate (s.valuesIn entries))) ∧
      (∀ s, separator? s = none →
        (fold entries).get? s.envName = (s.valuesIn entries).getLast?) ∧
      ∀ others : List (Setting × String),
        (∀ s : Setting, s.valuesIn entries = s.valuesIn others) → fold entries = fold others := by
  refine ⟨ordered_fold entries, fun name => ?_, fun s separator joins given => ?_,
    fun s single => ?_, fun others same => fold_congr same⟩
  · rw [mem_names_fold]
    exact Prod.exists
  · rw [get?_fold, merged?, joins]
    exact if_neg given
  · rw [get?_fold, merged?, single]

/-- Empty values are kept, also at the ends, and a later timeout replaces an earlier one. -/
theorem fold_joins_sample :
    let entries := [(.classpath, ""), (.timeout, "5"), (.classpath, "a"), (.timeout, "6"),
      (.classpath, "")]
    fold entries = [("IJAVA_CLASSPATH", ":a:"), ("IJAVA_TIMEOUT", "6")] ∧
      (fold entries).get? "IJAVA_CLASSPATH" = some (":".intercalate ["", "a", ""]) ∧
      (fold entries).get? "IJAVA_TIMEOUT" = some "6" ∧
      fold entries = fold [(.timeout, "5"), (.timeout, "6"), (.classpath, ""), (.classpath, "a"),
        (.classpath, "")] := by
  intro entries
  obtain ⟨_, _, joined, last, interleaved⟩ := fold_joins entries
  refine ⟨by decide, joined .classpath ":" rfl (by decide), last .timeout rfl,
    interleaved _ fun s => ?_⟩
  cases s <;> decide

theorem resolveAlias_timeout (raw : String) :
    resolveAlias .timeout raw = if raw = "NO_TIMEOUT" then "-1" else raw := by
  by_cases noTimeout : raw = "NO_TIMEOUT"
  · rw [noTimeout]
    rfl
  · simp [resolveAlias, aliases, noTimeout, Ne.symm noTimeout]

theorem merged?_resolveAlias (s : Setting) {values : List String} (given : values ≠ []) :
    s.merged? (values.map s.resolveAlias) = some (s.combined values) := by
  have last : values.getLast? = some (values.getLastD "") := by
    rw [List.getLastD_eq_getLast?, List.getLast?_eq_some_getLast given, Option.getD_some]
  have asGiven (noAlias : s.aliases = []) : values.map s.resolveAlias = values := by
    have same : s.resolveAlias = id := by
      funext raw
      rw [resolveAlias, noAlias]
      rfl
    rw [same, List.map_id]
  cases s with
  | classpath | compilerOptions | startupScriptsPath =>
    rw [asGiven rfl]
    exact if_neg given
  | startupScript =>
    rw [asGiven rfl]
    exact last
  | timeout =>
    change (values.map (resolveAlias .timeout)).getLast? = _
    rw [List.getLast?_map, last, Option.map_some, resolveAlias_timeout, combined]

/-- The values that are stored are those given, with other spellings resolved. -/
theorem valuesIn_stored {entries : List (Setting × Bytes)} {settings : List (Setting × String)}
    (stored : List.Forall₂ Parsing.Stored entries settings) (s : Setting) :
    ∃ values : List String, s.valuesIn entries = values.map Bytes.ofString ∧
      s.valuesIn settings = values.map s.resolveAlias := by
  induction stored with
  | nil => exact ⟨[], rfl, rfl⟩
  | @cons entry setting entries settings head _ ih =>
    obtain ⟨values, given, kept⟩ := ih
    obtain ⟨same, raw, text, normal⟩ := head
    obtain ⟨_, _, value⟩ := map_eq_ok_iff.mp normal
    by_cases here : entry.1 = s
    · subst here
      refine ⟨raw :: values, ?_, ?_⟩
      · simp only [valuesIn, List.filterMap_cons, if_true] at given ⊢
        rw [given, ← Bytes.ofString_of_text? text, List.map_cons]
      · simp only [valuesIn, List.filterMap_cons, same, if_true] at kept ⊢
        rw [kept, ← value, List.map_cons]
    · refine ⟨values, ?_, ?_⟩
      · simpa [valuesIn, List.filterMap_cons, here] using given
      · simpa [valuesIn, List.filterMap_cons, same, here] using kept

end Setting

namespace Invocation

/-- Grouping the settings keeps the order within each group. -/
theorem valuesIn_occurrences (invocation : Invocation) (s : Setting) :
    s.valuesIn invocation.occurrences = s.valuesIn invocation.settings := by
  have own : ∀ t : Setting, s.valuesIn (invocation.settings.filter fun entry => entry.1 = t) =
      if t = s then s.valuesIn invocation.settings else [] := by
    intro t
    rw [Setting.valuesIn, Setting.valuesIn, List.filterMap_filter]
    split
    · next same =>
      subst same
      exact List.filterMap_congr fun entry _ => by simp
    · next different =>
      refine List.filterMap_eq_nil_iff.mpr fun entry _ => ?_
      by_cases here : entry.1 = t <;> simp [here, different]
  have groups : s.valuesIn invocation.occurrences = Setting.all.flatMap fun t =>
      s.valuesIn (invocation.settings.filter fun entry => entry.1 = t) := List.filterMap_flatMap
  simp only [groups, own]
  cases s <;> simp [Setting.all]

/-- The variable of a setting that is given holds what its values come to. -/
theorem overrides_get?_envName {source : Option Bytes} {args : List Bytes}
    {invocation : Invocation} (parsed : parseArguments source args = .ok invocation)
    {s : Setting} (given : s.valuesIn (Parsing.given none args) ≠ []) :
    ∃ values : List String, s.valuesIn (Parsing.given none args) = values.map Bytes.ofString ∧
      invocation.overrides.get? s.envName = some (s.combined values) := by
  obtain ⟨values, texts, kept⟩ :=
    Setting.valuesIn_stored (Parsing.parseArguments_settings parsed) s
  have nonempty : values ≠ [] := fun empty => given (by rw [texts, empty, List.map_nil])
  refine ⟨values, texts, ?_⟩
  rw [overrides, Setting.get?_fold, valuesIn_occurrences, kept,
    Setting.merged?_resolveAlias s nonempty]

theorem overrides_get?_other {source : Option Bytes} {args : List Bytes}
    {invocation : Invocation} (parsed : parseArguments source args = .ok invocation)
    {name : String}
    (other : ∀ s : Setting, s.valuesIn (Parsing.given none args) ≠ [] → name ≠ s.envName) :
    invocation.overrides.get? name = none := by
  by_cases known : ∃ s : Setting, name = s.envName
  · obtain ⟨s, rfl⟩ := known
    have none : s.valuesIn (Parsing.given none args) = [] :=
      Decidable.byContradiction fun given => other s given rfl
    obtain ⟨values, texts, kept⟩ :=
      Setting.valuesIn_stored (Parsing.parseArguments_settings parsed) s
    rw [none] at texts
    rw [List.map_eq_nil_iff.mp texts.symm] at kept
    rw [overrides, Setting.get?_fold, valuesIn_occurrences, kept]
    cases s <;> rfl
  · exact Setting.get?_fold_other _ fun s same => known ⟨s, same⟩

end Invocation

end KernelSpec
