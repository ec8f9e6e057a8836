import KernelSpec.Proofs.Setting

/-! # What counts as a duration

A value is cut into a sign, digits, characters that are not of words, and a unit (`Cut`). A unit of
letters leaves only one way to cut, and the check finds it (`Cut.check_eq`); a value that cannot be
cut so is invalid (`exists_cut`). Hence the check accepts the durations and nothing else, and names
the unit of what would be a duration with a unit it knew (`normalize_timeout`). No other value of
the timeout is stored (`overrides_names`).
-/

namespace KernelSpec

namespace Duration

def sign (negative : Bool) : List Char := if negative then ['-'] else []

/-- The number that a sign and digits spell. -/
def amount (negative : Bool) (digits : List Char) : Int :=
  let size : Nat := Nat.ofDigits 10 (digits.reverse.map fun d => d.toNat - '0'.toNat)
  if negative then -size else size

/-- A value as a sign, digits of a signed 64-bit number, characters that are neither letters, digits
nor underscores of ASCII, and a unit. -/
structure Cut (value : String) (negative : Bool) (digits separator unit : List Char) : Prop where
  spelling : value.toList = sign negative ++ (digits ++ (separator ++ unit))
  nonempty : digits ≠ []
  decimal : ∀ d ∈ digits, d.isDigit = true
  within : -2 ^ 63 ≤ amount negative digits ∧ amount negative digits ≤ 2 ^ 63 - 1
  apart : ∀ c ∈ separator, c.isAlphanum = false ∧ c ≠ '_'

/-- The name of a time unit in any case. -/
def Known (unit : List Char) : Prop :=
  ∃ name ∈ timeUnits, unit.map Char.toLower = name.toList.map Char.toLower

/-- An amount, alone or with a unit that is known. -/
def IsDuration (value : String) : Prop :=
  ∃ negative digits separator unit, Cut value negative digits separator unit ∧
    (unit = [] ∨ Known unit)

/-- An amount with letters in the place of a unit. -/
def HasUnknownUnit (value unit : String) : Prop :=
  ∃ negative digits separator, Cut value negative digits separator unit.toList ∧
    unit.toList ≠ [] ∧ (∀ c ∈ unit.toList, c.isAlpha = true) ∧ ¬ Known unit.toList

/-! ## The amount -/

theorem decimalValue_eq (digits : List Char) :
    decimalValue digits =
      Nat.ofDigits 10 (digits.reverse.map fun d => d.toNat - '0'.toNat) := by
  induction digits using List.reverseRecOn with
  | nil => rfl
  | append_singleton digits d ih =>
    unfold decimalValue at ih ⊢
    rw [List.foldl_append, List.reverse_append, ih]
    simp [Nat.ofDigits_cons, Nat.mul_comm, Nat.add_comm]

theorem fits_iff (negative : Bool) (digits : List Char) : fits negative digits = true ↔
    -2 ^ 63 ≤ amount negative digits ∧ amount negative digits ≤ 2 ^ 63 - 1 := by
  unfold fits amount
  rw [decimalValue_eq]
  cases negative <;> simp

/-! ## The unit -/

theorem isKnownUnit_iff (unit : List Char) : isKnownUnit unit = true ↔ Known unit := by
  have names : ∀ name ∈ timeUnits, upper name.toList = name.toList := by decide
  have fold (cs ds : List Char) :
      upper cs = upper ds ↔ cs.map Char.toLower = ds.map Char.toLower := by
    constructor
    · intro same
      simpa [upper, Function.comp_def] using congrArg (List.map Char.toLower) same
    · intro same
      simpa [upper, Function.comp_def] using congrArg (List.map Char.toUpper) same
  unfold isKnownUnit Known
  rw [List.any_eq_true]
  refine exists_congr fun name => and_congr_right fun mem => ?_
  rw [beq_iff_eq, ← fold, names name mem, eq_comm]

theorem Known.letters {unit : List Char} (known : Known unit) : ∀ c ∈ unit, c.isAlpha = true := by
  obtain ⟨name, mem, same⟩ := known
  have names : ∀ name ∈ timeUnits, name.toList.all Char.isAlpha = true := by decide
  intro c inUnit
  have lower : c.toLower ∈ name.toList.map Char.toLower := same ▸ List.mem_map_of_mem inUnit
  obtain ⟨d, inName, folded⟩ := List.mem_map.mp lower
  have letter := List.all_eq_true.mp (names name mem) d inName
  rwa [← Char.isAlpha_toLower_eq_isAlpha, folded, Char.isAlpha_toLower_eq_isAlpha] at letter

theorem letters_of_unit {unit : List Char} (unitOk : unit = [] ∨ Known unit) :
    ∀ c ∈ unit, c.isAlpha = true := by
  rcases unitOk with rfl | known
  · simp
  · exact known.letters

/-! ## The cut -/

theorem isDigit_eq_false_of_isAlpha {c : Char} (letter : c.isAlpha = true) : c.isDigit = false := by
  simp only [Char.isAlpha, Char.isUpper, Char.isLower, Char.isDigit, UInt32.le_iff_toNat_le,
    ge_iff_le, Bool.or_eq_true, Bool.and_eq_true, decide_eq_true_eq, Bool.and_eq_false_iff,
    decide_eq_false_iff_not] at letter ⊢
  have : '9'.val.toNat = 57 := rfl
  have : 'A'.val.toNat = 65 := rfl
  have : 'a'.val.toNat = 97 := rfl
  omega

theorem splitSign_eq (cs : List Char) : cs = sign (splitSign cs).1 ++ (splitSign cs).2 := by
  unfold splitSign
  split <;> rfl

namespace Cut

variable {value : String} {negative : Bool} {digits separator unit : List Char}

/-- Digits do not begin with a sign, so the sign is what the value begins with. -/
theorem splitSign_eq (cut : Cut value negative digits separator unit) :
    splitSign value.toList = (negative, digits ++ (separator ++ unit)) := by
  obtain ⟨d, ds, rfl⟩ := List.exists_cons_of_ne_nil cut.nonempty
  have digit := cut.decimal d List.mem_cons_self
  rw [cut.spelling]
  cases negative with
  | true => rfl
  | false =>
    unfold splitSign
    split
    · next rest begins =>
      obtain rfl : d = '-' := (List.cons.inj begins).1
      cases digit
    · rfl

/-- The digits end where the separator or the unit begins. -/
theorem span_digits (cut : Cut value negative digits separator unit)
    (letters : ∀ c ∈ unit, c.isAlpha = true) :
    (digits ++ (separator ++ unit)).takeWhile Char.isDigit = digits ∧
      (digits ++ (separator ++ unit)).dropWhile Char.isDigit = separator ++ unit := by
  have others : ∀ c ∈ separator ++ unit, c.isDigit = false := by
    intro c mem
    rcases List.mem_append.mp mem with inSeparator | inUnit
    · exact (Bool.or_eq_false_iff.mp (cut.apart c inSeparator).1).2
    · exact isDigit_eq_false_of_isAlpha (letters c inUnit)
  rw [List.takeWhile_append_of_pos cut.decimal, List.dropWhile_append_of_pos cut.decimal]
  generalize separator ++ unit = rest at others ⊢
  cases rest with
  | nil => simp
  | cons c rest => simp [others c List.mem_cons_self]

theorem unitAfter_eq (cut : Cut value negative digits separator unit)
    (letters : ∀ c ∈ unit, c.isAlpha = true) : unitAfter (separator ++ unit) = unit := by
  have skipped : ∀ c ∈ separator, (!isWordChar c) = true := by
    intro c mem
    obtain ⟨noAlphanum, noUnderscore⟩ := cut.apart c mem
    simp [isWordChar, noAlphanum, noUnderscore]
  rw [unitAfter, List.dropWhile_append_of_pos skipped]
  cases unit with
  | nil => rfl
  | cons c cs =>
    have letter := letters c List.mem_cons_self
    simp [isWordChar, Char.isAlphanum, letter]

/-- A value that is cut with a unit of letters is judged by the unit alone. -/
theorem check_eq (cut : Cut value negative digits separator unit)
    (letters : ∀ c ∈ unit, c.isAlpha = true) :
    check value = if unit = [] ∨ isKnownUnit unit = true then .ok ()
      else .error (.unknownTimeUnit (String.ofList unit)) := by
  obtain ⟨taken, left⟩ := cut.span_digits letters
  have fits := (fits_iff negative digits).mpr cut.within
  have alphabetic : unit.all Char.isAlpha = true := List.all_eq_true.mpr letters
  simp only [check, cut.splitSign_eq, taken, left, cut.unitAfter_eq letters, fits, alphabetic]
  cases unit <;> simp [cut.nonempty]

end Cut

/-- A value that is not invalid can be cut, as the check does it. -/
theorem exists_cut (value : String) (valid : check value ≠ .error (.invalidDuration value)) :
    ∃ negative digits separator unit, Cut value negative digits separator unit ∧
      ∀ c ∈ unit, c.isAlpha = true := by
  have spelling := splitSign_eq value.toList
  revert valid spelling
  unfold check
  rcases splitSign value.toList with ⟨negative, unsigned⟩
  intro valid spelling
  dsimp only at valid spelling
  split at valid
  · exact absurd rfl valid
  next bounded =>
  obtain ⟨nonempty, within⟩ : unsigned.takeWhile Char.isDigit ≠ [] ∧
      fits negative (unsigned.takeWhile Char.isDigit) = true := by simpa using bounded
  have letters : ∀ c ∈ unitAfter (unsigned.dropWhile Char.isDigit), c.isAlpha = true := by
    split at valid
    · next empty => simp [List.isEmpty_iff.mp empty]
    · split at valid
      · exact absurd rfl valid
      · next alphabetic => simpa using alphabetic
  refine ⟨negative, unsigned.takeWhile Char.isDigit,
    (unsigned.dropWhile Char.isDigit).takeWhile fun c => !isWordChar c,
    unitAfter (unsigned.dropWhile Char.isDigit),
    ⟨?_, nonempty, fun _ mem => List.mem_takeWhile_imp mem, (fits_iff _ _).mp within, ?_⟩, letters⟩
  · rw [unitAfter, List.takeWhile_append_dropWhile, List.takeWhile_append_dropWhile]
    exact spelling
  · intro c mem
    have skipped := List.mem_takeWhile_imp mem
    simpa [isWordChar] using skipped

/-! ## The verdict -/

theorem check_eq_ok_iff {value : String} : check value = .ok () ↔ IsDuration value := by
  constructor
  · intro accepted
    obtain ⟨negative, digits, separator, unit, cut, letters⟩ := exists_cut value (by simp [accepted])
    refine ⟨negative, digits, separator, unit, cut, ?_⟩
    rw [← isKnownUnit_iff]
    by_contra unknown
    rw [cut.check_eq letters, if_neg unknown] at accepted
    cases accepted
  · rintro ⟨negative, digits, separator, unit, cut, unitOk⟩
    have letters := letters_of_unit unitOk
    rw [← isKnownUnit_iff] at unitOk
    rw [cut.check_eq letters, if_pos unitOk]

theorem check_eq_unknownTimeUnit_iff {value unit : String} :
    check value = .error (.unknownTimeUnit unit) ↔ HasUnknownUnit value unit := by
  constructor
  · intro refused
    obtain ⟨negative, digits, separator, found, cut, letters⟩ := exists_cut value (by simp [refused])
    rw [cut.check_eq letters] at refused
    split at refused
    · cases refused
    · next unknown =>
      obtain ⟨nonempty, unlisted⟩ := not_or.mp unknown
      cases refused
      rw [isKnownUnit_iff] at unlisted
      refine ⟨negative, digits, separator, ?_⟩
      rw [String.toList_ofList]
      exact ⟨cut, nonempty, letters, unlisted⟩
  · rintro ⟨negative, digits, separator, cut, nonempty, letters, unknown⟩
    rw [← isKnownUnit_iff] at unknown
    rw [cut.check_eq letters, if_neg (not_or.mpr ⟨nonempty, unknown⟩), String.ofList_toList]

theorem check_eq_invalidDuration_iff {value : String} :
    check value = .error (.invalidDuration value) ↔
      ¬ IsDuration value ∧ ∀ unit, ¬ HasUnknownUnit value unit := by
  constructor
  · intro refused
    refine ⟨fun duration => ?_, fun unit unknown => ?_⟩
    · rw [check_eq_ok_iff.mpr duration] at refused
      cases refused
    · rw [check_eq_unknownTimeUnit_iff.mpr unknown] at refused
      cases refused
  · rintro ⟨noDuration, noUnit⟩
    by_contra valid
    obtain ⟨negative, digits, separator, unit, cut, letters⟩ := exists_cut value valid
    have verdict := cut.check_eq letters
    split at verdict
    · exact noDuration (check_eq_ok_iff.mp verdict)
    · exact noUnit _ (check_eq_unknownTimeUnit_iff.mp verdict)

instance : DecidablePred IsDuration := fun _ => decidable_of_iff _ check_eq_ok_iff

/-- Where the amount of a value ends, in octets: those that the sign takes from the value, and those
of the digits. -/
def amountEnd (value : String) : String.Pos.Raw :=
  let unsigned := (splitSign value.toList).2
  ⟨value.utf8ByteSize - (String.ofList unsigned).utf8ByteSize +
    (String.ofList (unsigned.takeWhile Char.isDigit)).utf8ByteSize⟩

/-- The amount ends between two characters. The value cut there gives the sign with the digits,
which `check` takes for the number, and the rest, in which it looks for the unit. -/
theorem splits_amountEnd (value : String) :
    ∃ valid : (amountEnd value).IsValid value, (value.pos (amountEnd value) valid).Splits
      (String.ofList (sign (splitSign value.toList).1 ++
        (splitSign value.toList).2.takeWhile Char.isDigit))
      (String.ofList ((splitSign value.toList).2.dropWhile Char.isDigit)) := by
  have spelling := congrArg String.ofList (splitSign_eq value.toList)
  unfold amountEnd
  revert spelling
  rcases splitSign value.toList with ⟨negative, unsigned⟩
  dsimp only
  intro spelling
  rw [String.ofList_toList, String.ofList_append] at spelling
  have size := congrArg String.utf8ByteSize spelling
  rw [String.utf8ByteSize_append] at size
  have parts : value = String.ofList (sign negative ++ unsigned.takeWhile Char.isDigit) ++
      String.ofList (unsigned.dropWhile Char.isDigit) := by
    rw [String.ofList_append, String.append_assoc, ← String.ofList_append,
      List.takeWhile_append_dropWhile, spelling]
  have place : (⟨value.utf8ByteSize - (String.ofList unsigned).utf8ByteSize +
      (String.ofList (unsigned.takeWhile Char.isDigit)).utf8ByteSize⟩ : String.Pos.Raw) =
      (String.ofList (sign negative ++ unsigned.takeWhile Char.isDigit)).rawEndPos := by
    rw [String.Pos.Raw.ext_iff, String.byteIdx_rawEndPos, String.ofList_append,
      String.utf8ByteSize_append, size, Nat.add_sub_cancel]
  exact ⟨String.Pos.Raw.isValid_iff_exists_append.mpr ⟨_, _, parts, place⟩, parts, place⟩

end Duration

namespace Setting

theorem check_noTimeout :
    Duration.check "NO_TIMEOUT" = .error (.invalidDuration "NO_TIMEOUT") := by
  decide

theorem normalize_timeout_of_ne {raw : String} (other : raw ≠ "NO_TIMEOUT") :
    normalize .timeout raw = (Duration.check raw).map fun _ => raw := by
  rw [normalize, resolveAlias_timeout, if_neg other]
  rfl

theorem normalize_timeout_eq_ok_iff {raw value : String} : normalize .timeout raw = .ok value ↔
    raw = "NO_TIMEOUT" ∧ value = "-1" ∨ Duration.IsDuration raw ∧ value = raw := by
  by_cases noTimeout : raw = "NO_TIMEOUT"
  · subst noTimeout
    have stored : normalize .timeout "NO_TIMEOUT" = .ok "-1" := by decide
    have noDuration : ¬ Duration.IsDuration "NO_TIMEOUT" := by decide
    simp [stored, noDuration, eq_comm]
  · rw [normalize_timeout_of_ne noTimeout, map_eq_ok_iff, ← Duration.check_eq_ok_iff]
    constructor
    · rintro ⟨_, accepted, rfl⟩
      exact .inr ⟨accepted, rfl⟩
    · rintro (⟨given, _⟩ | ⟨accepted, rfl⟩)
      · exact absurd given noTimeout
      · exact ⟨(), accepted, rfl⟩

theorem normalize_timeout_eq_error_iff {raw : String} {e : ValueError} :
    normalize .timeout raw = .error e ↔ raw ≠ "NO_TIMEOUT" ∧ Duration.check raw = .error e := by
  by_cases noTimeout : raw = "NO_TIMEOUT"
  · subst noTimeout
    have stored : normalize .timeout "NO_TIMEOUT" = .ok "-1" := by decide
    simp [stored]
  · rw [normalize_timeout_of_ne noTimeout, map_eq_error_iff]
    simp [noTimeout]

/-- The timeout is a duration or the alias for none; what is refused is named by its unit if that is
all that is wrong with it, and as a whole otherwise. The amount that is cut off a value ends between
two characters. -/
theorem normalize_timeout (raw : String) :
    normalize .timeout "NO_TIMEOUT" = .ok "-1" ∧
    (normalize .timeout raw = .ok raw ↔ Duration.IsDuration raw) ∧
    (∀ unit, normalize .timeout raw = .error (.unknownTimeUnit unit) ↔
      Duration.HasUnknownUnit raw unit) ∧
    (normalize .timeout raw = .error (.invalidDuration raw) ↔
      raw ≠ "NO_TIMEOUT" ∧ ¬ Duration.IsDuration raw ∧
        ∀ unit, ¬ Duration.HasUnknownUnit raw unit) ∧
    (Duration.amountEnd raw).IsValid raw := by
  refine ⟨normalize_timeout_eq_ok_iff.mpr (.inl ⟨rfl, rfl⟩), ?_, fun unit => ?_, ?_,
    (Duration.splits_amountEnd raw).1⟩
  · rw [normalize_timeout_eq_ok_iff]
    refine ⟨?_, fun duration => .inr ⟨duration, rfl⟩⟩
    rintro (⟨rfl, differs⟩ | ⟨duration, _⟩)
    · exact absurd differs (by decide)
    · exact duration
  · rw [normalize_timeout_eq_error_iff, ← Duration.check_eq_unknownTimeUnit_iff]
    refine ⟨And.right, fun refused => ⟨?_, refused⟩⟩
    rintro rfl
    rw [check_noTimeout] at refused
    cases refused
  · rw [normalize_timeout_eq_error_iff, Duration.check_eq_invalidDuration_iff]

end Setting

/-! ## On the command line -/

/-- What is stored has been checked. -/
theorem Parsing.exists_normalize_of_mem {entries : List (Setting × Bytes)}
    {settings : List (Setting × String)} (stored : List.Forall₂ Parsing.Stored entries settings)
    {s : Setting} {value : String} (mem : (s, value) ∈ settings) :
    ∃ raw, s.normalize raw = .ok value := by
  induction stored with
  | nil => cases mem
  | cons head _ ih =>
    rcases List.mem_cons.mp mem with rfl | later
    · obtain ⟨same, raw, _, normal⟩ := head
      exact ⟨raw, by rwa [← same] at normal⟩
    · exact ih later

namespace Invocation

variable {source : Option Bytes} {args : List Bytes} {invocation : Invocation}

theorem mem_overrides_iff (parsed : parseArguments source args = .ok invocation) (name : String) :
    name ∈ invocation.overrides.map Prod.fst ↔
      ∃ s ∈ Setting.all, s.envName = name ∧ s.valuesIn (Parsing.given none args) ≠ [] := by
  constructor
  · intro mem
    obtain ⟨⟨name, value⟩, entry, rfl⟩ := List.mem_map.mp mem
    by_contra absent
    have missing : invocation.overrides.get? name = none :=
      overrides_get?_other parsed fun s given same => absent ⟨s, s.mem_all, same.symm, given⟩
    have found : invocation.overrides.get? name = some value :=
      Dictionary.get?_of_mem (Setting.ordered_fold _).nodup entry
    rw [missing] at found
    cases found
  · rintro ⟨s, _, rfl, given⟩
    obtain ⟨_, _, found⟩ := overrides_get?_envName parsed given
    exact List.mem_map.mpr ⟨_, Dictionary.mem_of_get? found, rfl⟩

theorem isDuration_timeout (parsed : parseArguments source args = .ok invocation) {value : String}
    (found : invocation.overrides.get? Setting.timeout.envName = some value) :
    Duration.IsDuration value := by
  rw [overrides, Setting.get?_fold, valuesIn_occurrences] at found
  have last : value ∈ Setting.timeout.valuesIn invocation.settings := List.mem_of_getLast? found
  obtain ⟨⟨s, stored⟩, mem, own⟩ := List.mem_filterMap.mp last
  obtain ⟨rfl, same⟩ := Option.ite_none_right_eq_some.mp own
  obtain rfl : stored = value := Option.some.inj same
  obtain ⟨raw, normal⟩ :=
    Parsing.exists_normalize_of_mem (Parsing.parseArguments_settings parsed) mem
  rcases Setting.normalize_timeout_eq_ok_iff.mp normal with ⟨_, rfl⟩ | ⟨duration, rfl⟩
  · decide
  · exact duration

/-- The variables of a command line are those of the settings that it gives a value, and the timeout
among them is a duration. -/
theorem overrides_names (parsed : parseArguments source args = .ok invocation) :
    (∀ name, name ∈ invocation.overrides.map Prod.fst ↔
      ∃ s ∈ Setting.all, s.envName = name ∧ s.valuesIn (Parsing.given none args) ≠ []) ∧
    ∀ value, invocation.overrides.get? "IJAVA_TIMEOUT" = some value →
      Duration.IsDuration value ∧ value ≠ "NO_TIMEOUT" := by
  refine ⟨mem_overrides_iff parsed, fun value found => ?_⟩
  have duration : Duration.IsDuration value := isDuration_timeout parsed found
  refine ⟨duration, ?_⟩
  rintro rfl
  exact absurd duration (by decide)

/-- An alias that a later timeout replaces, and an argument that only looks like a flag. -/
theorem overrides_names_sample :
    let args := ["--timeout", "NO_TIMEOUT", "--comp-opts", "--classpath=a",
      "--timeout=30-seconds"].map Bytes.ofString
    let invocation : Invocation :=
      { settings := [(.timeout, "-1"), (.compilerOptions, "--classpath=a"),
          (.timeout, "30-seconds")] }
    parseArguments none args = .ok invocation ∧
      invocation.overrides =
        [("IJAVA_COMPILER_OPTS", "--classpath=a"), ("IJAVA_TIMEOUT", "30-seconds")] ∧
      ("IJAVA_CLASSPATH" ∈ invocation.overrides.map Prod.fst ↔
        ∃ s ∈ Setting.all, s.envName = "IJAVA_CLASSPATH" ∧
          s.valuesIn (Parsing.given none args) ≠ []) ∧
      Duration.IsDuration "30-seconds" ∧ "30-seconds" ≠ "NO_TIMEOUT" := by
  intro args invocation
  have parsed : parseArguments none args = .ok invocation := by decide +kernel
  have overrides : invocation.overrides =
      [("IJAVA_COMPILER_OPTS", "--classpath=a"), ("IJAVA_TIMEOUT", "30-seconds")] := by decide
  obtain ⟨names, timeout⟩ := overrides_names parsed
  exact ⟨parsed, overrides, names _, timeout _ (by rw [overrides]; rfl)⟩

end Invocation

end KernelSpec
