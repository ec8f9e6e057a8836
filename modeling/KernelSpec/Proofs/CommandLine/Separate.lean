import KernelSpec.Proofs.CommandLine.Step
import KernelSpec.Proofs.Duration
import KernelSpec.Proofs.Text.Bytes

/-! # Values that stand apart from their flags

The value of a setting follows its flag after the sign `=` or as the next argument. The first is
always read as the value; the second only if it is not taken for flags (`StandsAlone`). Which values
these are depends on the setting (`Setting.separable`, `standsAlone_iff`): an amount of time that is
negative is taken for flags as soon as a unit follows it.
-/

namespace KernelSpec

namespace Setting

/-- Whether a value may follow its flag as an argument of its own. The compiler options are read
whatever they look like. After a dash, a timeout may have digits and a point, and no other setting
may have anything. -/
def separable : Setting → List Char → Bool
  | .compilerOptions, _ => true
  | .timeout, '-' :: rest => [[], ['.']].contains (rest.dropWhile Char.isDigit)
  | _, '-' :: rest => rest.isEmpty
  | _, _ => true

theorem separable_of_head?_ne (s : Setting) {value : List Char} (unsigned : value.head? ≠ some '-') :
    s.separable value = true := by
  unfold separable
  split
  · rfl
  · exact absurd rfl unsigned
  · exact absurd rfl unsigned
  · rfl

end Setting

namespace Parsing

/-- What an option that waits takes as its value. -/
inductive StandsAlone (f : Flag) : Bytes → Prop
  | plain {arg : Bytes} : arg.head? ≠ some dash → StandsAlone f arg
  | lone : StandsAlone f [dash]
  | dashes {arg : Bytes} : f.takesDashes = true → StandsAlone f arg
  | number {digits : Bytes} : f.takesNegativeNumbers = true → looksNumeric digits = true →
      StandsAlone f (dash :: digits)

/-! ## An option that waits -/

theorem settle_ne_ok {state next : Parsing} {f : Flag} (waiting : state.waiting = some (f, none)) :
    state.settle ≠ (next, none) := by
  intro settled
  obtain ⟨nothing, _⟩ | ⟨_, _, filled, _⟩ := settle_cases settled
  · rw [nothing] at waiting
    cases waiting
  · rw [filled] at waiting
    cases waiting

theorem step_value {state : Parsing} {f : Flag} {arg : Bytes}
    (waiting : state.waiting = some (f, none)) (flagged : state.onlyValues = false)
    (alone : StandsAlone f arg) :
    state.step arg = .ok { state with waiting := some (f, some arg) } := by
  have wants : state.wanting? = some f := by rw [wanting?, waiting]
  have taken : state.takeValue arg = .ok { state with waiting := some (f, some arg) } := by
    rw [takeValue, wants]
  rw [← taken]
  unfold step
  rw [if_neg (by simp [flagged]), wants]
  cases alone with
  | plain head =>
    split
    · rfl
    · split
      · exact absurd rfl head
      · exact absurd rfl head
      · exact absurd rfl head
      · rfl
  | lone => exact ite_self _
  | dashes takes => exact if_pos takes
  | number takes numeric =>
    split
    · rfl
    · split
      · next same =>
        cases same
        cases numeric
      · next same =>
        cases same
        cases numeric
      · next same =>
        cases same
        exact if_pos (by simp [takes, numeric])
      · rfl

/-- An argument that is no value leaves the option waiting, or is refused. -/
theorem step_apart {state next : Parsing} {f : Flag} {arg : Bytes}
    (waiting : state.waiting = some (f, none)) (apart : ¬ StandsAlone f arg)
    (accepted : state.step arg = .ok next) : next = { state with onlyValues := true } := by
  have wants : state.wanting? = some f := by rw [wanting?, waiting]
  have unsettled {settled : Parsing} : state.settle ≠ (settled, none) := settle_ne_ok waiting
  unfold step at accepted
  split at accepted
  · cases accepted
  · split at accepted
    · next dashes =>
      rw [wants] at dashes
      exact absurd (.dashes dashes) apart
    · split at accepted
      · cases accepted
        rfl
      · obtain ⟨_, _, ⟨_, _, accepted⟩ | ⟨_, _, settles, _⟩⟩ := long_eq_ok accepted
        · obtain ⟨_, _, settles, _⟩ := acceptFlag_eq_ok accepted
          exact absurd settles unsettled
        · exact absurd settles unsettled
      · split at accepted
        · next numeric =>
          rw [wants, Bool.and_eq_true] at numeric
          exact absurd (.number numeric.1 numeric.2) apart
        · obtain ⟨_, settles, _⟩ := cluster_eq_ok accepted (pieces_ne_nil _ _)
          exact absurd settles unsettled
      · next short =>
        by_cases head : arg.head? = some dash
        · obtain ⟨rest, rfl⟩ := List.head?_eq_some_iff.mp head
          cases rest with
          | nil => exact absurd .lone apart
          | cons b rest => exact absurd rfl (short b rest)
        · exact absurd (.plain head) apart

/-- The long name of an option alone lets it wait. -/
theorem long_option (state : Parsing) {f : Flag} (takes : f.takesValue = true) :
    state.long (Bytes.ofString f.name) =
      orStop state.settle >>= fun settled => .ok { settled with waiting := some (f, none) } := by
  have split := splitEquals_name f none
  simp only [Option.elim, List.append_nil] at split
  rw [long, split]
  simp only [longFlag?_name, takes]
  rfl

/-- At the end an option with its value is settled as if the value had been attached. -/
theorem finish_waiting (source : Option Bytes) {state : Parsing} (settled : state.waiting = none)
    (f : Flag) (value : Bytes) : finish source { state with waiting := some (f, some value) } =
      orStop (state.settleFlag f value) >>= finish source := by
  have cleared : ({ state with waiting := none } : Parsing) = state := by rw [← settled]
  have settles : settle { state with waiting := some (f, some value) } =
      state.settleFlag f value := by
    rw [settle, cleared]
  rw [finish, settles]
  rcases flag : state.settleFlag f value with ⟨next, _ | e⟩
  · have waiting : next.waiting = none := (settleFlag_settings flag).1.trans settled
    rw [orStop, ok_bind, ok_bind, finish, settle_of_settled waiting]
    rfl
  · rfl

/-- A setting with a value that is accepted is added to those before, and nothing else changes. -/
theorem exists_settleFlag_setting (state : Parsing) {s : Setting} {raw normal : String}
    (normalized : s.normalize raw = .ok normal) :
    ∃ next, state.settleFlag (.setting s) (Bytes.ofString raw) = (next, none) ∧
      next.waiting = state.waiting ∧
      (.kernelSource ∈ next.used ↔ .kernelSource ∈ state.used) ∧
      next.used.filter Flag.isLocation = state.used.filter Flag.isLocation ∧
      next.invocation = { state.invocation with
        settings := state.invocation.settings ++ [(s, normal)] } := by
  have recorded := record_setting state.invocation normalized
  by_cases mem : .setting s ∈ state.used
  · refine ⟨_, settleFlag_eq_ok_iff.mpr ⟨_, recorded, .inl ⟨mem, rfl, rfl⟩⟩, rfl, ?_⟩
    exact ⟨Iff.rfl, rfl, rfl⟩
  · refine ⟨_, settleFlag_eq_ok_iff.mpr ⟨_, recorded, .inr ⟨mem, rfl⟩⟩, rfl, ?_⟩
    simp [Flag.isLocation]

/-! ## After an accepted command line -/

/-- The flag of a setting as an argument of its own. -/
def bareFlag (s : Setting) : Bytes := Bytes.ofString ("--" ++ s.flag)

namespace Ended

variable {source : Option Bytes} {args : List Bytes} {invocation : Invocation}
  {final settled : Parsing}

theorem append_bareFlag (ended : Ended source args invocation final settled)
    (noDashes : [dash, dash] ∉ args) (s : Setting) :
    (args ++ [bareFlag s]).foldlM step {} =
      .ok { settled with waiting := some (.setting s, none) } := by
  have takes : (Flag.setting s).takesValue = true := by cases s <;> rfl
  have named : Bytes.ofString (Flag.setting s).name ≠ [] := fun empty =>
    (flag_names _ (Flag.mem_all _)).2.1 (Bytes.ofString_injective empty)
  have opened : final.step (bareFlag s) =
      .ok { settled with waiting := some (.setting s, none) } := by
    rw [bareFlag, ofString_flag]
    refine (step_long ended.wants (ended.flagged noDashes) named).trans ?_
    rw [long_option final takes, ended.settles]
    rfl
  rw [List.foldlM_append, ended.ran, ok_bind, List.foldlM_cons, opened]
  rfl

/-- A value that stands alone is read as if it had been attached. -/
theorem append_separate (ended : Ended source args invocation final settled)
    (noDashes : [dash, dash] ∉ args) {s : Setting} {raw : String}
    (alone : StandsAlone (.setting s) (Bytes.ofString raw)) :
    parseArguments source (args ++ [bareFlag s, Bytes.ofString raw]) =
      parseArguments source (args ++ [(Word.setting s raw).argument]) := by
  let opened : Parsing := { settled with waiting := some (.setting s, none) }
  have flagged : opened.onlyValues = false :=
    (settle_onlyValues ended.settles).trans (ended.flagged noDashes)
  have taken : opened.step (Bytes.ofString raw) =
      .ok { settled with waiting := some (.setting s, some (Bytes.ofString raw)) } :=
    step_value rfl flagged alone
  rw [ended.append_word noDashes, ← List.singleton_append, ← List.append_assoc, parseArguments,
    List.foldlM_append, ended.append_bareFlag noDashes, ok_bind, List.foldlM_cons, taken]
  exact finish_waiting source ended.waiting _ _

/-- A value that does not is refused. -/
theorem append_refused (ended : Ended source args invocation final settled)
    (noDashes : [dash, dash] ∉ args) {s : Setting} {raw : String}
    (apart : ¬ StandsAlone (.setting s) (Bytes.ofString raw)) (other : Invocation) :
    parseArguments source (args ++ [bareFlag s, Bytes.ofString raw]) ≠ .ok other := by
  intro parsed
  rw [← List.singleton_append, ← List.append_assoc, parseArguments, List.foldlM_append,
    ended.append_bareFlag noDashes, ok_bind, List.foldlM_cons] at parsed
  obtain ⟨last, ran, finished⟩ := bind_eq_ok_iff.mp parsed
  obtain ⟨next, stepped, same⟩ := bind_eq_ok_iff.mp ran
  cases same
  -- The option still waits for its value when the arguments end.
  rw [step_apart rfl apart stepped] at finished
  have wants := finish_wanting finished
  cases wants

/-- A setting is added to those before. -/
theorem append_setting (ended : Ended source args invocation final settled)
    (noDashes : [dash, dash] ∉ args) {s : Setting} {raw normal : String}
    (normalized : s.normalize raw = .ok normal) :
    parseArguments source (args ++ [(Word.setting s raw).argument]) =
      .ok { invocation with settings := invocation.settings ++ [(s, normal)] } := by
  obtain ⟨usable, single, rfl⟩ := finish_eq_ok ended.waiting ended.finished
  obtain ⟨next, flag, waiting, sources, locations, added⟩ :=
    exists_settleFlag_setting settled normalized
  have finished : next.finish source = .ok (sourced source next) :=
    finish_of_single (waiting.trans ended.waiting) (fun empty => sources.mpr (usable empty))
      (locations ▸ single)
  have grown : sourced source next = { sourced source settled with
      settings := (sourced source settled).settings ++ [(s, normal)] } := by
    simp only [sourced, sources, added]
    split <;> rfl
  rw [ended.append_word noDashes, ← grown, ← finished]
  exact congrArg (orStop · >>= finish source) flag

end Ended

/-! ## Numbers -/

theorem digitByte_iff {b : UInt8} :
    digitByte b = true ↔ '0'.toNat ≤ b.toNat ∧ b.toNat ≤ '9'.toNat := by
  simp [digitByte, UInt8.le_iff_toNat_le]

theorem utf8EncodeChar_digit {d : Char} (digit : d.isDigit = true) :
    ∃ b, String.utf8EncodeChar d = [b] ∧ digitByte b = true := by
  obtain ⟨low, high⟩ := Char.isDigit_iff_toNat.mp digit
  have ascii : d.toNat ≤ 127 := high.trans (by decide)
  refine ⟨d.val.toUInt8, String.utf8EncodeChar_eq_singleton ?_, ?_⟩
  · rwa [Char.utf8Size_eq_one_iff, UInt32.le_iff_toNat_le]
  · have byte : d.val.toUInt8.toNat = d.toNat := Nat.mod_eq_of_lt (ascii.trans_lt (by decide))
    rw [digitByte_iff, byte]
    exact ⟨low, high⟩

theorem continuesNumber_digits {digits : List Char} (decimal : ∀ d ∈ digits, d.isDigit = true)
    (point mark : Bool) (seen : Nat) (after : Bytes) :
    continuesNumber point mark seen (digits.flatMap String.utf8EncodeChar ++ after) =
      continuesNumber point mark (seen + digits.length) after := by
  induction digits generalizing seen with
  | nil => rfl
  | cons d digits ih =>
    obtain ⟨b, encoded, digit⟩ := utf8EncodeChar_digit (decimal d List.mem_cons_self)
    rw [List.flatMap_cons, encoded, List.append_assoc, List.singleton_append, continuesNumber,
      if_pos digit, ih fun c later => decimal c (List.mem_cons_of_mem _ later), List.length_cons]
    congr 1
    omega

/-- A character that is no digit and marks no exponent can only be the point. -/
theorem continuesNumber_other {c : Char} (notDigit : c.isDigit = false) (lower : c ≠ 'e')
    (upper : c ≠ 'E') (point : Bool) (seen : Nat) (after : Bytes) :
    continuesNumber point false seen (String.utf8EncodeChar c ++ after) =
      (c == '.' && !point && seen != 0 && continuesNumber true false (seen + 1) after) := by
  by_cases isPoint : c = '.'
  · subst isPoint
    have encoded : String.utf8EncodeChar '.' = [0x2E] := rfl
    have noDigit : digitByte 0x2E = false := rfl
    simp [encoded, continuesNumber, noDigit]
  · obtain ⟨b, more, encoded⟩ := List.exists_cons_of_ne_nil (String.utf8EncodeChar_ne_nil (c := c))
    have code : b.toNat < 128 → c.toNat = b.toNat :=
      Bytes.toNat_of_head? (by rw [encoded, List.head?_cons])
    have other {d : Char} (differs : c ≠ d) (ascii : d.toNat < 128) : b.toNat ≠ d.toNat := by
      intro same
      exact differs (Char.toNat_inj.mp ((code (same ▸ ascii)).trans same))
    have noDigit : digitByte b = false := by
      rw [Bool.eq_false_iff, ne_eq, digitByte_iff]
      rintro ⟨low, high⟩
      rw [← code (high.trans_lt (by decide))] at low high
      exact absurd (Char.isDigit_iff_toNat.mpr ⟨low, high⟩) (by simp [notDigit])
    have noPoint : b ≠ 0x2E := fun same => other isPoint (by decide) (same ▸ rfl)
    have noLower : b ≠ 0x65 := fun same => other lower (by decide) (same ▸ rfl)
    have noUpper : b ≠ 0x45 := fun same => other upper (by decide) (same ▸ rfl)
    simp [encoded, continuesNumber, noDigit, noPoint, noLower, noUpper, isPoint]

end Parsing

/-! ## Durations -/

namespace Duration

/-- No time unit begins like an exponent. -/
theorem Known.head_ne {unit : List Char} (known : Known unit) {c : Char}
    (head : unit.head? = some c) : c ≠ 'e' ∧ c ≠ 'E' := by
  obtain ⟨name, mem, same⟩ := known
  have names : ∀ name ∈ timeUnits, (name.toList.map Char.toLower).head? ≠ some 'e' := by decide
  have begins : (unit.map Char.toLower).head? = some c.toLower := by
    rw [List.head?_map, head, Option.map_some]
  have differs := names name mem
  rw [← same, begins] at differs
  constructor <;>
  · rintro rfl
    exact differs rfl

variable {separator unit : List Char}

/-- What follows the digits of a duration goes on as a number only by a point. -/
theorem continuesNumber_iff (apart : ∀ c ∈ separator, c.isAlphanum = false ∧ c ≠ '_')
    (unitOk : unit = [] ∨ Known unit) (point : Bool) {seen : Nat} (begun : seen ≠ 0) :
    Parsing.continuesNumber point false seen
        ((separator ++ unit).flatMap String.utf8EncodeChar) = true ↔
      separator ++ unit = [] ∨ ∃ others, separator = '.' :: others ∧ point = false ∧
        Parsing.continuesNumber true false (seen + 1)
          ((others ++ unit).flatMap String.utf8EncodeChar) = true := by
  cases separator with
  | cons c others =>
    have other := (apart c List.mem_cons_self).1
    have notDigit : c.isDigit = false := (Bool.or_eq_false_iff.mp other).2
    have lower : c ≠ 'e' := by
      rintro rfl
      cases other
    have upper : c ≠ 'E' := by
      rintro rfl
      cases other
    rw [List.cons_append, List.flatMap_cons, Parsing.continuesNumber_other notDigit lower upper]
    simp [begun, and_assoc]
  | nil =>
    rcases unitOk with rfl | known
    · simp [Parsing.continuesNumber]
    · cases unit with
      | nil => simp [Parsing.continuesNumber]
      | cons c letters =>
        have letter := known.letters c List.mem_cons_self
        obtain ⟨lower, upper⟩ := known.head_ne List.head?_cons
        have noPoint : c ≠ '.' := by
          rintro rfl
          cases letter
        rw [List.nil_append, List.flatMap_cons,
          Parsing.continuesNumber_other (isDigit_eq_false_of_isAlpha letter) lower upper]
        simp [noPoint]

/-- A duration without its sign looks like a number if nothing or a point follows the digits. -/
theorem Cut.looksNumeric_iff {value : String} {negative : Bool} {digits : List Char}
    (cut : Cut value negative digits separator unit) (unitOk : unit = [] ∨ Known unit) :
    Parsing.looksNumeric ((digits ++ (separator ++ unit)).flatMap String.utf8EncodeChar) = true ↔
      separator ++ unit = [] ∨ separator ++ unit = ['.'] := by
  have begun : 0 + digits.length ≠ 0 := by simpa using cut.nonempty
  rw [Parsing.looksNumeric, List.flatMap_append, Parsing.continuesNumber_digits cut.decimal,
    continuesNumber_iff cut.apart unitOk false begun]
  refine or_congr_right ⟨?_, fun only => ?_⟩
  · rintro ⟨others, rfl, _, goesOn⟩
    -- After a point nothing goes on, not even by a second one.
    have apart : ∀ c ∈ others, c.isAlphanum = false ∧ c ≠ '_' := fun c later =>
      cut.apart c (List.mem_cons_of_mem _ later)
    obtain nothing | ⟨_, _, again, _⟩ := (continuesNumber_iff apart unitOk true (by simp)).mp goesOn
    · rw [List.cons_append, nothing]
    · cases again
  · cases separator with
    | nil =>
      obtain rfl : unit = ['.'] := only
      have letter := letters_of_unit unitOk '.' List.mem_cons_self
      cases letter
    | cons c others =>
      rw [List.cons_append, List.cons_eq_cons] at only
      obtain ⟨rfl, nothing⟩ := only
      refine ⟨others, rfl, rfl, ?_⟩
      rw [nothing]
      rfl

/-- A duration with a sign is the sign before digits, separator and unit. -/
theorem Cut.of_dash {value : String} {negative : Bool} {digits rest : List Char}
    (cut : Cut value negative digits separator unit) (signed : value.toList = '-' :: rest) :
    rest = digits ++ (separator ++ unit) := by
  have split := cut.splitSign_eq
  rw [signed] at split
  exact (Prod.mk.inj split).2

end Duration

/-! ## The values of a setting -/

namespace Parsing

theorem standsAlone_dash_iff {f : Flag} {body : Bytes} : StandsAlone f (dash :: body) ↔
    body = [] ∨ f.takesDashes = true ∨ f.takesNegativeNumbers = true ∧ looksNumeric body = true := by
  constructor
  · intro alone
    cases alone with
    | plain head => exact absurd rfl head
    | lone => exact .inl rfl
    | dashes takes => exact .inr (.inl takes)
    | number takes numeric => exact .inr (.inr ⟨takes, numeric⟩)
  · rintro (rfl | takes | ⟨takes, numeric⟩)
    · exact .lone
    · exact .dashes takes
    · exact .number takes numeric

theorem separable_timeout_iff {raw normal : String} {rest : List Char}
    (normalized : Setting.normalize .timeout raw = .ok normal) (signed : raw.toList = '-' :: rest) :
    looksNumeric (rest.flatMap String.utf8EncodeChar) = true ↔
      Setting.separable .timeout ('-' :: rest) = true := by
  rcases Setting.normalize_timeout_eq_ok_iff.mp normalized with ⟨rfl, _⟩ | ⟨duration, _⟩
  · cases signed
  · obtain ⟨negative, digits, separator, unit, cut, unitOk⟩ := duration
    obtain rfl := cut.of_dash signed
    have after := (cut.span_digits (Duration.letters_of_unit unitOk)).2
    rw [cut.looksNumeric_iff unitOk, Setting.separable, after]
    simp

/-- The values that are accepted and stand alone are those that may be separate. -/
theorem standsAlone_iff {s : Setting} {raw normal : String}
    (normalized : s.normalize raw = .ok normal) :
    StandsAlone (.setting s) (Bytes.ofString raw) ↔ s.separable raw.toList = true := by
  rw [Bytes.ofString_eq]
  by_cases signed : raw.toList.head? = some '-'
  · obtain ⟨rest, spelling⟩ := List.head?_eq_some_iff.mp signed
    have bytes : raw.toList.flatMap String.utf8EncodeChar =
        dash :: rest.flatMap String.utf8EncodeChar := by
      rw [spelling]
      rfl
    have empty : rest.flatMap String.utf8EncodeChar = [] ↔ rest = [] := by
      cases rest <;> simp
    rw [bytes, standsAlone_dash_iff, empty, spelling]
    cases s with
    | timeout =>
      rw [← separable_timeout_iff normalized spelling]
      constructor
      · rintro (rfl | takes | ⟨_, numeric⟩)
        · rfl
        · cases takes
        · exact numeric
      · exact fun numeric => .inr (.inr ⟨rfl, numeric⟩)
    | _ => simp [Flag.takesDashes, Flag.takesNegativeNumbers, Setting.separable]
  · -- Only the dash is written with the byte of the dash at its head.
    refine iff_of_true (.plain fun head => signed ?_) (Setting.separable_of_head?_ne s signed)
    cases chars : raw.toList with
    | nil =>
      rw [chars] at head
      cases head
    | cons c cs =>
      rw [chars, List.flatMap_cons, List.head?_append_of_ne_nil _ String.utf8EncodeChar_ne_nil]
        at head
      rw [List.head?_cons, Option.some_inj]
      exact Char.toNat_inj.mp (Bytes.toNat_of_head? head (by decide))

end Parsing

/-- A setting that is given last is added to those before. Its value may be an argument of its own
exactly if it is separable, and comes to the same then. -/
theorem parseArguments_separate {source : Option Bytes} {args : List Bytes}
    {invocation : Invocation} (parsed : parseArguments source args = .ok invocation)
    (noDashes : [Parsing.dash, Parsing.dash] ∉ args) {s : Setting} {raw normal : String}
    (normalized : s.normalize raw = .ok normal) :
    let attached := parseArguments source (args ++ [(Word.setting s raw).argument])
    let separate := parseArguments source (args ++ [Parsing.bareFlag s, Bytes.ofString raw])
    attached = .ok { invocation with settings := invocation.settings ++ [(s, normal)] } ∧
      ∀ other, separate = .ok other ↔ s.separable raw.toList = true ∧ attached = .ok other := by
  intro attached separate
  obtain ⟨final, settled, ended⟩ := Parsing.exists_ended parsed
  refine ⟨ended.append_setting noDashes normalized, fun other => ?_⟩
  rw [← Parsing.standsAlone_iff normalized]
  constructor
  · intro accepted
    have alone : Parsing.StandsAlone (.setting s) (Bytes.ofString raw) := by
      by_contra apart
      exact ended.append_refused noDashes apart other accepted
    exact ⟨alone, (ended.append_separate noDashes alone).symm.trans accepted⟩
  · rintro ⟨alone, accepted⟩
    exact (ended.append_separate noDashes alone).trans accepted

/-- A negative amount with a point, after a compiler option that looks like a flag. -/
theorem parseArguments_separate_point :
    let args := ["--comp-opts", "--timeout", "-v"].map Bytes.ofString
    let invocation : Invocation := { settings := [(.compilerOptions, "--timeout")], verbose := true }
    let both := { invocation with settings := invocation.settings ++ [(.timeout, "-07.")] }
    parseArguments none args = .ok invocation ∧ [Parsing.dash, Parsing.dash] ∉ args ∧
      Setting.timeout.normalize "-07." = .ok "-07." ∧
      parseArguments none (args ++ ["--timeout=-07."].map Bytes.ofString) = .ok both ∧
      parseArguments none (args ++ ["--timeout", "-07."].map Bytes.ofString) = .ok both := by
  intro args invocation both
  have parsed : parseArguments none args = .ok invocation := by decide +kernel
  have noDashes : [Parsing.dash, Parsing.dash] ∉ args := by decide
  have normalized : Setting.timeout.normalize "-07." = .ok "-07." := by decide
  obtain ⟨attached, separate⟩ := parseArguments_separate parsed noDashes normalized
  exact ⟨parsed, noDashes, normalized, attached, (separate both).mpr ⟨by decide, attached⟩⟩

/-- A negative amount with a unit is accepted after the sign `=` and taken for flags without it. -/
theorem parseArguments_separate_unit :
    parseArguments none [] = .ok {} ∧
      Setting.timeout.normalize "-5 SECONDS" = .ok "-5 SECONDS" ∧
      parseArguments none (["--timeout=-5 SECONDS"].map Bytes.ofString) =
        .ok { settings := [(.timeout, "-5 SECONDS")] } ∧
      parseArguments none (["--timeout", "-5 SECONDS"].map Bytes.ofString) =
        .error (.usage (.unknownArgument "-5")) := by
  refine ⟨rfl, ?_, ?_, ?_⟩ <;> decide +kernel

end KernelSpec
