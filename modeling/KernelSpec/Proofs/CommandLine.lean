import KernelSpec.CommandLine.Parse
import KernelSpec.Proofs.Except

/-! # Settings on the command line

`given` reads the settings off a command line: an argument `--name=value` gives the setting a
value, an argument `--name` gives it the argument that follows. Of a command line that is accepted
these are recorded, all of them and in this order, each as the value it stands for
(`parseArguments_settings`).
-/

namespace KernelSpec.Parsing

/-- The part of an argument before the first `=`. -/
def label (arg : Bytes) : Bytes := arg.takeWhile (· != equals)

/-- The setting whose flag an argument begins with. -/
def settingNamed? (arg : Bytes) : Option Setting :=
  Setting.all.find? fun s => label arg == Bytes.ofString ("--" ++ s.flag)

/-- The settings that arguments give, with their values; the first argument is the value of the
setting that is open. -/
def given : Option Setting → List Bytes → List (Setting × Bytes)
  | _, [] => []
  | some s, value :: args => (s, value) :: given none args
  | none, arg :: args =>
    match settingNamed? arg, arg.dropWhile (· != equals) with
    | none, _ => given none args
    | some s, [] => given (some s) args
    | some s, _ :: value => (s, value) :: given none args

/-- The text that is stored for the bytes that a setting is given. -/
def Stored (entry : Setting × Bytes) (stored : Setting × String) : Prop :=
  stored.1 = entry.1 ∧ ∃ raw, entry.2.text? = some raw ∧ entry.1.normalize raw = .ok stored.2

/-- The settings that are still to be recorded, with those that the arguments give. -/
def owed (state : Parsing) (args : List Bytes) : List (Setting × Bytes) :=
  match state.waiting with
  | some (.setting s, some value) => (s, value) :: given none args
  | some (.setting s, none) => given (some s) args
  | _ => given none args

/-- Between two states, the first of the settings that were owed have been recorded. -/
def Records (state : Parsing) (args : List Bytes) (next : Parsing) (later : List Bytes) : Prop :=
  ∃ early more, List.Forall₂ Stored early more ∧ owed state args = early ++ owed next later ∧
    next.invocation.settings = state.invocation.settings ++ more

theorem Records.of_eq {state next : Parsing} {args later : List Bytes}
    (same : owed state args = owed next later)
    (settings : next.invocation.settings = state.invocation.settings) :
    Records state args next later :=
  ⟨[], [], .nil, same, by rw [settings, List.append_nil]⟩

theorem Records.trans {first second third : Parsing} {args mid later : List Bytes}
    (left : Records first args second mid) (right : Records second mid third later) :
    Records first args third later := by
  obtain ⟨early, more, stored, owed, settings⟩ := left
  obtain ⟨early', more', stored', owed', settings'⟩ := right
  refine ⟨early ++ early', more ++ more', List.rel_append stored stored', ?_, ?_⟩
  · rw [owed, owed', List.append_assoc]
  · rw [settings', settings, List.append_assoc]

theorem owed_of_waiting_none {state : Parsing} (nothing : state.waiting = none)
    (args : List Bytes) : owed state args = given none args := by
  rw [owed, nothing]

/-! ## Settling -/

theorem orStop_eq_ok_iff {settled : Parsing × Option UsageError} {next : Parsing} :
    orStop settled = .ok next ↔ settled = (next, none) := by
  obtain ⟨state, error?⟩ := settled
  cases error? <;> simp [orStop]

/-- A flag is recorded: the value of a setting, a directory of kernel files or a shell if it is
accepted, any other flag as it is. -/
theorem record_eq_ok {invocation next : Invocation} {value : Bytes} {f : Flag}
    (recorded : record invocation value f = .ok next) :
    (∃ s stored, f = .setting s ∧ Stored (s, value) stored ∧
      next = { invocation with settings := invocation.settings ++ [stored] }) ∨
    (∃ files, f = .kernelSource ∧ next = { invocation with kernelSource? := some files }) ∨
    (∃ shell, f = .completions ∧ next = { invocation with completions? := some shell }) ∨
    f ∈ [Flag.user, .environment, .under, .replace, .verbose, .help, .version] := by
  cases f with
  | setting s =>
    simp only [record] at recorded
    split at recorded
    · cases recorded
    · next raw text =>
      split at recorded
      · cases recorded
      · next normal checked =>
        cases recorded
        exact .inl ⟨s, (s, normal), rfl, ⟨rfl, raw, text, checked⟩, rfl⟩
  | kernelSource =>
    simp only [record] at recorded
    split at recorded
    · cases recorded
    · cases recorded
      exact .inr (.inl ⟨_, rfl, rfl⟩)
  | completions =>
    simp only [record] at recorded
    split at recorded
    · cases recorded
    · split at recorded
      · cases recorded
        exact .inr (.inr (.inl ⟨_, rfl, rfl⟩))
      · cases recorded
  | _ => simp

/-- A setting is added at the end, another flag leaves the settings. -/
theorem record_settings {invocation next : Invocation} {value : Bytes} {f : Flag}
    (recorded : record invocation value f = .ok next) :
    (∃ s stored, f = .setting s ∧ Stored (s, value) stored ∧
      next.settings = invocation.settings ++ [stored]) ∨
    (∀ s, f ≠ .setting s) ∧ next.settings = invocation.settings := by
  obtain ⟨s, stored, rfl, kept, rfl⟩ | ⟨_, rfl, rfl⟩ | ⟨_, rfl, rfl⟩ | other :=
    record_eq_ok recorded
  · exact .inl ⟨s, stored, rfl, kept, rfl⟩
  · exact .inr ⟨nofun, rfl⟩
  · exact .inr ⟨nofun, rfl⟩
  · cases f with
    | setting | kernelSource | completions => simp at other
    | _ =>
      cases recorded
      exact .inr ⟨nofun, rfl⟩

/-- A flag is settled if its value is accepted and it may be given here. -/
theorem settleFlag_eq_ok_iff {state next : Parsing} {f : Flag} {value : Bytes} :
    state.settleFlag f value = (next, none) ↔
      ∃ invocation, record state.invocation value f = .ok invocation ∧
        (f ∈ state.used ∧ f.isRepeatable = true ∧ next = { state with invocation } ∨
        f ∉ state.used ∧ next = { state with used := state.used ++ [f], invocation }) := by
  unfold settleFlag
  by_cases mem : f ∈ state.used <;> cases repeatable : f.isRepeatable <;>
    cases recorded : record state.invocation value f <;> simp [mem, eq_comm]

theorem settleFlag_settings {state next : Parsing} {f : Flag} {value : Bytes}
    (settled : state.settleFlag f value = (next, none)) :
    next.waiting = state.waiting ∧
    ((∃ s stored, f = .setting s ∧ Stored (s, value) stored ∧
      next.invocation.settings = state.invocation.settings ++ [stored]) ∨
    (∀ s, f ≠ .setting s) ∧ next.invocation.settings = state.invocation.settings) := by
  obtain ⟨invocation, recorded, ⟨_, _, rfl⟩ | ⟨_, rfl⟩⟩ := settleFlag_eq_ok_iff.mp settled
  all_goals exact ⟨rfl, record_settings recorded⟩

theorem settle_records {state next : Parsing} (settled : state.settle = (next, none))
    (args : List Bytes) : next.waiting = none ∧ Records state args next args := by
  unfold settle at settled
  split at settled
  · next nothing =>
    cases settled
    exact ⟨nothing, .of_eq rfl rfl⟩
  · cases settled
  · next f value waiting =>
    obtain ⟨nothing, recorded⟩ := settleFlag_settings settled
    refine ⟨nothing, ?_⟩
    have owedNext := owed_of_waiting_none nothing args
    obtain ⟨s, stored, rfl, holds, settings⟩ | ⟨other, settings⟩ := recorded
    · refine ⟨[(s, value)], [stored], .cons holds .nil, ?_, settings⟩
      rw [owed, waiting, owedNext]
      rfl
    · refine .of_eq ?_ settings
      rw [owed, waiting, owedNext]
      cases f with
      | setting s => exact absurd rfl (other s)
      | _ => rfl

/-- A flag that is no setting leaves only settled options behind. -/
theorem settleFlag_records {state next : Parsing} {f : Flag} {value : Bytes}
    (nothing : state.waiting = none) (other : ∀ s, f ≠ .setting s)
    (settled : state.settleFlag f value = (next, none)) (args : List Bytes) :
    next.waiting = none ∧ Records state args next args := by
  obtain ⟨same, ⟨s, _, isSetting, _⟩ | ⟨_, settings⟩⟩ := settleFlag_settings settled
  · exact absurd isSetting (other s)
  · have still : next.waiting = none := same.trans nothing
    refine ⟨still, .of_eq ?_ settings⟩
    rw [owed_of_waiting_none nothing, owed_of_waiting_none still]

theorem acceptFlag_records {style : Help.Style} {f : Flag} {state next : Parsing}
    (other : ∀ s, f ≠ .setting s) (accepted : acceptFlag style f state = .ok next)
    (args : List Bytes) : next.waiting = none ∧ Records state args next args := by
  obtain ⟨settled, first, accepted⟩ := bind_eq_ok_iff.mp accepted
  obtain ⟨nothing, records⟩ := settle_records (orStop_eq_ok_iff.mp first) args
  have flag : settled.settleFlag f [] = (next, none) := by
    split at accepted
    · cases accepted
    · cases accepted
    · exact orStop_eq_ok_iff.mp accepted
  obtain ⟨still, more⟩ := settleFlag_records nothing other flag args
  exact ⟨still, records.trans more⟩

/-! ## Arguments that name no setting -/

theorem given_of_settingNamed?_none {arg : Bytes} (other : settingNamed? arg = none)
    (args : List Bytes) : given none (arg :: args) = given none args := by
  rw [given, other]

/-- An argument that names no setting is passed over once nothing waits. -/
theorem Records.skip {state next : Parsing} {arg : Bytes} {args : List Bytes}
    (records : Records state (arg :: args) next (arg :: args)) (nothing : next.waiting = none)
    (other : settingNamed? arg = none) : Records state (arg :: args) next args := by
  refine records.trans (.of_eq ?_ rfl)
  rw [owed_of_waiting_none nothing, owed_of_waiting_none nothing,
    given_of_settingNamed?_none other]

/-- The flag of a setting as an argument. -/
theorem ofString_flag (name : String) :
    Bytes.ofString ("--" ++ name) = dash :: dash :: Bytes.ofString name := by
  rw [Bytes.ofString_append]
  rfl

theorem label_long (body : Bytes) : label (dash :: dash :: body) = dash :: dash :: label body := rfl

theorem dropWhile_long (body : Bytes) :
    (dash :: dash :: body).dropWhile (· != equals) = body.dropWhile (· != equals) := rfl

/-- Only an argument with two dashes names a flag. -/
theorem long_of_label {arg : Bytes} {name : String}
    (named : (label arg == Bytes.ofString ("--" ++ name)) = true) : [dash, dash] <+: arg := by
  have begins : [dash, dash] <+: label arg := by
    rw [beq_iff_eq.mp named, ofString_flag]
    exact List.prefix_append [dash, dash] _
  exact begins.trans (List.takeWhile_prefix _)

theorem settingNamed?_eq_none {arg : Bytes} (short : ¬ [dash, dash] <+: arg) :
    settingNamed? arg = none :=
  List.find?_eq_none.mpr fun _ _ named => short (long_of_label named)

/-- The setting that a flag gives. -/
def settingOf? : Flag → Option Setting
  | .setting s => some s
  | _ => none

theorem settingNamed?_of_label {arg : Bytes} {f : Flag}
    (named : label arg = Bytes.ofString ("--" ++ f.name)) : settingNamed? arg = settingOf? f := by
  have same : (fun s : Setting => label arg == Bytes.ofString ("--" ++ s.flag)) =
      fun s : Setting => f.name == s.flag := by
    funext s
    rw [named, ofString_flag, ofString_flag, Bool.eq_iff_iff, beq_iff_eq, beq_iff_eq]
    constructor
    · exact fun bytes => Bytes.ofString_injective (List.cons.inj (List.cons.inj bytes).2).2
    · exact fun names => by rw [names]
  rw [settingNamed?, same]
  cases f with
  | setting s => cases s <;> rfl
  | _ => rfl

theorem eq_of_longFlag? {name : Bytes} {f : Flag} (found : longFlag? name = some f) :
    name = Bytes.ofString f.name := by
  obtain ⟨text, isText, named⟩ := Option.bind_eq_some_iff.mp found
  have hit := List.find?_some named
  have same : f.name = text := beq_iff_eq.mp hit
  rw [same, Bytes.ofString_of_text? isText]

/-! ## One argument -/

theorem takeValue_records {state next : Parsing} {value : Bytes}
    (accepted : state.takeValue value = .ok next)
    (other : settingNamed? value = none ∨ ∃ s, state.wanting? = some (.setting s))
    (args : List Bytes) : Records state (value :: args) next args := by
  unfold takeValue at accepted
  split at accepted
  · next f wanted =>
    cases accepted
    have waiting : state.waiting = some (f, none) := by
      unfold wanting? at wanted
      split at wanted
      · next waiting =>
        cases wanted
        exact waiting
      · cases wanted
    refine .of_eq ?_ rfl
    simp only [owed, waiting]
    cases f with
    | setting s => rfl
    | _ =>
      obtain unnamed | ⟨s, setting⟩ := other
      · exact given_of_settingNamed?_none unnamed args
      · rw [wanted] at setting
        cases setting
  · cases accepted

theorem settingNamed?_long {body : Bytes} {f : Flag} (found : longFlag? (label body) = some f) :
    settingNamed? (dash :: dash :: body) = settingOf? f := by
  refine settingNamed?_of_label ?_
  rw [label_long, eq_of_longFlag? found, ofString_flag]

theorem splitEquals_eq (body : Bytes) :
    splitEquals body = (label body, (body.dropWhile (· != equals)).tail?) := by
  cases after : body.dropWhile (· != equals) with
  | nil =>
    have whole := List.takeWhile_append_dropWhile (p := (· != equals)) (l := body)
    rw [after, List.append_nil] at whole
    rw [splitEquals, after, label, whole, List.tail?]
  | cons b value => rw [splitEquals, after, label, List.tail?]

/-- A long flag is accepted in one of three ways: it takes no value, its value is the next argument,
or its value follows the sign `=`. -/
theorem long_eq_ok {state next : Parsing} {body : Bytes} (accepted : state.long body = .ok next) :
    ∃ f, longFlag? (label body) = some f ∧
      (body.dropWhile (· != equals) = [] ∧ f.takesValue = false ∧
        acceptFlag .long f state = .ok next ∨
      ∃ settled, f.takesValue = true ∧ state.settle = (settled, none) ∧
        (body.dropWhile (· != equals) = [] ∧ next = { settled with waiting := some (f, none) } ∨
        ∃ b value, body.dropWhile (· != equals) = b :: value ∧
          settled.settleFlag f value = (next, none))) := by
  simp only [long, splitEquals_eq] at accepted
  split at accepted
  · cases accepted
  · next f found =>
    refine ⟨f, found, ?_⟩
    cases after : body.dropWhile (· != equals) with
    | nil =>
      rw [after] at accepted
      cases takes : f.takesValue with
      | false =>
        rw [takes] at accepted
        exact .inl ⟨rfl, rfl, accepted⟩
      | true =>
        rw [takes] at accepted
        obtain ⟨settled, first, last⟩ := bind_eq_ok_iff.mp accepted
        cases last
        exact .inr ⟨settled, rfl, orStop_eq_ok_iff.mp first, .inl ⟨rfl, rfl⟩⟩
    | cons b value =>
      rw [after] at accepted
      cases takes : f.takesValue with
      | false =>
        rw [takes] at accepted
        cases accepted
      | true =>
        rw [takes] at accepted
        obtain ⟨settled, first, last⟩ := bind_eq_ok_iff.mp accepted
        exact .inr ⟨settled, rfl, orStop_eq_ok_iff.mp first,
          .inr ⟨b, value, rfl, orStop_eq_ok_iff.mp last⟩⟩

theorem settingOf?_eq_none {f : Flag} (other : ∀ s, f ≠ .setting s) : settingOf? f = none := by
  cases f with
  | setting s => exact absurd rfl (other s)
  | _ => rfl

theorem long_records {state next : Parsing} {body : Bytes} (accepted : state.long body = .ok next)
    (args : List Bytes) : Records state ((dash :: dash :: body) :: args) next args := by
  obtain ⟨f, found, ⟨_, takesNone, accepted⟩ | ⟨settled, _, first, last⟩⟩ := long_eq_ok accepted
  · have other : ∀ s, f ≠ .setting s := by
      rintro s rfl
      cases s <;> cases takesNone
    obtain ⟨nothing, records⟩ := acceptFlag_records other accepted ((dash :: dash :: body) :: args)
    exact records.skip nothing ((settingNamed?_long found).trans (settingOf?_eq_none other))
  · obtain ⟨nothing, records⟩ := settle_records first ((dash :: dash :: body) :: args)
    -- What waited is recorded before the new flag, so the order of the command line is kept.
    refine records.trans ?_
    have named := settingNamed?_long found
    obtain ⟨after, rfl⟩ | ⟨b, value, after, second⟩ := last
    · refine .of_eq ?_ rfl
      rw [owed_of_waiting_none nothing, given, named, dropWhile_long, after]
      cases f <;> rfl
    · obtain ⟨same, ⟨s, stored, rfl, holds, settings⟩ | ⟨other, settings⟩⟩ :=
        settleFlag_settings second
      · refine ⟨[(s, value)], [stored], .cons holds .nil, ?_, settings⟩
        rw [owed_of_waiting_none nothing, owed_of_waiting_none (same.trans nothing), given, named,
          dropWhile_long, after]
        rfl
      · refine .of_eq ?_ settings
        rw [owed_of_waiting_none nothing, owed_of_waiting_none (same.trans nothing),
          given_of_settingNamed?_none (named.trans (settingOf?_eq_none other))]

theorem cluster_records {ps : List Piece} {state next : Parsing}
    (accepted : cluster ps state = .ok next) (notEmpty : ps ≠ []) (args : List Bytes) :
    next.waiting = none ∧ Records state args next args := by
  induction ps generalizing state with
  | nil => exact absurd rfl notEmpty
  | cons p ps ih =>
    cases p with
    | broken rest => cases accepted
    | letter c =>
      simp only [cluster] at accepted
      split at accepted
      · cases accepted
      · next f found =>
        split at accepted
        · cases accepted
        · next mid first =>
          have hit := List.find?_some found
          have short : f.short? = some c := beq_iff_eq.mp hit
          have other : ∀ s, f ≠ .setting s := by
            rintro s rfl
            cases short
          obtain ⟨nothing, records⟩ := acceptFlag_records other first args
          by_cases last : ps = []
          · subst last
            cases accepted
            exact ⟨nothing, records⟩
          · obtain ⟨nothing, more⟩ := ih accepted last
            exact ⟨nothing, records.trans more⟩

theorem pieces_ne_nil (b : UInt8) (rest : Bytes) : pieces 0 (b :: rest) ≠ [] := by
  unfold pieces
  split
  · simp
  · split <;> simp

theorem wanting_setting {state : Parsing} (dashes : state.wanting?.any Flag.takesDashes = true) :
    ∃ s, state.wanting? = some (.setting s) := by
  cases wanted : state.wanting? with
  | none =>
    rw [wanted] at dashes
    cases dashes
  | some f =>
    rw [wanted] at dashes
    cases f with
    | setting s => exact ⟨s, rfl⟩
    | _ => cases dashes

/-- An argument is `--`, or it moves settings from what is owed to what is recorded. -/
theorem step_records {state next : Parsing} {arg : Bytes} (accepted : state.step arg = .ok next) :
    arg = [dash, dash] ∧ next = { state with onlyValues := true } ∨
      ∀ args, Records state (arg :: args) next args := by
  unfold step at accepted
  split at accepted
  · cases accepted
  · split at accepted
    · next dashes =>
      exact .inr fun args => takeValue_records accepted (.inr (wanting_setting dashes)) args
    · split at accepted
      · cases accepted
        exact .inl ⟨rfl, rfl⟩
      · exact .inr fun args => long_records accepted args
      · next b rest _ notDash =>
        have short : ¬ [dash, dash] <+: 0x2D :: b :: rest := by
          rintro ⟨_, same⟩
          cases same
          exact notDash rfl
        split at accepted
        · next numeric =>
          have unnamed := settingNamed?_eq_none short
          exact .inr fun args => takeValue_records accepted (.inl unnamed) args
        · refine .inr fun args => ?_
          obtain ⟨nothing, records⟩ := cluster_records accepted (pieces_ne_nil b rest) (_ :: args)
          exact records.skip nothing (settingNamed?_eq_none short)
      · next empty long _ =>
        have short : ¬ [dash, dash] <+: arg := by
          rintro ⟨body, rfl⟩
          exact long body rfl
        exact .inr fun args => takeValue_records accepted (.inl (settingNamed?_eq_none short)) args

/-! ## All arguments -/

/-- No argument is accepted after `--`. -/
theorem step_onlyValues {state next : Parsing} {arg : Bytes} (only : state.onlyValues = true) :
    state.step arg ≠ .ok next := by
  unfold step
  rw [if_pos only]
  exact nofun

theorem finish_settings {source : Option Bytes} {state : Parsing} {invocation : Invocation}
    (finished : state.finish source = .ok invocation) :
    ∃ more, List.Forall₂ Stored (owed state []) more ∧
      invocation.settings = state.invocation.settings ++ more := by
  obtain ⟨settled, first, finished⟩ := bind_eq_ok_iff.mp finished
  obtain ⟨sourced, second, finished⟩ := bind_eq_ok_iff.mp finished
  obtain ⟨nothing, early, more, stored, owed, settings⟩ :=
    settle_records (orStop_eq_ok_iff.mp first) []
  rw [owed_of_waiting_none nothing, given, List.append_nil] at owed
  have same : sourced.invocation.settings = settled.invocation.settings := by
    have second := orStop_eq_ok_iff.mp second
    unfold settleSource at second
    split at second
    · split at second
      · cases second
        rfl
      · obtain ⟨_, ⟨s, _, isSetting, _⟩ | ⟨_, settings⟩⟩ := settleFlag_settings second
        · cases isSetting
        · exact settings
    · cases second
      rfl
  refine ⟨more, owed ▸ stored, ?_⟩
  split at finished
  · cases finished
  · cases finished
    rw [same, settings]

theorem finish_wanting {source : Option Bytes} {state : Parsing} {invocation : Invocation}
    (finished : state.finish source = .ok invocation) : state.wanting? = none := by
  obtain ⟨settled, first, _⟩ := bind_eq_ok_iff.mp finished
  have first := orStop_eq_ok_iff.mp first
  unfold settle at first
  split at first
  · next waiting => rw [wanting?, waiting]
  · cases first
  · next waiting => rw [wanting?, waiting]

/-- A last argument `--` gives nothing, once no option needs a value. -/
theorem owed_dashes {state next : Parsing} (same : next.waiting = state.waiting)
    (settled : next.wanting? = none) : owed state [[dash, dash]] = owed next [] := by
  have nothing : given none [[dash, dash]] = given none [] := by decide
  rw [wanting?, same] at settled
  rw [owed, owed, same]
  revert settled
  rcases state.waiting with _ | ⟨f, _ | value⟩ <;> intro settled
  · exact nothing
  · cases settled
  · cases f with
    | setting s => exact congrArg ((s, value) :: ·) nothing
    | _ => exact nothing

theorem run_settings {source : Option Bytes} {args : List Bytes} {state final : Parsing}
    {invocation : Invocation} (ran : args.foldlM step state = .ok final)
    (finished : final.finish source = .ok invocation) :
    ∃ more, List.Forall₂ Stored (owed state args) more ∧
      invocation.settings = state.invocation.settings ++ more := by
  induction args generalizing state with
  | nil =>
    cases ran
    exact finish_settings finished
  | cons arg args ih =>
    rw [List.foldlM_cons] at ran
    obtain ⟨next, stepped, ran⟩ := bind_eq_ok_iff.mp ran
    obtain ⟨rfl, rfl⟩ | records := step_records stepped
    · -- Nothing follows `--`, and an option that still waits for its value would be refused.
      cases args with
      | cons arg args =>
        rw [List.foldlM_cons] at ran
        obtain ⟨_, refused, _⟩ := bind_eq_ok_iff.mp ran
        exact absurd refused (step_onlyValues rfl)
      | nil =>
        cases ran
        have same : owed state [[dash, dash]] = owed { state with onlyValues := true } [] :=
          owed_dashes rfl (finish_wanting finished)
        rw [same]
        exact finish_settings finished
    · obtain ⟨early, more, stored, owed, settings⟩ := records args
      obtain ⟨later, laterStored, total⟩ := ih ran
      refine ⟨more ++ later, ?_, ?_⟩
      · rw [owed]
        exact List.rel_append stored laterStored
      · rw [total, settings, List.append_assoc]

/-- The settings of an accepted command line are those that its arguments give. -/
theorem parseArguments_settings {source : Option Bytes} {args : List Bytes}
    {invocation : Invocation} (parsed : parseArguments source args = .ok invocation) :
    List.Forall₂ Stored (given none args) invocation.settings := by
  obtain ⟨final, ran, finished⟩ := bind_eq_ok_iff.mp parsed
  obtain ⟨more, stored, settings⟩ := run_settings ran finished
  rw [settings]
  exact stored

-- The value of an option that takes dashes is no flag, whatever it looks like.
example : given none (["--comp-opts", "--classpath", "--classpath=a", "-v", "--timeout", "-1"].map
    Bytes.ofString) = [(.compilerOptions, Bytes.ofString "--classpath"),
      (.classpath, Bytes.ofString "a"), (.timeout, Bytes.ofString "-1")] := by
  decide +kernel

end KernelSpec.Parsing
