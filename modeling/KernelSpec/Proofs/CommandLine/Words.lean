import KernelSpec.Proofs.Setting

/-! # Command lines that are accepted

A word is one argument with all that belongs to it: a setting with its value, a location, or one of
the switches. A list of words in which the flags that may not be repeated occur once is accepted
word by word (`step_argument`), and what it gives for the kernel is what its settings come to from
left to right (`parseArguments_words`).
-/

namespace KernelSpec

/-- An argument that needs no other: a setting or a location with its value, or a switch. -/
inductive Word where
  | setting (s : Setting) (raw : String)
  | user
  | environment
  | under (directory : Bytes)
  | replace
  | verbose
deriving DecidableEq, Repr

namespace Word

def flag : Word → Flag
  | .setting s _ => .setting s
  | .user => .user
  | .environment => .environment
  | .under _ => .under
  | .replace => .replace
  | .verbose => .verbose

/-- What stands after the sign `=`. -/
def value? : Word → Option Bytes
  | .setting _ raw => some (Bytes.ofString raw)
  | .under directory => some directory
  | _ => none

/-- The word as an argument. -/
def argument (w : Word) : Bytes :=
  Bytes.ofString ("--" ++ w.flag.name) ++ (w.value?.elim [] (Parsing.equals :: ·))

/-- The setting that is given. -/
def item? : Word → Option (Setting × String)
  | .setting s raw => some (s, raw)
  | _ => none

end Word

namespace Setting

/-- An item as it was given and as it is stored. -/
def Normalized (item normal : Setting × String) : Prop :=
  normal.1 = item.1 ∧ item.1.normalize item.2 = .ok normal.2

end Setting

namespace Parsing

/-- At most one location, and each of the switches at most once. -/
def Once (flags : List Flag) : Prop :=
  (flags.filter Flag.isLocation).length ≤ 1 ∧ flags.count .replace ≤ 1 ∧ flags.count .verbose ≤ 1

instance (flags : List Flag) : Decidable (Once flags) :=
  inferInstanceAs (Decidable (_ ∧ _ ∧ _))

theorem Once.sublist {flags fewer : List Flag} (once : Once flags) (sub : fewer.Sublist flags) :
    Once fewer := by
  obtain ⟨location, replace, verbose⟩ := once
  have locations := (sub.filter Flag.isLocation).length_le
  have replaces := sub.count_le Flag.replace
  have verboses := sub.count_le Flag.verbose
  refine ⟨?_, ?_, ?_⟩ <;> omega

/-- What may be given once and is still to come has not been used. -/
theorem Once.not_mem {used more : List Flag} {w : Word} (once : Once (used ++ w.flag :: more))
    (single : w.flag.isRepeatable = false) : w.flag ∉ used := by
  intro mem
  have twice : [w.flag, w.flag].Sublist (used ++ w.flag :: more) :=
    (List.singleton_sublist.mpr mem).append (List.singleton_sublist.mpr List.mem_cons_self)
  have refused := once.sublist twice
  revert refused
  cases w with
  | setting s raw => cases single
  | _ =>
    simp only [Word.flag]
    decide

/-! ## One word -/

/-- The name of a flag leads back to it, and it stands apart from a value after the sign `=`. -/
theorem flag_names : ∀ f ∈ Flag.all, Flag.ofName? f.name = some f ∧ f.name ≠ "" ∧
    equals ∉ Bytes.ofString f.name := by
  decide

/-- A long name is cut at the first sign `=`, whatever the value has in it. -/
theorem splitEquals_name (f : Flag) (value? : Option Bytes) :
    splitEquals (Bytes.ofString f.name ++ value?.elim [] (equals :: ·)) =
      (Bytes.ofString f.name, value?) := by
  have plain : ∀ b ∈ Bytes.ofString f.name, (b != equals) = true := by
    intro b mem
    rw [bne_iff_ne]
    rintro rfl
    exact (flag_names f f.mem_all).2.2 mem
  cases value? with
  | none => simp [splitEquals, List.dropWhile_eq_nil_iff.mpr plain]
  | some value =>
    simp [splitEquals, List.dropWhile_append_of_pos plain, List.takeWhile_append_of_pos plain]

theorem longFlag?_name (f : Flag) : longFlag? (Bytes.ofString f.name) = some f := by
  rw [longFlag?, Bytes.text?_ofString, Option.bind_some, (flag_names f f.mem_all).1]

/-- An option with its value after the sign `=` is settled at once. -/
theorem long_value (state : Parsing) {f : Flag} (takes : f.takesValue = true) (value : Bytes) :
    state.long (Bytes.ofString f.name ++ equals :: value) =
      orStop state.settle >>= fun settled => orStop (settled.settleFlag f value) := by
  have split := splitEquals_name f (some value)
  simp only [Option.elim] at split
  rw [long, split]
  simp only [longFlag?_name, takes]

/-- A flag without a value is settled at once, unless it asks for information. -/
theorem long_flag (state : Parsing) {f : Flag} (takes : f.takesValue = false)
    (acts : f.isInformation = false) : state.long (Bytes.ofString f.name) =
      orStop state.settle >>= fun settled => orStop (settled.settleFlag f []) := by
  have split := splitEquals_name f none
  simp only [Option.elim, List.append_nil] at split
  rw [long, split]
  simp only [longFlag?_name, takes]
  cases f with
  | help => cases acts
  | version => cases acts
  | _ => rfl

theorem long_word (state : Parsing) (w : Word) :
    state.long (Bytes.ofString w.flag.name ++ w.value?.elim [] (equals :: ·)) =
      orStop state.settle >>= fun settled =>
        orStop (settled.settleFlag w.flag (w.value?.getD [])) := by
  cases w with
  | setting s raw => exact long_value state (by cases s <;> rfl) _
  | under directory => exact long_value state rfl _
  | _ => exact (congrArg state.long (List.append_nil _)).trans (long_flag state rfl rfl)

/-- A state in which nothing is open and the flags to come are not used up. -/
structure Ready (state : Parsing) (flags : List Flag) : Prop where
  settled : state.waiting = none
  flagged : state.onlyValues = false
  once : Once (state.used ++ flags)

theorem settle_of_settled {state : Parsing} (settled : state.waiting = none) :
    state.settle = (state, none) := by
  rw [settle, settled]

theorem step_long {state : Parsing} (wants : state.wanting? = none)
    (flagged : state.onlyValues = false) {body : Bytes} (named : body ≠ []) :
    state.step (dash :: dash :: body) = state.long body := by
  cases body with
  | nil => exact absurd rfl named
  | cons b rest => simp [step, flagged, wants, dash]

/-- A word is read as its flag with its value. -/
theorem step_word {state : Parsing} (wants : state.wanting? = none)
    (flagged : state.onlyValues = false) (w : Word) :
    state.step w.argument = orStop state.settle >>= fun settled =>
      orStop (settled.settleFlag w.flag (w.value?.getD [])) := by
  have named : Bytes.ofString w.flag.name ++ w.value?.elim [] (equals :: ·) ≠ [] := by
    intro empty
    have nameless := (List.append_eq_nil_iff.mp empty).1
    exact (flag_names _ w.flag.mem_all).2.1 (Bytes.ofString_injective nameless)
  rw [Word.argument, ofString_flag, List.cons_append, List.cons_append,
    step_long wants flagged named, long_word]

/-- A flag that may still be given and whose value is accepted is settled. -/
theorem settleFlag_ready {state : Parsing} {w : Word} {more : List Flag} {invocation : Invocation}
    (ready : Ready state (w.flag :: more))
    (recorded : record state.invocation (w.value?.getD []) w.flag = .ok invocation) :
    ∃ next, state.settleFlag w.flag (w.value?.getD []) = (next, none) ∧ Ready next more ∧
      next.invocation = invocation := by
  obtain ⟨settled, flagged, once⟩ := ready
  by_cases mem : w.flag ∈ state.used
  · have repeatable : w.flag.isRepeatable = true :=
      Bool.not_eq_false _ ▸ fun single => once.not_mem single mem
    refine ⟨{ state with invocation },
      settleFlag_eq_ok_iff.mpr ⟨invocation, recorded, .inl ⟨mem, repeatable, rfl⟩⟩,
      ⟨settled, flagged, ?_⟩, rfl⟩
    exact once.sublist ((List.Sublist.refl _).append (List.sublist_cons_self _ _))
  · refine ⟨{ state with used := state.used ++ [w.flag], invocation },
      settleFlag_eq_ok_iff.mpr ⟨invocation, recorded, .inr ⟨mem, rfl⟩⟩,
      ⟨settled, flagged, ?_⟩, rfl⟩
    rw [List.append_assoc]
    exact once

theorem record_setting (invocation : Invocation) {s : Setting} {raw normal : String}
    (normalized : s.normalize raw = .ok normal) :
    record invocation (Bytes.ofString raw) (.setting s) =
      .ok { invocation with settings := invocation.settings ++ [(s, normal)] } := by
  simp [record, Bytes.text?_ofString, normalized]

/-- A word adds its setting, in the form that is stored, to those before. -/
theorem record_word (invocation : Invocation) {w : Word} {normals : List (Setting × String)}
    (normalized : List.Forall₂ Setting.Normalized w.item?.toList normals) :
    ∃ next, record invocation (w.value?.getD []) w.flag = .ok next ∧
      next.settings = invocation.settings ++ normals := by
  cases w with
  | setting s raw =>
    obtain ⟨⟨t, normal⟩, _, ⟨same, accepted⟩, rest, rfl⟩ :=
      List.forall₂_cons_left_iff.mp normalized
    cases rest
    obtain rfl : t = s := same
    exact ⟨_, record_setting invocation accepted, rfl⟩
  | _ =>
    cases normalized
    exact ⟨_, rfl, (List.append_nil _).symm⟩

/-- A word is accepted as long as its flag is not used up. -/
theorem step_argument {state : Parsing} {w : Word} {more : List Flag}
    {normals : List (Setting × String)} (ready : Ready state (w.flag :: more))
    (normalized : List.Forall₂ Setting.Normalized w.item?.toList normals) :
    ∃ next, state.step w.argument = .ok next ∧ Ready next more ∧
      next.invocation.settings = state.invocation.settings ++ normals := by
  obtain ⟨invocation, recorded, settings⟩ := record_word state.invocation normalized
  obtain ⟨next, accepted, onward, rfl⟩ := settleFlag_ready ready recorded
  refine ⟨next, ?_, onward, settings⟩
  have wants : state.wanting? = none := by rw [wanting?, ready.settled]
  rw [step_word wants ready.flagged]
  apply bind_eq_ok_iff.mpr
  exact ⟨state, orStop_eq_ok_iff.mpr (settle_of_settled ready.settled),
    orStop_eq_ok_iff.mpr accepted⟩

/-! ## All words -/

theorem normalized_cons {w : Word} {words : List Word} {normals : List (Setting × String)}
    (normalized : List.Forall₂ Setting.Normalized ((w :: words).filterMap Word.item?) normals) :
    ∃ own others, normals = own ++ others ∧
      List.Forall₂ Setting.Normalized w.item?.toList own ∧
      List.Forall₂ Setting.Normalized (words.filterMap Word.item?) others := by
  cases found : w.item? with
  | none =>
    rw [List.filterMap_cons_none found] at normalized
    exact ⟨[], normals, rfl, .nil, normalized⟩
  | some item =>
    rw [List.filterMap_cons_some found] at normalized
    obtain ⟨normal, others, here, later, rfl⟩ := List.forall₂_cons_left_iff.mp normalized
    exact ⟨[normal], others, rfl, .cons here .nil, later⟩

theorem run_words {state : Parsing} {words : List Word} {normals : List (Setting × String)}
    (ready : Ready state (words.map Word.flag))
    (normalized : List.Forall₂ Setting.Normalized (words.filterMap Word.item?) normals) :
    ∃ final, (words.map Word.argument).foldlM step state = .ok final ∧ Ready final [] ∧
      final.invocation.settings = state.invocation.settings ++ normals := by
  induction words generalizing state normals with
  | nil =>
    cases normalized
    exact ⟨state, rfl, ready, (List.append_nil _).symm⟩
  | cons w words ih =>
    obtain ⟨own, others, rfl, normalOwn, normalOthers⟩ := normalized_cons normalized
    obtain ⟨next, stepped, onward, settings⟩ := step_argument ready normalOwn
    obtain ⟨final, ran, done, total⟩ := ih onward normalOthers
    refine ⟨final, ?_, done, ?_⟩
    · rw [List.map_cons, List.foldlM_cons, stepped]
      exact ran
    · rw [total, settings, List.append_assoc]

theorem conflict?_eq_none_iff {used : List Flag} :
    conflict? used = none ↔ (used.filter Flag.isLocation).length ≤ 1 := by
  unfold conflict?
  rcases used.filter Flag.isLocation with _ | ⟨f, _ | ⟨g, others⟩⟩ <;> simp

/-- The invocation at the end of the arguments: the variable for the kernel files counts where no
flag gave them. -/
def sourced (source : Option Bytes) (state : Parsing) : Invocation :=
  if .kernelSource ∈ state.used then state.invocation
  else { state.invocation with
    kernelSource? := (source.map Path.mk).or state.invocation.kernelSource? }

/-- Only an empty variable for the kernel files is refused, if no flag gave them; the locations are
left as they are. -/
theorem settleSource_ok (state : Parsing) {source : Option Bytes}
    (usable : source = some [] → .kernelSource ∈ state.used) :
    ∃ next, state.settleSource source = (next, none) ∧
      next.used.filter Flag.isLocation = state.used.filter Flag.isLocation ∧
      next.invocation = sourced source state := by
  by_cases given : Flag.kernelSource ∈ state.used
  · refine ⟨state, ?_, rfl, by simp [sourced, given]⟩
    cases source <;> simp [settleSource, given]
  · rcases source with _ | _ | ⟨b, rest⟩
    · exact ⟨state, rfl, rfl, by simp [sourced, given]⟩
    · exact absurd (usable rfl) given
    · refine ⟨{ state with
        used := state.used ++ [.kernelSource]
        invocation := { state.invocation with kernelSource? := some ⟨b :: rest⟩ } }, ?_, ?_, ?_⟩
      · simp [settleSource, settleFlag, record, given]
      · simp [Flag.isLocation]
      · simp [sourced, given]

/-- The arguments end well if at most one location was given. -/
theorem finish_of_single {source : Option Bytes} {state : Parsing} (settled : state.waiting = none)
    (usable : source = some [] → .kernelSource ∈ state.used)
    (single : (state.used.filter Flag.isLocation).length ≤ 1) :
    state.finish source = .ok (sourced source state) := by
  obtain ⟨next, taken, locations, same⟩ := settleSource_ok state usable
  have compatible : conflict? next.used = none := by
    rw [conflict?_eq_none_iff, locations]
    exact single
  apply bind_eq_ok_iff.mpr
  refine ⟨state, orStop_eq_ok_iff.mpr (settle_of_settled settled), bind_eq_ok_iff.mpr ?_⟩
  refine ⟨next, orStop_eq_ok_iff.mpr taken, ?_⟩
  rw [compatible, ← same]
  rfl

theorem sourced_settings (source : Option Bytes) (state : Parsing) :
    (sourced source state).settings = state.invocation.settings := by
  unfold sourced
  split <;> rfl

theorem finish_ready {source : Option Bytes} {state : Parsing} (usable : source ≠ some [])
    (ready : Ready state []) : ∃ invocation, state.finish source = .ok invocation ∧
      invocation.settings = state.invocation.settings := by
  have single : (state.used.filter Flag.isLocation).length ≤ 1 := by simpa using ready.once.1
  exact ⟨sourced source state,
    finish_of_single ready.settled (fun empty => absurd empty usable) single,
    sourced_settings source state⟩

end Parsing

/-- Words are accepted in any order. Their settings are then listed in the order of the table, each
with its values in the order given, and come to what they come to from left to right. `usable` says
that the variable for the kernel files is unset or holds some text. No word gives the kernel files,
so the variable is always read, and an empty one is refused. -/
theorem parseArguments_words {source : Option Bytes} (usable : source ≠ some [])
    {words : List Word} (once : Parsing.Once (words.map Word.flag))
    {normals : List (Setting × String)}
    (normalized : List.Forall₂ Setting.Normalized (words.filterMap Word.item?) normals) :
    ∃ invocation, parseArguments source (words.map Word.argument) = .ok invocation ∧
      invocation.occurrences =
        Setting.all.flatMap (fun s => (s.valuesIn normals).map fun value => (s, value)) ∧
      invocation.overrides = Setting.fold normals := by
  have start : Parsing.Ready {} (words.map Word.flag) := ⟨rfl, rfl, once⟩
  obtain ⟨final, ran, ready, settings⟩ := Parsing.run_words start normalized
  obtain ⟨invocation, finished, same⟩ := Parsing.finish_ready usable ready
  have kept : invocation.settings = normals := same.trans settings
  refine ⟨invocation, bind_eq_ok_iff.mpr ⟨final, ran, finished⟩, ?_, ?_⟩
  · rw [Invocation.occurrences, kept]
    exact congrArg (Setting.all.flatMap ·) (funext fun s => s.filter_eq_map_valuesIn normals)
  · rw [Invocation.overrides]
    exact Setting.fold_congr fun s => by rw [invocation.valuesIn_occurrences, kept]

/-- A value may be empty, begin with a dash or hold the sign `=`. -/
theorem parseArguments_words_sample :
    let words : List Word :=
      [.setting .compilerOptions "-a=b", .verbose, .setting .classpath "", .under [0x2F, 0xFF],
        .setting .timeout "NO_TIMEOUT", .setting .compilerOptions "--user", .replace,
        .setting .classpath "é"]
    ∃ invocation, parseArguments (some [0x2F]) (words.map Word.argument) = .ok invocation ∧
      invocation.occurrences = [(.classpath, ""), (.classpath, "é"), (.compilerOptions, "-a=b"),
        (.compilerOptions, "--user"), (.timeout, "-1")] ∧
      invocation.overrides = [("IJAVA_CLASSPATH", ":é"), ("IJAVA_COMPILER_OPTS", "-a=b --user"),
        ("IJAVA_TIMEOUT", "-1")] := by
  intro words
  have once : Parsing.Once (words.map Word.flag) := by decide
  have normalized : List.Forall₂ Setting.Normalized (words.filterMap Word.item?)
      [(.compilerOptions, "-a=b"), (.classpath, ""), (.timeout, "-1"),
        (.compilerOptions, "--user"), (.classpath, "é")] := by
    refine .cons ⟨rfl, rfl⟩ (.cons ⟨rfl, rfl⟩ (.cons ⟨rfl, ?_⟩ (.cons ⟨rfl, rfl⟩
      (.cons ⟨rfl, rfl⟩ .nil))))
    decide
  exact parseArguments_words (by decide) once normalized

end KernelSpec
