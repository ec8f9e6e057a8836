import KernelSpec.Proofs.CommandLine.Words

/-! # What one argument does

An argument that is accepted is the value of the option that waits, an option that waits for its
value, or a flag that is settled (`Takes`, `takes_of_step`). What holds of every state that is
reached is derived from this relation and from what settling one flag does (`settleFlag_eq_ok_iff`).
Nothing is open after an accepted command line (`Ended`), and one more word is settled after all
others (`Ended.append_word`).
-/

namespace KernelSpec.Parsing

/-! ## The flag that an argument names -/

/-- The flag whose long name an argument begins with. -/
def flagNamed? (arg : Bytes) : Option Flag :=
  Flag.all.find? fun f => label arg == Bytes.ofString ("--" ++ f.name)

/-- The value that an argument has after the sign `=`. -/
def attached? (arg : Bytes) : Option Bytes := (arg.dropWhile (· != equals)).tail?

theorem flagNamed?_eq_none {arg : Bytes} (short : ¬ [dash, dash] <+: arg) :
    flagNamed? arg = none :=
  List.find?_eq_none.mpr fun _ _ named => short (long_of_label named)

theorem flagNamed?_long {body : Bytes} {f : Flag} (found : longFlag? (label body) = some f) :
    flagNamed? (dash :: dash :: body) = some f := by
  have same : (fun g : Flag => label (dash :: dash :: body) == Bytes.ofString ("--" ++ g.name)) =
      fun g => g.name == f.name := by
    funext g
    rw [label_long, eq_of_longFlag? found, ← ofString_flag, Bool.eq_iff_iff, beq_iff_eq, beq_iff_eq]
    constructor
    · intro bytes
      rw [ofString_flag, ofString_flag] at bytes
      exact (Bytes.ofString_injective (List.cons.inj (List.cons.inj bytes).2).2).symm
    · intro names
      rw [names]
  rw [flagNamed?, same]
  exact (flag_names f f.mem_all).1

theorem attached?_long (body : Bytes) :
    attached? (dash :: dash :: body) = (body.dropWhile (· != equals)).tail? := by
  rw [attached?, dropWhile_long]

/-! ## One argument -/

/-- What an argument that is accepted does to the state. -/
inductive Takes (state : Parsing) (arg : Bytes) : Parsing → Prop
  | dashes : arg = [dash, dash] → Takes state arg { state with onlyValues := true }
  | value {f : Flag} : state.waiting = some (f, none) →
      Takes state arg { state with waiting := some (f, some arg) }
  | option {settled : Parsing} {f : Flag} : state.settle = (settled, none) →
      flagNamed? arg = some f → f.takesValue = true → attached? arg = none →
      Takes state arg { settled with waiting := some (f, none) }
  | flag {settled next : Parsing} {f : Flag} : state.settle = (settled, none) →
      flagNamed? arg = some f → f.takesValue = (attached? arg).isSome →
      settled.settleFlag f ((attached? arg).getD []) = (next, none) → Takes state arg next
  /-- The one short flag that does not ask for information. -/
  | switch {settled next : Parsing} : state.settle = (settled, none) → flagNamed? arg = none →
      settled.settleFlag .verbose [] = (next, none) → Takes state arg next

theorem settle_cases {state next : Parsing} (settled : state.settle = (next, none)) :
    state.waiting = none ∧ next = state ∨
    ∃ f value, state.waiting = some (f, some value) ∧
      settleFlag { state with waiting := none } f value = (next, none) := by
  unfold settle at settled
  split at settled
  · next nothing =>
    cases settled
    exact .inl ⟨nothing, rfl⟩
  · cases settled
  · next f value waiting => exact .inr ⟨f, value, waiting, settled⟩

theorem acceptFlag_eq_ok {style : Help.Style} {f : Flag} {state next : Parsing}
    (accepted : acceptFlag style f state = .ok next) : f.isInformation = false ∧
      ∃ settled, state.settle = (settled, none) ∧ settled.settleFlag f [] = (next, none) := by
  obtain ⟨settled, first, accepted⟩ := bind_eq_ok_iff.mp accepted
  cases f with
  | help | version => cases accepted
  | _ => exact ⟨rfl, settled, orStop_eq_ok_iff.mp first, orStop_eq_ok_iff.mp accepted⟩

theorem eq_verbose_of_short {f : Flag} {c : Char} (found : Flag.ofShort? c = some f)
    (acts : f.isInformation = false) : f = .verbose := by
  have hit := List.find?_some found
  cases f with
  | verbose => rfl
  | help | version => cases acts
  | _ => cases hit

theorem settle_waiting {state next : Parsing} (settled : state.settle = (next, none)) :
    next.waiting = none := by
  obtain ⟨nothing, rfl⟩ | ⟨f, value, _, flag⟩ := settle_cases settled
  · exact nothing
  · exact (settleFlag_settings flag).1

theorem cluster_cons_eq_ok {p : Piece} {ps : List Piece} {state next : Parsing}
    (accepted : cluster (p :: ps) state = .ok next) :
    ∃ settled mid, state.settle = (settled, none) ∧
      settled.settleFlag .verbose [] = (mid, none) ∧ cluster ps mid = .ok next := by
  cases p with
  | broken rest => cases accepted
  | letter c =>
    simp only [cluster] at accepted
    split at accepted
    · cases accepted
    · next f found =>
      split at accepted
      · cases accepted
      · next mid taken =>
        obtain ⟨acts, settled, settles, flag⟩ := acceptFlag_eq_ok taken
        rw [eq_verbose_of_short found acts] at flag
        exact ⟨settled, mid, settles, flag, accepted⟩

/-- A cluster that is accepted is one flag: the only one that may stand in it may not be repeated. -/
theorem cluster_eq_ok {ps : List Piece} {state next : Parsing}
    (accepted : cluster ps state = .ok next) (notEmpty : ps ≠ []) :
    ∃ settled, state.settle = (settled, none) ∧
      settled.settleFlag .verbose [] = (next, none) := by
  obtain ⟨p, ps, rfl⟩ := List.exists_cons_of_ne_nil notEmpty
  obtain ⟨settled, mid, settles, flag, accepted⟩ := cluster_cons_eq_ok accepted
  cases ps with
  | nil =>
    cases accepted
    exact ⟨settled, settles, flag⟩
  | cons q ps =>
    obtain ⟨again, _, settlesAgain, flagAgain, _⟩ := cluster_cons_eq_ok accepted
    have waiting : mid.waiting = none :=
      (settleFlag_settings flag).1.trans (settle_waiting settles)
    rw [settle_of_settled waiting] at settlesAgain
    cases settlesAgain
    have used : Flag.verbose ∈ mid.used := by
      obtain ⟨_, _, ⟨mem, _, rfl⟩ | ⟨_, rfl⟩⟩ := settleFlag_eq_ok_iff.mp flag
      · exact mem
      · simp
    obtain ⟨_, _, ⟨_, repeatable, _⟩ | ⟨fresh, _⟩⟩ := settleFlag_eq_ok_iff.mp flagAgain
    · cases repeatable
    · exact absurd used fresh

theorem takes_of_takeValue {state next : Parsing} {arg : Bytes}
    (accepted : state.takeValue arg = .ok next) : Takes state arg next := by
  unfold takeValue at accepted
  split at accepted
  · next f wanted =>
    cases accepted
    unfold wanting? at wanted
    split at wanted
    · next waiting =>
      cases wanted
      exact .value waiting
    · cases wanted
  · cases accepted

theorem takes_of_long {state next : Parsing} {body : Bytes}
    (accepted : state.long body = .ok next) : Takes state (dash :: dash :: body) next := by
  have attached := attached?_long body
  obtain ⟨f, found, ⟨bare, takesNone, accepted⟩ | ⟨settled, takes, settles, last⟩⟩ :=
    long_eq_ok accepted
  · obtain ⟨_, settled, settles, flag⟩ := acceptFlag_eq_ok accepted
    rw [bare] at attached
    refine .flag settles (flagNamed?_long found) ?_ ?_
    · rw [attached, takesNone]
      rfl
    · rw [attached]
      exact flag
  · obtain ⟨bare, rfl⟩ | ⟨b, value, after, flag⟩ := last
    · rw [bare] at attached
      exact .option settles (flagNamed?_long found) takes attached
    · rw [after] at attached
      refine .flag settles (flagNamed?_long found) ?_ ?_
      · rw [attached, takes]
        rfl
      · rw [attached]
        exact flag

theorem takes_of_step {state next : Parsing} {arg : Bytes} (accepted : state.step arg = .ok next) :
    Takes state arg next := by
  unfold step at accepted
  split at accepted
  · cases accepted
  · split at accepted
    · exact takes_of_takeValue accepted
    · split at accepted
      · cases accepted
        exact .dashes rfl
      · exact takes_of_long accepted
      · next b rest _ notDash =>
        have short : ¬ [dash, dash] <+: 0x2D :: b :: rest := by
          rintro ⟨_, same⟩
          cases same
          exact notDash rfl
        split at accepted
        · exact takes_of_takeValue accepted
        · obtain ⟨settled, settles, flag⟩ := cluster_eq_ok accepted (pieces_ne_nil b rest)
          exact .switch settles (flagNamed?_eq_none short) flag
      · exact takes_of_takeValue accepted

/-! ## After an accepted command line -/

theorem settleFlag_onlyValues {state next : Parsing} {f : Flag} {value : Bytes}
    (settled : state.settleFlag f value = (next, none)) : next.onlyValues = state.onlyValues := by
  obtain ⟨_, _, ⟨_, _, rfl⟩ | ⟨_, rfl⟩⟩ := settleFlag_eq_ok_iff.mp settled <;> rfl

theorem settle_onlyValues {state next : Parsing} (settled : state.settle = (next, none)) :
    next.onlyValues = state.onlyValues := by
  obtain ⟨_, rfl⟩ | ⟨f, value, _, flag⟩ := settle_cases settled
  · rfl
  · have kept := settleFlag_onlyValues flag
    exact kept

theorem Takes.onlyValues {state next : Parsing} {arg : Bytes} (taken : Takes state arg next)
    (named : arg ≠ [dash, dash]) : next.onlyValues = state.onlyValues := by
  cases taken with
  | dashes same => exact absurd same named
  | value _ => rfl
  | option settles _ _ _ =>
    have kept := settle_onlyValues settles
    exact kept
  | flag settles _ _ flag => exact (settleFlag_onlyValues flag).trans (settle_onlyValues settles)
  | switch settles _ flag => exact (settleFlag_onlyValues flag).trans (settle_onlyValues settles)

theorem run_onlyValues {args : List Bytes} {state final : Parsing}
    (ran : args.foldlM step state = .ok final) (noDashes : [dash, dash] ∉ args) :
    final.onlyValues = state.onlyValues := by
  induction args generalizing state with
  | nil =>
    cases ran
    rfl
  | cons arg args ih =>
    rw [List.foldlM_cons] at ran
    obtain ⟨next, stepped, ran⟩ := bind_eq_ok_iff.mp ran
    have notDashes : arg ≠ [dash, dash] := fun same => noDashes (same ▸ List.mem_cons_self)
    have kept := (takes_of_step stepped).onlyValues notDashes
    rw [ih ran fun later => noDashes (List.mem_cons_of_mem _ later), kept]

/-- Where an accepted command line ends: every argument has been taken and nothing is open. -/
structure Ended (source : Option Bytes) (args : List Bytes) (invocation : Invocation)
    (final settled : Parsing) : Prop where
  ran : args.foldlM step {} = .ok final
  wants : final.wanting? = none
  settles : final.settle = (settled, none)
  finished : settled.finish source = .ok invocation

theorem exists_ended {source : Option Bytes} {args : List Bytes} {invocation : Invocation}
    (parsed : parseArguments source args = .ok invocation) :
    ∃ final settled, Ended source args invocation final settled := by
  obtain ⟨final, ran, finished⟩ := bind_eq_ok_iff.mp parsed
  have wants := finish_wanting finished
  obtain ⟨settled, settles, finished⟩ := bind_eq_ok_iff.mp finished
  rw [orStop_eq_ok_iff] at settles
  refine ⟨final, settled, ran, wants, settles, ?_⟩
  apply bind_eq_ok_iff.mpr
  refine ⟨settled, ?_, finished⟩
  exact orStop_eq_ok_iff.mpr (settle_of_settled (settle_waiting settles))

/-- The arguments end well only if the variable for the kernel files can be used and at most one
location was given. -/
theorem finish_eq_ok {source : Option Bytes} {state : Parsing} {invocation : Invocation}
    (settled : state.waiting = none) (finished : state.finish source = .ok invocation) :
    (source = some [] → .kernelSource ∈ state.used) ∧
      (state.used.filter Flag.isLocation).length ≤ 1 ∧ invocation = sourced source state := by
  obtain ⟨same, settles, finished⟩ := bind_eq_ok_iff.mp finished
  rw [orStop_eq_ok_iff, settle_of_settled settled] at settles
  cases settles
  obtain ⟨last, taken, finished⟩ := bind_eq_ok_iff.mp finished
  rw [orStop_eq_ok_iff] at taken
  have usable : source = some [] → Flag.kernelSource ∈ state.used := by
    rintro rfl
    by_contra absent
    simp [settleSource, settleFlag, record, absent] at taken
  obtain ⟨next, ok, locations, invocationEq⟩ := settleSource_ok state usable
  rw [ok] at taken
  cases taken
  split at finished
  · cases finished
  · next compatible =>
    cases finished
    rw [conflict?_eq_none_iff, locations] at compatible
    exact ⟨usable, compatible, invocationEq⟩

namespace Ended

variable {source : Option Bytes} {args : List Bytes} {invocation : Invocation}
  {final settled : Parsing}

theorem waiting (ended : Ended source args invocation final settled) : settled.waiting = none :=
  settle_waiting ended.settles

/-- Without the argument `--` another argument may be a flag. -/
theorem flagged (ended : Ended source args invocation final settled)
    (noDashes : [dash, dash] ∉ args) : final.onlyValues = false :=
  run_onlyValues ended.ran noDashes

/-- One more word is settled after all others. -/
theorem append_word (ended : Ended source args invocation final settled)
    (noDashes : [dash, dash] ∉ args) (w : Word) : parseArguments source (args ++ [w.argument]) =
      orStop (settled.settleFlag w.flag (w.value?.getD [])) >>= finish source := by
  have run : (args ++ [w.argument]).foldlM step {} =
      orStop (settled.settleFlag w.flag (w.value?.getD [])) := by
    rw [List.foldlM_append, ended.ran, ok_bind, List.foldlM_cons,
      step_word ended.wants (ended.flagged noDashes), ended.settles]
    simp only [List.foldlM_nil, bind_pure]
    rfl
  rw [parseArguments, run]

end Ended

end KernelSpec.Parsing
