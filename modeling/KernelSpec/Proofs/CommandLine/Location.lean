import KernelSpec.Proofs.CommandLine.Step

/-! # At most one location

`locations` reads off a command line where it asks to install to, as `given` reads off its settings.
What the flags settled so far have chosen and what the arguments to come will choose stay the same
from one argument to the next (`Takes.locations`), so of an accepted command line all locations are
known at the end, and there is at most one (`parseArguments_location`).
-/

namespace KernelSpec

/-- The location that a flag has set. -/
def Invocation.place? (invocation : Invocation) : Flag → Option Location
  | .user => if invocation.user then some .user else none
  | .environment => if invocation.environment then some .environment else none
  | .under => invocation.under?.map fun directory => .under (some directory)
  | _ => none

namespace Parsing

/-- The location that a flag asks for with its value. -/
def locationOf? : Flag → Bytes → Option Location
  | .user, _ => some .user
  | .environment, _ => some .environment
  | .under, directory => some (.under (some ⟨directory⟩))
  | _, _ => none

/-- The locations that arguments ask for; the first argument is the value of the option that is
open. -/
def locations : Option Flag → List Bytes → List Location
  | _, [] => []
  | some f, value :: args => (locationOf? f value).toList ++ locations none args
  | none, arg :: args =>
    match flagNamed? arg, attached? arg with
    | none, _ => locations none args
    | some f, some value => (locationOf? f value).toList ++ locations none args
    | some f, none =>
      if f.takesValue then locations (some f) args
      else (locationOf? f []).toList ++ locations none args

/-- The locations that have been chosen, in the order of their flags. -/
def chosen (state : Parsing) : List Location := state.used.filterMap state.invocation.place?

/-- The locations that are still to be chosen. -/
def pending (state : Parsing) (args : List Bytes) : List Location :=
  match state.waiting with
  | none => locations none args
  | some (f, none) => locations (some f) args
  | some (f, some value) => (locationOf? f value).toList ++ locations none args

/-- What is set has been used. -/
def Tracked (state : Parsing) : Prop :=
  ∀ f, (state.invocation.place? f).isSome = true → f ∈ state.used

/-! ## Settling -/

theorem record_place? {invocation next : Invocation} {value : Bytes} {f : Flag}
    (recorded : record invocation value f = .ok next) (g : Flag) :
    next.place? g = if g = f then locationOf? f value else invocation.place? g := by
  obtain ⟨_, _, rfl, _, rfl⟩ | ⟨_, rfl, rfl⟩ | ⟨_, rfl, rfl⟩ | other := record_eq_ok recorded
  · cases g <;> simp [Invocation.place?, locationOf?]
  · cases g <;> simp [Invocation.place?, locationOf?]
  · cases g <;> simp [Invocation.place?, locationOf?]
  · cases f with
    | setting | kernelSource | completions => simp at other
    | _ =>
      cases recorded
      cases g <;> simp [Invocation.place?, locationOf?]

theorem settleFlag_tracked {state next : Parsing} {f : Flag} {value : Bytes}
    (settled : state.settleFlag f value = (next, none)) (tracked : Tracked state) :
    Tracked next := by
  intro g isSet
  obtain ⟨invocation, recorded, used⟩ := settleFlag_eq_ok_iff.mp settled
  have place := record_place? recorded g
  by_cases same : g = f
  · obtain ⟨mem, _, rfl⟩ | ⟨_, rfl⟩ := used
    · exact same ▸ mem
    · simp [same]
  · rw [if_neg same] at place
    obtain ⟨_, _, rfl⟩ | ⟨_, rfl⟩ := used
    · exact tracked g (place ▸ isSet)
    · exact List.mem_append_left _ (tracked g (place ▸ isSet))

theorem settleFlag_chosen {state next : Parsing} {f : Flag} {value : Bytes}
    (settled : state.settleFlag f value = (next, none)) :
    chosen next = chosen state ++ (locationOf? f value).toList := by
  obtain ⟨invocation, recorded, ⟨_, repeatable, rfl⟩ | ⟨fresh, rfl⟩⟩ :=
    settleFlag_eq_ok_iff.mp settled
  · cases f with
    | setting s =>
      have same : invocation.place? = state.invocation.place? := by
        funext g
        rw [record_place? recorded g]
        split
        · next here => rw [here]; rfl
        · rfl
      simp [chosen, same, locationOf?]
    | _ => cases repeatable
  · have others : state.used.filterMap invocation.place? =
        state.used.filterMap state.invocation.place? := by
      refine List.filterMap_congr fun g mem => ?_
      rw [record_place? recorded g, if_neg (fun same : g = f => fresh (same ▸ mem))]
    have own : [f].filterMap invocation.place? = (locationOf? f value).toList := by
      rw [List.filterMap_cons, record_place? recorded f, if_pos rfl]
      cases locationOf? f value <;> rfl
    rw [chosen, List.filterMap_append, others, own, chosen]

theorem settle_tracked {state next : Parsing} (settled : state.settle = (next, none))
    (tracked : Tracked state) : Tracked next := by
  obtain ⟨_, rfl⟩ | ⟨f, value, _, flag⟩ := settle_cases settled
  · exact tracked
  · exact settleFlag_tracked flag tracked

theorem settle_chosen {state next : Parsing} (settled : state.settle = (next, none))
    (args : List Bytes) :
    chosen state ++ pending state args = chosen next ++ locations none args := by
  obtain ⟨nothing, rfl⟩ | ⟨f, value, waiting, flag⟩ := settle_cases settled
  · rw [pending, nothing]
  · rw [pending, waiting, settleFlag_chosen flag, List.append_assoc]
    rfl

theorem pending_of_settled {state : Parsing} (nothing : state.waiting = none)
    (args : List Bytes) : pending state args = locations none args := by
  rw [pending, nothing]

/-! ## All arguments -/

theorem Takes.tracked {state next : Parsing} {arg : Bytes} (taken : Takes state arg next)
    (tracked : Tracked state) : Tracked next := by
  cases taken with
  | dashes _ => exact tracked
  | value _ => exact tracked
  | option settles _ _ _ =>
    have kept := settle_tracked settles tracked
    exact kept
  | flag settles _ _ flag => exact settleFlag_tracked flag (settle_tracked settles tracked)
  | switch settles _ flag => exact settleFlag_tracked flag (settle_tracked settles tracked)

/-- An argument is `--`, or it moves locations from those that are pending to those that are
chosen. -/
theorem Takes.locations {state next : Parsing} {arg : Bytes} (taken : Takes state arg next) :
    arg = [dash, dash] ∧ next = { state with onlyValues := true } ∨
      ∀ args, chosen state ++ pending state (arg :: args) = chosen next ++ pending next args := by
  cases taken with
  | dashes same => exact .inl ⟨same, rfl⟩
  | value waiting =>
    refine .inr fun args => ?_
    rw [pending, waiting]
    rfl
  | option settles found takes bare =>
    refine .inr fun args => ?_
    rw [settle_chosen settles]
    simp [Parsing.locations, found, bare, takes, pending, chosen]
  | flag settles found takes flag =>
    refine .inr fun args => ?_
    have nothing := (settleFlag_settings flag).1.trans (settle_waiting settles)
    rw [settle_chosen settles, settleFlag_chosen flag, pending_of_settled nothing,
      List.append_assoc]
    cases value : attached? arg <;> simp_all [Parsing.locations]
  | switch settles found flag =>
    refine .inr fun args => ?_
    have nothing := (settleFlag_settings flag).1.trans (settle_waiting settles)
    rw [settle_chosen settles, settleFlag_chosen flag, pending_of_settled nothing]
    simp [Parsing.locations, found, locationOf?]

/-- A last argument `--` asks for nothing, once no option needs a value. -/
theorem pending_dashes {state : Parsing} (settled : state.wanting? = none) :
    pending state [[dash, dash]] = pending state [] := by
  have nothing : locations none [[dash, dash]] = [] := by decide
  unfold wanting? at settled
  unfold pending
  rcases waiting : state.waiting with _ | ⟨f, _ | value⟩
  · exact nothing
  · rw [waiting] at settled
    cases settled
  · exact congrArg ((locationOf? f value).toList ++ ·) nothing

theorem run_tracked {args : List Bytes} {state final : Parsing}
    (ran : args.foldlM step state = .ok final) (tracked : Tracked state) : Tracked final := by
  induction args generalizing state with
  | nil =>
    cases ran
    exact tracked
  | cons arg args ih =>
    rw [List.foldlM_cons] at ran
    obtain ⟨next, stepped, ran⟩ := bind_eq_ok_iff.mp ran
    exact ih ran ((takes_of_step stepped).tracked tracked)

theorem run_locations {args : List Bytes} {state final : Parsing}
    (ran : args.foldlM step state = .ok final) (settled : final.wanting? = none) :
    chosen state ++ pending state args = chosen final ++ pending final [] := by
  induction args generalizing state with
  | nil =>
    cases ran
    rfl
  | cons arg args ih =>
    rw [List.foldlM_cons] at ran
    obtain ⟨next, stepped, ran⟩ := bind_eq_ok_iff.mp ran
    obtain ⟨rfl, rfl⟩ | conserved := (takes_of_step stepped).locations
    · -- Nothing follows `--`.
      cases args with
      | cons arg args =>
        rw [List.foldlM_cons] at ran
        obtain ⟨_, refused, _⟩ := bind_eq_ok_iff.mp ran
        exact absurd refused (step_onlyValues rfl)
      | nil =>
        cases ran
        have same : pending state [[dash, dash]] = pending state [] := pending_dashes settled
        rw [same]
        rfl
    · rw [conserved, ih ran]

/-! ## At the end -/

theorem isLocation_of_place? {invocation : Invocation} {f : Flag}
    (isSet : (invocation.place? f).isSome = true) : f.isLocation = true := by
  cases f with
  | user | environment | under => rfl
  | _ => cases isSet

theorem sourced_place? (source : Option Bytes) (state : Parsing) (f : Flag) :
    (sourced source state).place? f = state.invocation.place? f := by
  unfold sourced
  split
  · rfl
  · cases f <;> rfl

/-- Two locations are refused at the end, in the order of their flags. -/
theorem finish_of_several {source : Option Bytes} {state : Parsing} (settled : state.waiting = none)
    (usable : source = some [] → .kernelSource ∈ state.used) {f g : Flag} {others : List Flag}
    (several : state.used.filter Flag.isLocation = f :: g :: others) :
    ∃ used, state.finish source = .error (.usage (.conflict f (g :: others) used)) := by
  obtain ⟨next, taken, locations, _⟩ := settleSource_ok state usable
  have found : conflict? next.used = some (f, g :: others) := by
    rw [conflict?, locations, several]
  refine ⟨next.used.filter fun h => !(g :: others).contains h, ?_⟩
  rw [finish, settle_of_settled settled]
  simp only [orStop, ok_bind, taken, found]
  rfl

namespace Ended

variable {source : Option Bytes} {args : List Bytes} {invocation : Invocation}
  {final settled : Parsing}

theorem chosen_eq (ended : Ended source args invocation final settled) :
    chosen settled = locations none args := by
  have start : chosen {} ++ pending {} args = locations none args := rfl
  rw [← start, run_locations ended.ran ended.wants, settle_chosen ended.settles]
  exact (List.append_nil _).symm

/-- The one location flag that was used is the one that is set. -/
theorem filter_used (ended : Ended source args invocation final settled) {f : Flag}
    (isSet : (invocation.place? f).isSome = true) :
    settled.used.filter Flag.isLocation = [f] := by
  have tracked : Tracked settled := by
    refine settle_tracked ended.settles (run_tracked ended.ran fun f isSet => ?_)
    cases f <;> cases isSet
  obtain ⟨_, single, rfl⟩ := finish_eq_ok ended.waiting ended.finished
  have isLocation := isLocation_of_place? isSet
  rw [sourced_place?] at isSet
  have mem : f ∈ settled.used.filter Flag.isLocation :=
    List.mem_filter.mpr ⟨tracked f isSet, isLocation⟩
  generalize settled.used.filter Flag.isLocation = flags at mem single ⊢
  rcases flags with _ | ⟨g, _ | ⟨h, others⟩⟩
  · cases mem
  · rw [List.mem_singleton.mp mem]
  · simp at single

theorem exclusive (ended : Ended source args invocation final settled) {f g : Flag}
    (isSet : (invocation.place? f).isSome = true) (other : (invocation.place? g).isSome = true) :
    g = f := by
  have same := (ended.filter_used other).symm.trans (ended.filter_used isSet)
  exact List.singleton_inj.mp same

/-- What is set is what the arguments ask for. -/
theorem locations_of_place? (ended : Ended source args invocation final settled) {f : Flag}
    {place : Location} (isSet : invocation.place? f = some place) :
    locations none args = [place] := by
  have onlyLocations : chosen settled =
      (settled.used.filter Flag.isLocation).filterMap settled.invocation.place? := by
    rw [chosen, List.filterMap_filter]
    refine List.filterMap_congr fun g _ => ?_
    cases g <;> rfl
  rw [← ended.chosen_eq, onlyLocations, ended.filter_used (by rw [isSet]; rfl)]
  obtain ⟨_, _, rfl⟩ := finish_eq_ok ended.waiting ended.finished
  rw [sourced_place?] at isSet
  simp [isSet]

theorem locations_of_none (ended : Ended source args invocation final settled)
    (nothing : ∀ f, invocation.place? f = none) : locations none args = [] := by
  rw [← ended.chosen_eq, chosen]
  obtain ⟨_, _, rfl⟩ := finish_eq_ok ended.waiting ended.finished
  refine List.filterMap_eq_nil_iff.mpr fun f _ => ?_
  rw [← sourced_place? source, nothing]

/-- A second location is refused. -/
theorem append_location (ended : Ended source args invocation final settled)
    (noDashes : [dash, dash] ∉ args) {f : Flag} (isSet : (invocation.place? f).isSome = true)
    {w : Word} (location : w.flag.isLocation = true) (other : w.flag ≠ f) :
    ∃ used, parseArguments source (args ++ [w.argument]) =
      .error (.usage (.conflict f [w.flag] used)) := by
  have filtered := ended.filter_used isSet
  have fresh : w.flag ∉ settled.used := by
    intro mem
    have listed := List.mem_filter.mpr ⟨mem, location⟩
    rw [filtered] at listed
    exact other (List.mem_singleton.mp listed)
  obtain ⟨next, recorded⟩ :
      ∃ next, record settled.invocation (w.value?.getD []) w.flag = .ok next := by
    cases w with
    | user | environment | under => exact ⟨_, rfl⟩
    | _ => cases location
  let last : Parsing := { settled with used := settled.used ++ [w.flag], invocation := next }
  have flag : settled.settleFlag w.flag (w.value?.getD []) = (last, none) :=
    settleFlag_eq_ok_iff.mpr ⟨next, recorded, .inr ⟨fresh, rfl⟩⟩
  have several : last.used.filter Flag.isLocation = [f, w.flag] := by
    rw [List.filter_append, filtered, List.filter_singleton, location]
    rfl
  obtain ⟨usable, _, _⟩ := finish_eq_ok ended.waiting ended.finished
  have stillUsable : source = some [] → Flag.kernelSource ∈ last.used :=
    fun empty => List.mem_append_left _ (usable empty)
  have waiting : last.waiting = none := ended.waiting
  rw [ended.append_word noDashes, flag]
  exact finish_of_several waiting stillUsable several

end Ended

end Parsing

namespace Invocation

variable {invocation : Invocation}

theorem count_le_one (exclusive : ∀ f g, (invocation.place? f).isSome = true →
      (invocation.place? g).isSome = true → g = f) :
    [invocation.user, invocation.environment, invocation.under?.isSome].count true ≤ 1 := by
  have first := exclusive .user .environment
  have second := exclusive .user .under
  have third := exclusive .environment .under
  simp only [place?] at first second third
  cases user : invocation.user <;> cases environment : invocation.environment <;>
    cases under : invocation.under? <;> simp_all

theorem location_eq {f : Flag} {place : Location} (isSet : invocation.place? f = some place)
    (alone : ∀ g, (invocation.place? g).isSome = true → g = f) : invocation.location = place := by
  have unset {g : Flag} (other : g ≠ f) : invocation.place? g = none :=
    Option.not_isSome_iff_eq_none.mp fun found => other (alone g found)
  cases f with
  | user => simp_all [place?, location]
  | environment =>
    have user : invocation.place? .user = none := unset (by decide)
    simp_all [place?, location]
  | under =>
    have user : invocation.place? .user = none := unset (by decide)
    have environment : invocation.place? .environment = none := unset (by decide)
    obtain ⟨directory, given, rfl⟩ := Option.map_eq_some_iff.mp isSet
    simp_all [place?, location]
  | _ => cases isSet

theorem location_of_none (nothing : ∀ f, invocation.place? f = none) :
    invocation.location = .under none := by
  have user := nothing .user
  have environment := nothing .environment
  have under := nothing .under
  simp_all [place?, location]

end Invocation

/-- At most one location is set, and it is the one that the arguments ask for. Another location flag
after it is refused. -/
theorem parseArguments_location {source : Option Bytes} {args : List Bytes}
    {invocation : Invocation} (parsed : parseArguments source args = .ok invocation) :
    [invocation.user, invocation.environment, invocation.under?.isSome].count true ≤ 1 ∧
    (Parsing.locations none args = [invocation.location] ∨
      Parsing.locations none args = [] ∧ invocation.location = .under none) ∧
    ([Parsing.dash, Parsing.dash] ∉ args → ∀ (f : Flag) (w : Word),
      (invocation.place? f).isSome = true → w.flag.isLocation = true → w.flag ≠ f →
      ∃ used, parseArguments source (args ++ [w.argument]) =
        .error (.usage (.conflict f [w.flag] used))) := by
  obtain ⟨final, settled, ended⟩ := Parsing.exists_ended parsed
  refine ⟨?_, ?_, fun noDashes f w isSet location other =>
    ended.append_location noDashes isSet location other⟩
  · exact Invocation.count_le_one fun _ _ isSet other => ended.exclusive isSet other
  · by_cases nothing : ∀ f, invocation.place? f = none
    · exact .inr ⟨ended.locations_of_none nothing, Invocation.location_of_none nothing⟩
    · obtain ⟨f, isSet⟩ := not_forall.mp nothing
      obtain ⟨place, isSet⟩ := Option.ne_none_iff_exists'.mp isSet
      have location := Invocation.location_eq isSet fun g other =>
        ended.exclusive (by rw [isSet]; rfl) other
      rw [location]
      exact .inl (ended.locations_of_place? isSet)

/-- The value of an option that takes dashes is no location, and an empty directory is one. -/
theorem parseArguments_location_swallowed :
    let args := ["--comp-opts", "--user", "--prefix", "", "-v"].map Bytes.ofString
    let invocation : Invocation :=
      { under? := some ⟨[]⟩, verbose := true, settings := [(.compilerOptions, "--user")] }
    parseArguments none args = .ok invocation ∧
      [invocation.user, invocation.environment, invocation.under?.isSome].count true ≤ 1 ∧
      (Parsing.locations none args = [.under (some ⟨[]⟩)] ∨
        Parsing.locations none args = [] ∧ invocation.location = .under none) ∧
      [Parsing.dash, Parsing.dash] ∉ args ∧ (invocation.place? .under).isSome = true ∧
      ∃ used, parseArguments none (args ++ [Word.user.argument]) =
        .error (.usage (.conflict .under [.user] used)) := by
  intro args invocation
  have parsed : parseArguments none args = .ok invocation := by decide +kernel
  have noDashes : [Parsing.dash, Parsing.dash] ∉ args := by decide
  have isSet : (invocation.place? .under).isSome = true := rfl
  obtain ⟨single, asked, refused⟩ := parseArguments_location parsed
  exact ⟨parsed, single, asked, noDashes, isSet,
    refused noDashes .under .user isSet rfl (by decide)⟩

end KernelSpec
