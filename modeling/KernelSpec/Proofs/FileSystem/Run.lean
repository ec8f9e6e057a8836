import KernelSpec.Registry.Basic
import Mathlib

/-! # Runs of steps

How steps on a file system run one after another, and what every run of them keeps.
-/

namespace KernelSpec

/-- Steps on a file system that may fail with `ε`. -/
abbrev Steps (ε α : Type) := ExceptT ε (StateM FileSystem) α

namespace Steps

variable {ε α β : Type}

theorem run_bind (first : Steps ε α) (next : α → Steps ε β) (fs : FileSystem) :
    (first >>= next).run fs =
      match first.run fs with
      | (.ok answer, changed) => (next answer).run changed
      | (.error error, changed) => (.error error, changed) := by
  change ExceptT.bindCont next (first.run fs).1 (first.run fs).2 = _
  obtain ⟨_ | _, _⟩ := first.run fs <;> rfl

/-- The first steps fail, or the next ones go on with what they leave. -/
theorem run_bind_cases {first : Steps ε α} {next : α → Steps ε β} {fs changed : FileSystem}
    {result : Except ε β} (run : (first >>= next).run fs = (result, changed)) :
    (∃ error, first.run fs = (.error error, changed) ∧ result = .error error) ∨
      ∃ answer mid, first.run fs = (.ok answer, mid) ∧
        (next answer).run mid = (result, changed) := by
  rw [run_bind] at run
  revert run
  rcases first.run fs with ⟨error | answer, mid⟩ <;> intro run
  · cases run
    exact .inl ⟨error, rfl, rfl⟩
  · exact .inr ⟨answer, mid, rfl, run⟩

theorem run_bind_of_ok {first : Steps ε α} {next : α → Steps ε β} {fs changed : FileSystem}
    {answer : α} (run : first.run fs = (.ok answer, changed)) :
    (first >>= next).run fs = (next answer).run changed := by
  rw [run_bind, run]

theorem run_get_bind (next : FileSystem → Steps ε β) (fs : FileSystem) :
    (get >>= next).run fs = (next fs).run fs := rfl

theorem run_tryCatch (steps : Steps ε α) (recover : ε → Steps ε α) (fs : FileSystem) :
    (tryCatch steps recover).run fs =
      match steps.run fs with
      | (.ok answer, changed) => (.ok answer, changed)
      | (.error error, changed) => (recover error).run changed := by
  change (match (steps.run fs).1 with
    | .ok a => (pure (.ok a) : StateM FileSystem (Except ε α))
    | .error e => (recover e).run) (steps.run fs).2 = _
  obtain ⟨_ | _, _⟩ := steps.run fs <;> rfl

theorem run_adapt {ε' : Type} (wrap : ε → ε') (steps : Steps ε α) (fs : FileSystem) :
    (ExceptT.adapt wrap steps).run fs = ((steps.run fs).1.mapError wrap, (steps.run fs).2) := by
  rfl

theorem run_ofOperation (operation : FileSystem → Except Fault FileSystem) (fs : FileSystem) :
    (Disk.ofOperation operation).run fs =
      match operation fs with
      | .ok changed => (.ok (), changed)
      | .error fault => (.error fault, fs) := rfl

theorem run_ask (question : FileSystem → Except Fault α) (fs : FileSystem) :
    (Disk.ask question).run fs = (question fs, fs) := rfl

/-- Whatever comes of the steps, the file system has the property if it had it before. -/
def Keeps (P : FileSystem → Prop) (steps : Steps ε α) : Prop := ∀ fs, P fs → P (steps.run fs).2

section Keeps

variable {P : FileSystem → Prop}

theorem keeps_pure (answer : α) : Keeps P (pure answer : Steps ε α) := fun _ holds => holds

theorem keeps_throw (error : ε) : Keeps P (throw error : Steps ε α) := fun _ holds => holds

theorem Keeps.bind {first : Steps ε α} {next : α → Steps ε β} (keeps : Keeps P first)
    (keeps' : ∀ answer, Keeps P (next answer)) : Keeps P (first >>= next) := by
  intro fs holds
  rw [run_bind]
  have after := keeps fs holds
  revert after
  rcases first.run fs with ⟨error | answer, changed⟩ <;> intro after
  · exact after
  · exact keeps' answer changed after

theorem keeps_get_bind {next : FileSystem → Steps ε β}
    (keeps : ∀ fs, P fs → P ((next fs).run fs).2) : Keeps P (get >>= next) := keeps

theorem Keeps.tryCatch {steps : Steps ε α} {recover : ε → Steps ε α} (keeps : Keeps P steps)
    (keeps' : ∀ error, Keeps P (recover error)) : Keeps P (tryCatch steps recover) := by
  intro fs holds
  rw [run_tryCatch]
  have after := keeps fs holds
  revert after
  rcases steps.run fs with ⟨error | answer, changed⟩ <;> intro after
  · exact keeps' error changed after
  · exact after

theorem Keeps.adapt {ε' : Type} {steps : Steps ε α} (keeps : Keeps P steps) (wrap : ε → ε') :
    Keeps P (ExceptT.adapt wrap steps) := keeps

theorem keeps_forM {items : List β} {steps : β → Steps ε PUnit}
    (keeps : ∀ item ∈ items, Keeps P (steps item)) : Keeps P (items.forM steps) := by
  induction items with
  | nil => exact keeps_pure _
  | cons item items ih =>
    obtain ⟨here, later⟩ := List.forall_mem_cons.mp keeps
    exact here.bind fun _ => ih later

/-- When all of the steps succeed, each does so in a file system that has the property. -/
theorem run_of_forM_ok {items : List β} {steps : β → Steps ε PUnit}
    (keeps : ∀ item ∈ items, Keeps P (steps item)) {fs changed : FileSystem} (holds : P fs)
    (run : (items.forM steps).run fs = (.ok (), changed)) :
    ∀ item ∈ items, ∃ start stop, P start ∧ (steps item).run start = (.ok (), stop) := by
  induction items generalizing fs with
  | nil => simp
  | cons item items ih =>
    obtain ⟨here, later⟩ := List.forall_mem_cons.mp keeps
    obtain ⟨_, _, failed⟩ | ⟨_, mid, first, rest⟩ := run_bind_cases run
    · cases failed
    · have after := here fs holds
      rw [first] at after
      exact List.forall_mem_cons.mpr ⟨⟨fs, mid, holds, first⟩, ih later after rest⟩

/-- Steps that do the same where the property holds do the same one after another. -/
theorem run_forM_congr {items : List β} {steps others : β → Steps ε PUnit}
    (keeps : ∀ item ∈ items, Keeps P (steps item))
    (same : ∀ item ∈ items, ∀ fs, P fs → (steps item).run fs = (others item).run fs)
    {fs : FileSystem} (holds : P fs) : (items.forM steps).run fs = (items.forM others).run fs := by
  induction items generalizing fs with
  | nil => rfl
  | cons item items ih =>
    obtain ⟨here, later⟩ := List.forall_mem_cons.mp keeps
    obtain ⟨first, rest⟩ := List.forall_mem_cons.mp same
    have after := here fs holds
    change (steps item >>= fun _ => items.forM steps).run fs =
      (others item >>= fun _ => items.forM others).run fs
    rw [run_bind, run_bind, ← first fs holds]
    revert after
    rcases (steps item).run fs with ⟨error | answer, mid⟩ <;> intro after
    · rfl
    · exact ih later rest after

theorem keeps_ask (question : FileSystem → Except Fault α) : Keeps P (Disk.ask question) :=
  fun _ holds => holds

theorem keeps_ofOperation {operation : FileSystem → Except Fault FileSystem}
    (keeps : ∀ fs changed, P fs → operation fs = .ok changed → P changed) :
    Keeps P (Disk.ofOperation operation) := by
  intro fs holds
  rw [run_ofOperation]
  cases result : operation fs with
  | error fault => exact holds
  | ok changed => exact keeps fs changed holds result

end Keeps

end Steps

end KernelSpec
