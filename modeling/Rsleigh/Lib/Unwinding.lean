import Mathlib

namespace Rsleigh.Unwinding

-- A program with a state, which keeps the state it has reached when a signal stops it.
abbrev Program (ε σ : Type) := ExceptT ε (StateM σ)

def outcome (program : Program ε σ α) (s : σ) : Except ε α × σ := program.run.run s

-- What a run from `s` ends with: a result, or a signal, and the state there.
def Ends (program : Program ε σ α) (returns : α → σ → Prop) (stops : ε → σ → Prop) (s : σ) : Prop :=
  match outcome program s with
  | (.ok value, after) => returns value after
  | (.error signal, after) => stops signal after

section Rules

variable {ε σ α β : Type} {returns returns' : α → σ → Prop} {stops stops' : ε → σ → Prop} {s : σ}

@[simp] theorem ends_pure {value : α} : Ends (pure value : Program ε σ α) returns stops s ↔ returns value s :=
  Iff.rfl

@[simp] theorem ends_throw {signal : ε} : Ends (throw signal : Program ε σ α) returns stops s ↔ stops signal s :=
  Iff.rfl

@[simp] theorem ends_get {returns : σ → σ → Prop} :
    Ends (get : Program ε σ σ) returns stops s ↔ returns s s :=
  Iff.rfl

@[simp] theorem ends_modify {f : σ → σ} {returns : Unit → σ → Prop} :
    Ends (modify f : Program ε σ Unit) returns stops s ↔ returns () (f s) :=
  Iff.rfl

theorem outcome_bind (program : Program ε σ α) (next : α → Program ε σ β) (s : σ) :
    outcome (program >>= next) s =
      match outcome program s with
      | (.ok value, after) => outcome (next value) after
      | (.error signal, after) => (.error signal, after) := by
  have shape : outcome (program >>= next) s =
      (ExceptT.bindCont next (program.run.run s).1).run (program.run.run s).2 := rfl
  rw [shape]
  unfold outcome
  cases program.run.run s with
  | mk result after => cases result <;> rfl

@[simp] theorem ends_bind {program : Program ε σ α} {next : α → Program ε σ β} {returns : β → σ → Prop} :
    Ends (program >>= next) returns stops s ↔ Ends program (fun value => Ends (next value) returns stops) stops s := by
  unfold Ends
  rw [outcome_bind]
  cases outcome program s with
  | mk result after => cases result <;> rfl

theorem Ends.weaken {program : Program ε σ α} (ends : Ends program returns stops s)
    (returning : ∀ value after, returns value after → returns' value after)
    (stopping : ∀ signal after, stops signal after → stops' signal after) : Ends program returns' stops' s := by
  unfold Ends at ends ⊢
  cases ran : outcome program s with
  | mk result after =>
    rw [ran] at ends
    cases result with
    | ok value => exact returning value after ends
    | error signal => exact stopping signal after ends

end Rules

end Rsleigh.Unwinding
