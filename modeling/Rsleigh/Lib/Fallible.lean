import Mathlib.Logic.Basic
import Mathlib.Data.List.Forall2

namespace Rsleigh.Fallible

variable {ε α β : Type} {allowed : ε → Prop}

-- A computation meets a postcondition: it returns only what the postcondition holds of, and fails
-- only in allowed ways.
def Meets (allowed : ε → Prop) (post : α → Prop) : Except ε α → Prop
  | .ok value => post value
  | .error failure => allowed failure

theorem meets_bind {middle : α → Prop} {post : β → Prop} {first : Except ε α} {next : α → Except ε β}
    (meets : Meets allowed middle first) (after : ∀ value, middle value → Meets allowed post (next value)) :
    Meets allowed post (first >>= next) := by
  cases first with
  | error failure => exact meets
  | ok value => exact after value meets

theorem meets_mono {weak strong : α → Prop} {computation : Except ε α} (meets : Meets allowed strong computation)
    (weaker : ∀ value, strong value → weak value) : Meets allowed weak computation := by
  cases computation with
  | error failure => exact meets
  | ok value => exact weaker value meets

theorem bind_ok {first : Except ε α} {next : α → Except ε β} {result : β} :
    (first >>= next) = .ok result ↔ ∃ value, first = .ok value ∧ next value = .ok result := by
  constructor
  · intro returned
    cases first with
    | error failure => cases returned
    | ok value => exact ⟨value,rfl,returned⟩
  · intro parts
    obtain ⟨value,rfl,returned⟩ := parts
    exact returned

theorem pure_ok {value result : α} : (pure value : Except ε α) = .ok result ↔ value = result := by
  constructor
  · intro returned
    cases returned
    rfl
  · intro same
    rw [same]
    rfl

theorem mapError_ok {δ : Type} {first : Except ε α} {change : ε → δ} {result : α}
    (returned : first.mapError change = .ok result) : first = .ok result := by
  cases first with
  | error failure => cases returned
  | ok value =>
    cases returned
    rfl

theorem map_ok {first : Except ε α} {change : α → β} {result : β} (returned : first.map change = .ok result) :
    ∃ value, first = .ok value ∧ change value = result := by
  cases first with
  | error failure => cases returned
  | ok value => exact ⟨value,rfl,Except.ok.inj returned⟩

theorem mapM_ok {compute : α → Except ε β} {items : List α} {results : List β}
    (returned : items.mapM compute = .ok results) :
    List.Forall₂ (fun item result => compute item = .ok result) items results := by
  induction items generalizing results with
  | nil =>
    rw [List.mapM_nil] at returned
    rw [← pure_ok.mp returned]
    exact List.Forall₂.nil
  | cons item rest ih =>
    rw [List.mapM_cons] at returned
    obtain ⟨result,first,returned⟩ := bind_ok.mp returned
    obtain ⟨later,others,returned⟩ := bind_ok.mp returned
    rw [← pure_ok.mp returned]
    exact List.Forall₂.cons first (ih others)

-- A computation that has more to run on: it gives the same, unless the other one was lost.
def Extends (lost : ε) (less more : Except ε α) : Prop :=
  less = .error lost ∨ less = more

theorem extends_refl (lost : ε) (computation : Except ε α) : Extends lost computation computation :=
  Or.inr rfl

theorem extends_bind {lost : ε} {first first' : Except ε α} {next next' : α → Except ε β}
    (extended : Extends lost first first') (after : ∀ value, Extends lost (next value) (next' value)) :
    Extends lost (first >>= next) (first' >>= next') := by
  rcases extended with isLost | same
  · rw [isLost]
    exact Or.inl rfl
  · rw [same]
    cases first' with
    | error failure => exact Or.inr rfl
    | ok value => exact after value

theorem extends_same {lost : ε} {less more : Except ε α} (extended : Extends lost less more)
    (found : less ≠ .error lost) : more = less :=
  (extended.resolve_left found).symm

theorem error_known {lost failure : ε} (found : (.error failure : Except ε α) ≠ .error lost) :
    (.error failure : Except ε β) ≠ .error lost := by
  intro isLost
  apply found
  rw [Except.error.inj isLost]

theorem finishes_bind {lost : ε} {first : Nat → Except ε α} {next : α → Nat → Except ε β}
    (firstMore : ∀ {fuel more}, fuel ≤ more → Extends lost (first fuel) (first more))
    (nextMore : ∀ value {fuel more}, fuel ≤ more → Extends lost (next value fuel) (next value more))
    (finishes : ∃ fuel, first fuel ≠ .error lost)
    (later : ∀ fuel value, first fuel = .ok value → ∃ fuel, next value fuel ≠ .error lost) :
    ∃ fuel, (first fuel >>= fun value => next value fuel) ≠ .error lost := by
  obtain ⟨fuel,finishes⟩ := finishes
  cases run : first fuel with
  | error failure =>
    refine ⟨fuel,?_⟩
    rw [run] at finishes ⊢
    exact error_known finishes
  | ok value =>
    obtain ⟨enough,ends⟩ := later fuel value run
    refine ⟨max fuel enough,?_⟩
    have same := extends_same (firstMore (Nat.le_max_left fuel enough)) finishes
    have sameNext := extends_same (nextMore value (Nat.le_max_right fuel enough)) ends
    rw [same,run]
    change next value (max fuel enough) ≠ _
    rw [sameNext]
    exact ends

end Rsleigh.Fallible
