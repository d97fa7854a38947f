import Mathlib.Data.List.Basic

namespace Trace

-- Machines that take a step at a time and show some events with each step.
variable {Config Other Event : Type}

inductive Runs (step : Config → Option (List Event × Config)) : Config → List Event → Config → Prop where
  | refl : Runs step c [] c
  | cons (next : step c = some (es,c')) (rest : Runs step c' es' c'') : Runs step c (es ++ es') c''

-- So many steps, computed.
def iterate (step : Config → Option (List Event × Config)) : Nat → Config → Option (List Event × Config)
  | 0,c => some ([],c)
  | n + 1,c =>
    match step c with
    | none => none
    | some (es,c') => (iterate step n c').map fun result => (es ++ result.1,result.2)

theorem Runs.of_iterate {step : Config → Option (List Event × Config)} (computed : iterate step n c = some (es,c')) :
    Runs step c es c' := by
  induction n generalizing c es with
  | zero =>
    obtain ⟨rfl,rfl⟩ := Prod.mk.inj (Option.some.inj computed)
    exact .refl
  | succ n ih =>
    simp only [iterate] at computed
    split at computed
    · cases computed
    · rename_i fs d next
      obtain ⟨⟨gs,last⟩,rest,equal⟩ := Option.map_eq_some_iff.mp computed
      obtain ⟨rfl,rfl⟩ := Prod.mk.inj equal
      exact .cons next (ih rest)

theorem Runs.single {step : Config → Option (List Event × Config)} (next : step c = some (es,c')) :
    Runs step c es c' := by
  simpa using Runs.cons next .refl

theorem Runs.trans {step : Config → Option (List Event × Config)} (first : Runs step c es c')
    (second : Runs step c' es' c'') : Runs step c (es ++ es') c'' := by
  induction first with
  | refl => exact second
  | cons next _ ih => simpa [List.append_assoc] using Runs.cons next (ih second)

theorem Runs.invariant {step : Config → Option (List Event × Config)} {Holds : Config → Prop}
    (keeps : ∀ c es c', Holds c → step c = some (es,c') → Holds c') (runs : Runs step c es c') (holds : Holds c) :
    Holds c' := by
  induction runs with
  | refl => exact holds
  | cons next _ ih => exact ih (keeps _ _ _ holds next)

theorem Runs.agree {step : Config → Option (List Event × Config)} (first : Runs step c es c')
    (second : Runs step c fs c'') : es <+: fs ∨ fs <+: es := by
  induction first generalizing fs with
  | refl => exact .inl List.nil_prefix
  | cons next _ ih =>
    cases second with
    | refl => exact .inr List.nil_prefix
    | cons next' rest' =>
      obtain ⟨rfl,rfl⟩ := Prod.mk.inj (Option.some.inj (next.symm.trans next'))
      rw [List.prefix_append_right_inj,List.prefix_append_right_inj]
      exact ih rest'

theorem simulate {step : Config → Option (List Event × Config)} {step' : Other → Option (List Event × Other)}
    {Related : Config → Other → Prop}
    (matched : ∀ c d es c', Related c d → step c = some (es,c') → ∃ d', Runs step' d es d' ∧ Related c' d')
    (related : Related c d) (runs : Runs step c es c') : ∃ d', Runs step' d es d' ∧ Related c' d' := by
  induction runs generalizing d with
  | refl => exact ⟨d,.refl,related⟩
  | cons next _ ih =>
    obtain ⟨d₁,first,related₁⟩ := matched _ d _ _ related next
    obtain ⟨d₂,second,related₂⟩ := ih related₁
    exact ⟨d₂,first.trans second,related₂⟩

-- A stuttering simulation: a step of the first machine is matched by one step of
-- the second, or shows nothing and brings the first machine closer to one that is.
structure Stutters (step : Config → Option (List Event × Config)) (step' : Other → Option (List Event × Other))
    (Related : Config → Other → Prop) (distance : Config → Nat) : Prop where
  matched : ∀ c d es c', Related c d → step c = some (es,c') →
    (es = [] ∧ Related c' d ∧ distance c' < distance c) ∨ ∃ d', step' d = some (es,d') ∧ Related c' d'
  stops : ∀ c d, Related c d → step c = none → step' d = none

section Stutters

variable {step : Config → Option (List Event × Config)} {step' : Other → Option (List Event × Other)}
  {Related : Config → Other → Prop} {distance : Config → Nat}

theorem Stutters.forward (stutters : Stutters step step' Related distance) (related : Related c d)
    (runs : Runs step c es c') : ∃ d', Runs step' d es d' ∧ Related c' d' := by
  refine simulate (fun c d es c' related next => ?_) related runs
  rcases stutters.matched c d es c' related next with ⟨rfl,still,-⟩ | ⟨d',next',related'⟩
  · exact ⟨d,.refl,still⟩
  · exact ⟨d',.single next',related'⟩

theorem Stutters.settle (stutters : Stutters step step' Related distance) (related : Related c d) :
    ∃ c', Runs step c [] c' ∧ Related c' d ∧
      ((step c' = none ∧ step' d = none) ∨
        ∃ es c'' d', step c' = some (es,c'') ∧ step' d = some (es,d') ∧ Related c'' d') := by
  induction bound : distance c using Nat.strongRecOn generalizing c with
  | ind n ih =>
    cases next : step c with
    | none => exact ⟨c,.refl,related,.inl ⟨next,stutters.stops c d related next⟩⟩
    | some result =>
      obtain ⟨es,c₁⟩ := result
      rcases stutters.matched c d es c₁ related next with ⟨rfl,still,closer⟩ | ⟨d',next',related'⟩
      · obtain ⟨c',runs,related',outcome⟩ := ih (distance c₁) (bound ▸ closer) still rfl
        exact ⟨c',.cons next runs,related',outcome⟩
      · exact ⟨c,.refl,related,.inr ⟨es,c₁,d',next,next',related'⟩⟩

theorem Stutters.backward (stutters : Stutters step step' Related distance) (related : Related c d)
    (runs : Runs step' d es d') : ∃ c', Runs step c es c' ∧ Related c' d' := by
  induction runs generalizing c with
  | refl => exact ⟨c,.refl,related⟩
  | cons next _ ih =>
    obtain ⟨c₁,silent,_,outcome⟩ := stutters.settle related
    rcases outcome with ⟨-,stopped⟩ | ⟨es₁,c₂,d₁,here,there,related₁⟩
    · rw [stopped] at next
      cases next
    · obtain ⟨rfl,rfl⟩ := Prod.mk.inj (Option.some.inj (there.symm.trans next))
      obtain ⟨c₃,rest,related₂⟩ := ih related₁
      exact ⟨c₃,by simpa using silent.trans (.cons here rest),related₂⟩

theorem Stutters.rests_backward (stutters : Stutters step step' Related distance) (related : Related c d)
    (runs : Runs step' d es d') (rests : step' d' = none) :
    ∃ c', Runs step c es c' ∧ step c' = none ∧ Related c' d' := by
  obtain ⟨c₁,runs',related₁⟩ := stutters.backward related runs
  obtain ⟨c₂,silent,related₂,outcome⟩ := stutters.settle related₁
  rcases outcome with ⟨stopped,-⟩ | ⟨_,_,_,-,there,-⟩
  · exact ⟨c₂,by simpa using runs'.trans silent,stopped,related₂⟩
  · rw [rests] at there
    cases there

end Stutters

end Trace
