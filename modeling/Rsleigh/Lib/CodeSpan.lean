import Mathlib

namespace Rsleigh.CodeSpan

variable {α : Type} [DecidableEq α] {tick : α}

-- The lengths of the runs of a delimiter.
def runs (tick : α) (content : List α) : List Nat :=
  (content.splitOnP fun c => c ≠ tick).map List.length

-- Where the first run of exactly `fence` delimiters starts; `run` of them have just been read.
def closing (tick : α) (fence : Nat) : Nat → Nat → List α → Option Nat
  | run, position, [] => if run = fence then some (position - run) else none
  | run, position, c :: rest =>
    if c = tick then closing tick fence (run + 1) (position + 1) rest
    else if run = fence then some (position - run)
    else closing tick fence 0 (position + 1) rest

theorem runs_cons {c : α} {rest : List α} : runs tick (c :: rest) =
    if c = tick then (runs tick rest).modifyHead (· + 1) else 0 :: runs tick rest := by
  unfold runs
  rw [List.splitOnP_cons_eq_if_modifyHead]
  by_cases isTick : c = tick
  · rw [if_neg (by simp [isTick]),if_pos isTick]
    cases (rest.splitOnP fun c => c ≠ tick) with
    | nil => rfl
    | cons first later => simp [List.modifyHead]
  · rw [if_pos (by simp [isTick]),if_neg isTick]
    rfl

theorem runs_ne_nil (tick : α) (content : List α) : runs tick content ≠ [] := by
  simp [runs]

theorem runs_pad {pad : α} (other : pad ≠ tick) {content : List α} :
    runs tick (pad :: (content ++ [pad])) = 0 :: runs tick content ++ [0] := by
  unfold runs
  rw [List.splitOnP_cons_eq_if_modifyHead,if_pos (by simp [other]),List.splitOnP_append_cons _ _ (by simp [other])]
  simp

theorem closing_fence {fence : Nat} {after : List α} (follows : after.head? ≠ some tick) :
    ∀ missing run position, run + missing = fence →
      closing tick fence run position (List.replicate missing tick ++ after) = some (position - run) := by
  intro missing
  induction missing with
  | zero =>
    intro run position whole
    cases after with
    | nil => simp [closing,← whole]
    | cons c rest =>
      have notTick : c ≠ tick := fun same => follows (by rw [same]; rfl)
      simp [closing,notTick,← whole]
  | succ missing ih =>
    intro run position whole
    rw [List.replicate_succ,List.cons_append,closing,if_pos rfl,ih (run + 1) (position + 1) (by omega)]
    simp

-- Content whose runs are all shorter than the fence is closed by its own fence.
theorem closing_content (fence : Nat) {content after : List α} (follows : after.head? ≠ some tick) :
    ∀ run position, run ≤ position → (content = [] → run = 0) → content.getLast? ≠ some tick →
      (∀ length ∈ (runs tick content).modifyHead (· + run), length < fence) →
      closing tick fence run position (content ++ (List.replicate fence tick ++ after)) =
        some (position + content.length) := by
  induction content with
  | nil =>
    intro run position _ fresh _ _
    rw [fresh rfl,List.nil_append,closing_fence follows fence 0 position (by omega)]
    rfl
  | cons c rest ih =>
    intro run position below _ ends shorter
    obtain ⟨first,later,isRuns⟩ := List.exists_cons_of_ne_nil (runs_ne_nil tick rest)
    rw [runs_cons,isRuns] at shorter
    have restEnds : rest ≠ [] → rest.getLast? ≠ some tick := by
      intro nonempty
      rw [List.getLast?_cons_of_ne_nil nonempty] at ends
      exact ends
    by_cases isTick : c = tick
    · have nonempty : rest ≠ [] := by
        intro isEmpty
        rw [isEmpty,isTick] at ends
        exact ends rfl
      rw [if_pos isTick] at shorter
      rw [List.cons_append,closing,if_pos isTick,ih (run + 1) (position + 1) (by omega)
        (fun isEmpty => absurd isEmpty nonempty) (restEnds nonempty) ?_]
      · simp only [List.length_cons]
        congr 1
        omega
      · rw [isRuns]
        intro length member
        refine shorter length ?_
        simp only [List.modifyHead,List.mem_cons] at member ⊢
        rcases member with rfl | member
        · exact Or.inl (by omega)
        · exact Or.inr member
    · rw [if_neg isTick] at shorter
      have short : run < fence := shorter run (by simp [List.modifyHead])
      rw [List.cons_append,closing,if_neg isTick,if_neg (by omega),
        ih 0 (position + 1) (by omega) (fun _ => rfl) ?_ ?_]
      · simp only [List.length_cons]
        congr 1
        omega
      · by_cases isEmpty : rest = []
        · rw [isEmpty]
          simp
        · exact restEnds isEmpty
      · rw [isRuns]
        intro length member
        refine shorter length ?_
        simp only [List.modifyHead,List.mem_cons,Nat.add_zero] at member ⊢
        exact Or.inr member

end Rsleigh.CodeSpan
