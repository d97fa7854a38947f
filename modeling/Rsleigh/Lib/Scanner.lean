import Mathlib

namespace Rsleigh.Scanner

variable {α β ι : Type}

-- A loop over a list that looks at what is left, may fail, and says how many more elements it is done with.
def scan (step : Nat → List α → Option (Option β × Nat)) : Nat → Nat → List α → Option (List β)
  | _, _, [] => some []
  | skip + 1, i, _ :: rest => scan step skip (i + 1) rest
  | 0, i, x :: rest => do
    let (found, more) ← step i (x :: rest)
    let later ← scan step more (i + 1) rest
    return found.toList ++ later

-- The places such a loop looks at, where what is left alone says how far it goes on.
def visited (width : List α → Nat) : Nat → Nat → List α → List (Nat × List α)
  | _, _, [] => []
  | skip + 1, i, _ :: rest => visited width skip (i + 1) rest
  | 0, i, x :: rest => (i, x :: rest) :: visited width (width (x :: rest)) (i + 1) rest

-- Where each instruction of a program starts.
def placed (encode : ι → List α) : Nat → List ι → List (Nat × ι)
  | _, [] => []
  | i, instr :: program => (i, instr) :: placed encode (i + (encode instr).length) program

def gather (result : Nat → ι → Option (List β)) : List (Nat × ι) → Option (List β)
  | [] => some []
  | (i, instr) :: rest => do
    let found ← result i instr
    let later ← gather result rest
    return found ++ later

section Runs

variable {step : Nat → List α → Option (Option β × Nat)}

theorem scan_skip (skipped rest : List α) (i : Nat) :
    scan step skipped.length i (skipped ++ rest) = scan step 0 (i + skipped.length) rest := by
  induction skipped generalizing i with
  | nil => rfl
  | cons x skipped ih =>
    rw [List.length_cons,List.cons_append,scan,ih]
    congr 1
    omega

-- One step that takes a whole instruction.
theorem scan_instruction (x : α) (tail rest : List α) (i : Nat) (found : Option (Option β))
    (stepped : step i (x :: (tail ++ rest)) = found.map fun found => (found,tail.length)) :
    scan step 0 i (x :: tail ++ rest) = found.bind fun found =>
      (scan step 0 (i + (x :: tail).length) rest).map (found.toList ++ ·) := by
  rw [List.cons_append,scan,stepped]
  cases found with
  | none => rfl
  | some found =>
    have place : i + 1 + tail.length = i + (x :: tail).length := by
      rw [List.length_cons]
      omega
    simp only [Option.map_some,Option.bind_eq_bind,Option.bind_some,scan_skip,place]
    cases scan step 0 (i + (x :: tail).length) rest <;> rfl

-- A loop that goes over each instruction goes over the program.
theorem scan_program {encode : ι → List α} {result : Nat → ι → Option (List β)}
    (each : ∀ i instr rest, scan step 0 i (encode instr ++ rest) = (result i instr).bind fun found =>
      (scan step 0 (i + (encode instr).length) rest).map (found ++ ·)) (program : List ι) (rest : List α) (i : Nat) :
    scan step 0 i (program.flatMap encode ++ rest) = (gather result (placed encode i program)).bind fun found =>
      (scan step 0 (i + (program.flatMap encode).length) rest).map (found ++ ·) := by
  induction program generalizing i with
  | nil =>
    simp only [List.flatMap_nil,List.nil_append,placed,gather,Option.bind_some,List.length_nil,Nat.add_zero,
      Option.map_id']
  | cons instr program ih =>
    have place : i + (encode instr).length + (program.flatMap encode).length =
        i + ((instr :: program).flatMap encode).length := by
      rw [List.flatMap_cons,List.length_append]
      omega
    rw [List.flatMap_cons,List.append_assoc,each,ih,placed,gather,← List.flatMap_cons,place]
    cases result i instr with
    | none => rfl
    | some found =>
      cases gather result (placed encode (i + (encode instr).length) program) with
      | none => rfl
      | some later =>
        simp only [Option.bind_some,Option.bind_eq_bind,Option.pure_def]
        cases scan step 0 (i + ((instr :: program).flatMap encode).length) rest with
        | none => rfl
        | some others => simp

theorem gather_some {result : Nat → ι → Option (List β)} (found : Nat → ι → List β) {places : List (Nat × ι)}
    (each : ∀ place ∈ places, result place.1 place.2 = some (found place.1 place.2)) :
    gather result places = some (places.flatMap fun place => found place.1 place.2) := by
  induction places with
  | nil => rfl
  | cons place rest ih =>
    obtain ⟨i,instr⟩ := place
    rw [gather,each (i,instr) List.mem_cons_self,
      ih fun place member => each place (List.mem_cons_of_mem _ member)]
    rfl

theorem gather_none {result : Nat → ι → Option (List β)} {places : List (Nat × ι)} {place : Nat × ι}
    (member : place ∈ places) (fails : result place.1 place.2 = none) : gather result places = none := by
  induction places with
  | nil => cases member
  | cons head rest ih =>
    obtain ⟨i,instr⟩ := head
    rw [gather]
    rcases List.mem_cons.mp member with rfl | later
    · rw [fails]
      rfl
    · rw [ih later]
      cases result i instr <;> rfl

-- The loop fails where it fails at a place that it looks at.
theorem scan_isSome {width : List α → Nat}
    (steps : ∀ i x rest found more, step i (x :: rest) = some (found,more) → more = width (x :: rest))
    (hws : List α) (skip i : Nat) : (scan step skip i hws).isSome = true ↔
      ∀ place ∈ visited width skip i hws, (step place.1 place.2).isSome = true := by
  induction hws generalizing skip i with
  | nil => simp [scan,visited]
  | cons x rest ih =>
    cases skip with
    | succ skip => exact ih skip (i + 1)
    | zero =>
      rw [scan,visited,List.forall_mem_cons,← ih (width (x :: rest)) (i + 1)]
      cases stepped : step i (x :: rest) with
      | none => simp
      | some result =>
        obtain ⟨found,more⟩ := result
        rw [steps i x rest found more stepped]
        simp only [Option.bind_eq_bind,Option.bind_some,Option.isSome_some,true_and]
        cases scan step (width (x :: rest)) (i + 1) rest <;> simp

-- A loop whose steps do not fail does not fail.
theorem scan_total {bound : Nat} (each : ∀ i hws, i < bound → (step i hws).isSome = true) (hws : List α) :
    ∀ skip i, i + hws.length ≤ bound → (scan step skip i hws).isSome = true := by
  induction hws with
  | nil =>
    intro skip i _
    simp [scan]
  | cons x rest ih =>
    intro skip i inside
    rw [List.length_cons] at inside
    cases skip with
    | succ skip => exact ih skip (i + 1) (by omega)
    | zero =>
      obtain ⟨⟨found,more⟩,stepped⟩ := Option.isSome_iff_exists.mp (each i (x :: rest) (by omega))
      obtain ⟨later,isLater⟩ := Option.isSome_iff_exists.mp (ih more (i + 1) (by omega))
      simp [scan,stepped,isLater]

theorem visited_bound {width : List α → Nat} {hws : List α} {skip i : Nat} :
    ∀ place ∈ visited width skip i hws, i ≤ place.1 ∧ place.1 + place.2.length = i + hws.length := by
  induction hws generalizing skip i with
  | nil => simp [visited]
  | cons x rest ih =>
    cases skip with
    | succ skip =>
      intro place member
      have bound := ih place member
      simp only [List.length_cons]
      omega
    | zero =>
      intro place member
      rcases List.mem_cons.mp member with rfl | later
      · exact ⟨Nat.le_refl _,rfl⟩
      · have bound := ih place later
        simp only [List.length_cons]
        omega

end Runs

end Rsleigh.Scanner
