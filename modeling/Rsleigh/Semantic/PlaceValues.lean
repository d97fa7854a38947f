import Rsleigh.Semantic.Variants
import Rsleigh.Lib.Places

namespace Rsleigh.Semantic.Variants

open Decode Places

-- Each or block has a branch, so there is a way through every pattern.
mutual

theorem Verification.variants_pos : (verification : Verification φ) → 0 < verification.variants
  | .check _ => Nat.one_pos
  | .subPattern pattern => patternVariants_pos pattern

theorem allVariants_pos : (verifications : List (Verification φ)) → 0 < allVariants verifications
  | [] => Nat.one_pos
  | verification :: rest => Nat.mul_pos verification.variants_pos (allVariants_pos rest)

theorem Block.variants_pos : (block : Block φ) → 0 < block.variants
  | .and _ verifications => allVariants_pos verifications
  | .or _ first _ => Nat.add_pos_left first.variants_pos _

theorem patternVariants_pos : (pattern : Pattern φ) → 0 < patternVariants pattern
  | [] => Nat.one_pos
  | block :: rest => Nat.mul_pos block.variants_pos (patternVariants_pos rest)

end

-- The variants that are counted.
section Counting

theorem variantsNum_fold (pattern : Pattern BlockPhase2) :
    ∀ acc, pattern.foldl (fun acc block => acc * block.phase.variantsNumber) acc = acc * variantsNum pattern := by
  unfold variantsNum
  induction pattern with
  | nil =>
    intro acc
    exact (Nat.mul_one acc).symm
  | cons block rest ih =>
    intro acc
    rw [List.foldl_cons,List.foldl_cons,ih,ih (1 * _),Nat.one_mul,Nat.mul_assoc]

theorem variantsNum_cons (block : Block BlockPhase2) (rest : Pattern BlockPhase2) :
    variantsNum (block :: rest) = block.phase.variantsNumber * variantsNum rest := by
  calc
    variantsNum (block :: rest) = rest.foldl _ (1 * block.phase.variantsNumber) := rfl
    _ = block.phase.variantsNumber * variantsNum rest := by rw [variantsNum_fold,Nat.one_mul]

mutual

theorem Verification.number_variants : (verification : Verification BlockPhase1) → (prior : Nat) →
    (verification.calculateBits prior).variantsNumber = verification.variants
  | .check _, prior => rfl
  | .subPattern pattern, prior => by
    rw [Verification.calculateBits,Verification.variantsNumber,Verification.variants]
    exact pattern_variants pattern _

theorem newAnd_variants : (verifications : List (Verification BlockPhase1)) → (counter : Nat) →
    (newAnd counter verifications).2 = counter * allVariants verifications
  | [], counter => (Nat.mul_one counter).symm
  | verification :: rest, counter => by
    rw [newAnd,allVariants]
    dsimp only
    rw [newAnd_variants rest,verification.number_variants,Nat.mul_assoc]

theorem newOr_variants : (branches : List (Verification BlockPhase1)) → (prior : Nat) →
    ((newOr prior branches).map Verification.variantsNumber).sum = branchVariants branches
  | [], prior => rfl
  | branch :: rest, prior => by
    rw [newOr,List.map_cons,List.sum_cons,branch.number_variants,newOr_variants rest,branchVariants]

theorem Block.number_variants : (block : Block BlockPhase1) → (prior : Nat) →
    (block.buildPhase2 prior).phase.variantsNumber = block.variants
  | .and phase verifications, prior => by
    rw [Block.buildPhase2,Block.phase,Block.variants]
    dsimp only
    rw [newAnd_variants,Nat.one_mul]
  | .or phase first rest, prior => by
    rw [Block.buildPhase2,Block.phase,Block.variants]
    dsimp only
    rw [List.map_cons,List.sum_cons,first.number_variants,newOr_variants rest]

theorem pattern_variants : (pattern : Pattern BlockPhase1) → (counter : Nat) →
    variantsNum (blocksBits counter pattern) = patternVariants pattern
  | [], counter => rfl
  | block :: rest, counter => by
    rw [blocksBits,patternVariants]
    rw [variantsNum_cons,block.number_variants,pattern_variants rest]

end

end Counting

-- What the variants decode to, from the place that each or block is given.
def Block.next (place : Nat) (block : Block BlockPhase1) : Nat :=
  if block.phase.len.singleLen.isNone then 1 else place * block.variants

mutual

def Verification.decode (place variantId : Nat) : Verification BlockPhase1 → Option Choice
  | .check _ => some .done
  | .subPattern pattern => patternDecode place variantId pattern

def allDecode (place variantId : Nat) : List (Verification BlockPhase1) → Option Choice
  | [] => some .done
  | verification :: rest => do
    let first ← verification.decode place variantId
    let rest ← allDecode (place * verification.variants) variantId rest
    return .both first rest

def branchDecode (place variantId digit index : Nat) : List (Verification BlockPhase1) → Option Choice
  | [] => none
  | branch :: rest =>
    if digit < branch.variants then (branch.decode place variantId).map (.branch index)
    else branchDecode place variantId (digit - branch.variants) (index + 1) rest

def Block.decode (place variantId : Nat) : Block BlockPhase1 → Option Choice
  | .and _ verifications => allDecode 1 variantId verifications
  | .or _ first rest =>
    let digit := variantId / place % (first.variants + branchVariants rest)
    if digit < first.variants then (first.decode place variantId).map (.branch 0)
    else branchDecode place variantId (digit - first.variants) 1 rest

def patternDecode (place variantId : Nat) : Pattern BlockPhase1 → Option Choice
  | [] => some .done
  | block :: rest => do
    let first ← block.decode place variantId
    let rest ← patternDecode (block.next place) variantId rest
    return .both first rest

end

theorem Block.next_pos {place : Nat} (positive : 0 < place) (block : Block BlockPhase1) : 0 < block.next place := by
  unfold Block.next
  split
  · exact Nat.one_pos
  · exact Nat.mul_pos positive block.variants_pos

theorem buildPhase2_len (block : Block BlockPhase1) (prior : Nat) :
    (block.buildPhase2 prior).phase.len = block.phase.len := by
  cases block <;> rfl

mutual

theorem Verification.select_decode : (verification : Verification BlockPhase1) → {place : Nat} → 0 < place →
    (id : Nat) → (verification.calculateBits place).select id = verification.decode place id
  | .check _, place, positive, id => rfl
  | .subPattern pattern, place, positive, id => by
    rw [Verification.calculateBits,Verification.select,Verification.decode,Nat.max_eq_left positive]
    exact pattern_decode pattern positive id

theorem all_decode : (verifications : List (Verification BlockPhase1)) → {place : Nat} → 0 < place → (id : Nat) →
    allSelect id (newAnd place verifications).1 = allDecode place id verifications
  | [], place, positive, id => rfl
  | verification :: rest, place, positive, id => by
    rw [newAnd,allDecode]
    dsimp only
    rw [allSelect,verification.select_decode positive,verification.number_variants,
      all_decode rest (Nat.mul_pos positive verification.variants_pos)]

theorem branch_decode : (branches : List (Verification BlockPhase1)) → {place : Nat} → 0 < place →
    (id digit index : Nat) → branchSelect id digit index (newOr place branches) = branchDecode place id digit index branches
  | [], place, positive, id, digit, index => rfl
  | branch :: rest, place, positive, id, digit, index => by
    rw [newOr,branchSelect,branchDecode,branch.number_variants,branch.select_decode positive,
      branch_decode rest positive]

theorem Block.select_decode : (block : Block BlockPhase1) → {place : Nat} → 0 < place → (id : Nat) →
    (block.buildPhase2 place).select id = block.decode place id
  | .and phase verifications, place, positive, id => by
    rw [Block.buildPhase2,Block.decode]
    exact all_decode verifications Nat.one_pos id
  | .or phase first rest, place, positive, id => by
    rw [Block.buildPhase2,Block.decode]
    rw [Block.select,List.map_cons,List.sum_cons,newOr_variants]
    dsimp only
    rw [first.number_variants,first.select_decode positive,branch_decode rest positive]

theorem pattern_decode : (pattern : Pattern BlockPhase1) → {place : Nat} → 0 < place → (id : Nat) →
    patternSelect id (blocksBits place pattern) = patternDecode place id pattern
  | [], place, positive, id => rfl
  | block :: rest, place, positive, id => by
    rw [blocksBits,patternDecode]
    rw [buildPhase2_len,block.number_variants,patternSelect,block.select_decode positive]
    have later := pattern_decode rest (block.next_pos positive) id
    unfold Block.next at later
    rw [later,Block.next]

end

theorem combine_length (first rest : List Choice) : (combine first rest).length = first.length * rest.length := by
  unfold combine
  induction first with
  | nil => exact (Nat.zero_mul _).symm
  | cons choice first ih =>
    rw [List.flatMap_cons,List.length_append,List.length_map,ih,List.length_cons,Nat.succ_mul,Nat.add_comm]

theorem mem_combine {first rest : List Choice} {choice : Choice} :
    choice ∈ combine first rest ↔ ∃ x ∈ first, ∃ y ∈ rest, choice = .both x y := by
  unfold combine
  constructor
  · intro member
    obtain ⟨x,isFirst,member⟩ := List.mem_flatMap.mp member
    obtain ⟨y,isRest,rfl⟩ := List.mem_map.mp member
    exact ⟨x,isFirst,y,isRest,rfl⟩
  · intro found
    obtain ⟨x,isFirst,y,isRest,rfl⟩ := found
    exact List.mem_flatMap.mpr ⟨x,isFirst,List.mem_map.mpr ⟨y,isRest,rfl⟩⟩

mutual

theorem Verification.choices_length : (verification : Verification φ) →
    verification.choices.length = verification.variants
  | .check _ => rfl
  | .subPattern pattern => by
    rw [Verification.choices,Verification.variants]
    exact patternChoices_length pattern

theorem allChoices_length : (verifications : List (Verification φ)) →
    (allChoices verifications).length = allVariants verifications
  | [] => rfl
  | verification :: rest => by
    rw [allChoices,allVariants,combine_length,verification.choices_length,allChoices_length rest]

theorem branchChoices_length : (branches : List (Verification φ)) → (index : Nat) →
    (branchChoices index branches).length = branchVariants branches
  | [], index => rfl
  | branch :: rest, index => by
    rw [branchChoices,branchVariants,List.length_append,List.length_map,branch.choices_length,branchChoices_length rest]

theorem Block.choices_length : (block : Block φ) → block.choices.length = block.variants
  | .and _ verifications => by
    rw [Block.choices,Block.variants]
    exact allChoices_length verifications
  | .or _ first rest => by
    rw [Block.choices,Block.variants,List.length_append,List.length_map,first.choices_length,branchChoices_length rest]

theorem patternChoices_length : (pattern : Pattern φ) → (patternChoices pattern).length = patternVariants pattern
  | [] => rfl
  | block :: rest => by
    rw [patternChoices,patternVariants,combine_length,block.choices_length,patternChoices_length rest]

end

mutual

theorem Verification.decode_some : (verification : Verification BlockPhase1) → (place id : Nat) →
    ∃ choice ∈ verification.choices, verification.decode place id = some choice
  | .check _, place, id => ⟨.done,List.mem_singleton.mpr rfl,rfl⟩
  | .subPattern pattern, place, id => by
    rw [Verification.choices,Verification.decode]
    exact patternDecode_some pattern place id

theorem allDecode_some : (verifications : List (Verification BlockPhase1)) → (place id : Nat) →
    ∃ choice ∈ allChoices verifications, allDecode place id verifications = some choice
  | [], place, id => ⟨.done,List.mem_singleton.mpr rfl,rfl⟩
  | verification :: rest, place, id => by
    obtain ⟨first,isFirst,decodedFirst⟩ := verification.decode_some place id
    obtain ⟨later,isLater,decodedLater⟩ := allDecode_some rest (place * verification.variants) id
    refine ⟨.both first later,mem_combine.mpr ⟨first,isFirst,later,isLater,rfl⟩,?_⟩
    rw [allDecode,decodedFirst,decodedLater]
    rfl

theorem branchDecode_some : (branches : List (Verification BlockPhase1)) → (place id digit index : Nat) →
    digit < branchVariants branches →
    ∃ choice ∈ branchChoices index branches, branchDecode place id digit index branches = some choice
  | [], place, id, digit, index, less => absurd less (Nat.not_lt_zero _)
  | branch :: rest, place, id, digit, index, less => by
    rw [branchVariants] at less
    rw [branchChoices,branchDecode]
    by_cases here : digit < branch.variants
    · obtain ⟨inner,isInner,decoded⟩ := branch.decode_some place id
      refine ⟨.branch index inner,List.mem_append_left _ (List.mem_map.mpr ⟨inner,isInner,rfl⟩),?_⟩
      rw [if_pos here,decoded]
      rfl
    · obtain ⟨choice,isChoice,decoded⟩ :=
        branchDecode_some rest place id (digit - branch.variants) (index + 1) (by omega)
      rw [if_neg here]
      exact ⟨choice,List.mem_append_right _ isChoice,decoded⟩

theorem Block.decode_some : (block : Block BlockPhase1) → (place id : Nat) →
    ∃ choice ∈ block.choices, block.decode place id = some choice
  | .and _ verifications, place, id => by
    rw [Block.choices,Block.decode]
    exact allDecode_some verifications 1 id
  | .or _ first rest, place, id => by
    have less : id / place % (first.variants + branchVariants rest) < first.variants + branchVariants rest :=
      Nat.mod_lt _ (Nat.add_pos_left first.variants_pos _)
    rw [Block.choices,Block.decode]
    by_cases here : id / place % (first.variants + branchVariants rest) < first.variants
    · obtain ⟨inner,isInner,decoded⟩ := first.decode_some place id
      refine ⟨.branch 0 inner,List.mem_append_left _ (List.mem_map.mpr ⟨inner,isInner,rfl⟩),?_⟩
      rw [if_pos here,decoded]
      rfl
    · obtain ⟨choice,isChoice,decoded⟩ := branchDecode_some rest place id _ 1 (Nat.sub_lt_left_of_lt_add (by omega) less)
      rw [if_neg here]
      exact ⟨choice,List.mem_append_right _ isChoice,decoded⟩

theorem patternDecode_some : (pattern : Pattern BlockPhase1) → (place id : Nat) →
    ∃ choice ∈ patternChoices pattern, patternDecode place id pattern = some choice
  | [], place, id => ⟨.done,List.mem_singleton.mpr rfl,rfl⟩
  | block :: rest, place, id => by
    obtain ⟨first,isFirst,decodedFirst⟩ := block.decode_some place id
    obtain ⟨later,isLater,decodedLater⟩ := patternDecode_some rest (block.next place) id
    refine ⟨.both first later,mem_combine.mpr ⟨first,isFirst,later,isLater,rfl⟩,?_⟩
    rw [patternDecode,decodedFirst,decodedLater]
    rfl

end

end Rsleigh.Semantic.Variants
