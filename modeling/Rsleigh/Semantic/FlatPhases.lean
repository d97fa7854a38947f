import Rsleigh.Semantic.FlatMasks
import Rsleigh.Semantic.FlatParser

namespace Rsleigh.Semantic.Variants

open Decode

-- The counting of variants changes neither the choices nor the equalities of a pattern.
mutual

theorem Verification.choices_phase1 : (verification : Verification BlockCode) →
    verification.phase1.choices = verification.choices
  | .check _ => rfl
  | .subPattern pattern => patternChoices_phase1 pattern

theorem allChoices_phase1 : (verifications : List (Verification BlockCode)) →
    allChoices (allPhase1 verifications) = allChoices verifications
  | [] => rfl
  | verification :: rest => by
    simp only [allPhase1,allChoices,verification.choices_phase1,allChoices_phase1 rest]

theorem branchChoices_phase1 : (branches : List (Verification BlockCode)) → (index : Nat) →
    branchChoices index (allPhase1 branches) = branchChoices index branches
  | [], _ => rfl
  | branch :: rest, index => by
    simp only [allPhase1,branchChoices,branch.choices_phase1,branchChoices_phase1 rest]

theorem Block.choices_phase1 : (block : Block BlockCode) → block.phase1.choices = block.choices
  | .and _ verifications => allChoices_phase1 verifications
  | .or _ first rest => by
    simp only [Block.phase1,Block.choices,first.choices_phase1,branchChoices_phase1 rest]

theorem patternChoices_phase1 : (pattern : Pattern BlockCode) →
    patternChoices (patternPhase1 pattern) = patternChoices pattern
  | [] => rfl
  | block :: rest => by
    simp only [patternPhase1,patternChoices,block.choices_phase1,patternChoices_phase1 rest]

end

theorem Block.phase2_len (variantsPrior : Nat) (block : Block BlockCode) :
    (block.phase1.buildPhase2 variantsPrior).phase.len = block.phase.len := by
  cases block <;> rfl

mutual

theorem Verification.equalities_phase2 : (verification : Verification BlockCode) → (variantsPrior offset : Nat) →
    (choice : Choice) → (verification.phase1.calculateBits variantsPrior).equalities BlockPhase2.len offset choice =
      verification.equalities BlockCode.len offset choice
  | .check _, _, _, _ => rfl
  | .subPattern pattern, variantsPrior, offset, choice => patternEqualities_phase2 pattern _ offset choice

theorem allEqualities_phase2 : (verifications : List (Verification BlockCode)) → (counter offset : Nat) →
    (choice : Choice) → allEqualities BlockPhase2.len offset choice (newAnd counter (allPhase1 verifications)).1 =
      allEqualities BlockCode.len offset choice verifications
  | [], _, _, _ => rfl
  | verification :: rest, counter, offset, choice => by
    cases choice with
    | done => rfl
    | branch index inner => rfl
    | both first later =>
      simp only [allPhase1,newAnd,allEqualities,verification.equalities_phase2,allEqualities_phase2 rest]

theorem branchEqualities_phase2 : (branches : List (Verification BlockCode)) → (variantsPrior offset index : Nat) →
    (inner : Choice) →
    branchEqualities BlockPhase2.len offset index inner (newOr variantsPrior (allPhase1 branches)) =
      branchEqualities BlockCode.len offset index inner branches
  | [], _, _, _, _ => rfl
  | branch :: rest, variantsPrior, offset, index, inner => by
    cases index with
    | zero => exact branch.equalities_phase2 variantsPrior offset inner
    | succ index => exact branchEqualities_phase2 rest variantsPrior offset index inner

theorem Block.equalities_phase2 : (block : Block BlockCode) → (variantsPrior offset : Nat) → (choice : Choice) →
    (block.phase1.buildPhase2 variantsPrior).equalities BlockPhase2.len offset choice =
      block.equalities BlockCode.len offset choice
  | .and _ verifications, _, offset, choice => allEqualities_phase2 verifications 1 offset choice
  | .or _ first rest, variantsPrior, offset, choice => by
    cases choice with
    | done => rfl
    | both first later => rfl
    | branch index inner =>
      cases index with
      | zero => exact first.equalities_phase2 variantsPrior offset inner
      | succ index => exact branchEqualities_phase2 rest variantsPrior offset index inner

theorem patternEqualities_phase2 : (pattern : Pattern BlockCode) → (variantsPrior offset : Nat) → (choice : Choice) →
    patternEqualities BlockPhase2.len offset choice (blocksBits variantsPrior (patternPhase1 pattern)) =
      patternEqualities BlockCode.len offset choice pattern
  | [], _, _, _ => rfl
  | block :: rest, variantsPrior, offset, choice => by
    cases choice with
    | done => rfl
    | branch index inner => rfl
    | both first later =>
      simp only [patternPhase1,blocksBits,patternEqualities,block.equalities_phase2,block.phase2_len,
        patternEqualities_phase2 rest]

end

theorem allRoot_phase2 (verifications : List (Verification BlockCode)) :
    ∀ flat counter offset choice, allRoot BlockPhase2.len flat offset choice (newAnd counter (allPhase1 verifications)).1 =
      allRoot BlockCode.len flat offset choice verifications := by
  induction verifications with
  | nil => exact fun _ _ _ _ => rfl
  | cons verification rest ih =>
    intro flat counter offset choice
    cases choice with
    | done => rfl
    | branch index inner => rfl
    | both first later =>
      cases verification with
      | check check =>
        simp only [allPhase1,newAnd,allRoot,Verification.phase1,Verification.calculateBits,ih]
      | subPattern pattern =>
        simp only [allPhase1,newAnd,allRoot,Verification.phase1,Verification.calculateBits,ih,
          patternEqualities_phase2]

theorem Block.root_phase2 (flat : Bool) (variantsPrior offset : Nat) (choice : Choice) (block : Block BlockCode) :
    (block.phase1.buildPhase2 variantsPrior).root BlockPhase2.len flat offset choice =
      block.root BlockCode.len flat offset choice := by
  cases block with
  | and code verifications => exact allRoot_phase2 verifications flat 1 offset choice
  | or code first rest =>
    exact congrArg (List.map (false, ·)) ((Block.or code first rest).equalities_phase2 variantsPrior offset choice)

theorem rootEqualities_phase2 (pattern : Pattern BlockCode) :
    ∀ flat variantsPrior offset choice,
      rootEqualities BlockPhase2.len flat offset choice (blocksBits variantsPrior (patternPhase1 pattern)) =
        rootEqualities BlockCode.len flat offset choice pattern := by
  induction pattern with
  | nil => exact fun _ _ _ _ => rfl
  | cons block rest ih =>
    intro flat variantsPrior offset choice
    cases choice with
    | done => rfl
    | branch index inner => rfl
    | both first later =>
      simp only [patternPhase1,blocksBits,rootEqualities,block.root_phase2,block.phase2_len,ih]

end Rsleigh.Semantic.Variants
