import Rsleigh.Decode.Constructor
import Mathlib.Data.Set.Function

namespace Rsleigh.Semantic.Variants

open Decode

-- semantic/inner/pattern: a check builds no sub-pattern. An or block has a branch: an empty block is an and.
inductive Check where
  | contextCheck (context : Nat) (op : CmpOp) (value : Expr)
  | tokenFieldCheck (field : Nat) (op : CmpOp) (value : Expr)
  | tableBuild (table : Nat)

mutual

inductive Verification (φ : Type) where
  | check (check : Check)
  | subPattern (pattern : List (Block φ))

inductive Block (φ : Type) where
  | and (phase : φ) (verifications : List (Verification φ))
  | or (phase : φ) (first : Verification φ) (rest : List (Verification φ))

end

abbrev Pattern (φ : Type) := List (Block φ)

-- The length of a block, once it is solved.
structure BlockPhase1 where
  len : PatternLen

-- The number of variants of the blocks before a block, and of the block.
structure BlockPhase2 where
  len : PatternLen
  variantsPrior : Nat
  variantsNumber : Nat

def Block.phase : Block φ → φ
  | .and phase _ => phase
  | .or phase _ _ => phase

def variantsNum (pattern : Pattern BlockPhase2) : Nat :=
  pattern.foldl (fun acc block => acc * block.phase.variantsNumber) 1

def Verification.variantsNumber : Verification BlockPhase2 → Nat
  | .check _ => 1
  | .subPattern pattern => variantsNum pattern

-- Counts the variants (`calculate_bits`): the counter starts anew after a block of variable length, and in the
-- sub-patterns of an and block (`new_and`).
mutual

def Verification.calculateBits (variantsPrior : Nat) : Verification BlockPhase1 → Verification BlockPhase2
  | .check check => .check check
  | .subPattern pattern => .subPattern (blocksBits (max variantsPrior 1) pattern)

def newAnd (variantsCounter : Nat) : List (Verification BlockPhase1) → List (Verification BlockPhase2) × Nat
  | [] => ([], variantsCounter)
  | verification :: rest =>
    let verification := verification.calculateBits variantsCounter
    let (rest, variantsNumber) := newAnd (variantsCounter * verification.variantsNumber) rest
    (verification :: rest, variantsNumber)

def newOr (variantsPrior : Nat) : List (Verification BlockPhase1) → List (Verification BlockPhase2)
  | [] => []
  | verification :: rest => verification.calculateBits variantsPrior :: newOr variantsPrior rest

def Block.buildPhase2 (variantsPrior : Nat) : Block BlockPhase1 → Block BlockPhase2
  | .and phase verifications =>
    let (verifications, variantsNumber) := newAnd 1 verifications
    .and ⟨phase.len, variantsPrior, variantsNumber⟩ verifications
  | .or phase first rest =>
    let first := first.calculateBits variantsPrior
    let rest := newOr variantsPrior rest
    .or ⟨phase.len, variantsPrior, ((first :: rest).map Verification.variantsNumber).sum⟩ first rest

def blocksBits (variantsBeforeCounter : Nat) : Pattern BlockPhase1 → Pattern BlockPhase2
  | [] => []
  | block :: rest =>
    let block := block.buildPhase2 variantsBeforeCounter
    let variantsBeforeCounter := variantsBeforeCounter * block.phase.variantsNumber
    block :: blocksBits (if block.phase.len.singleLen.isNone then 1 else variantsBeforeCounter) rest

end

-- None before it means that this is a root pattern.
def calculateBits (variantsBefore : Nat) (pattern : Pattern BlockPhase1) : Pattern BlockPhase2 :=
  blocksBits (max variantsBefore 1) pattern

-- The branches that are taken: one of each or block that is reached.
inductive Choice where
  | done
  | both (first rest : Choice)
  | branch (index : Nat) (inner : Choice)
  deriving DecidableEq

-- The branches a variant takes (`Block::constraint`); it is unreachable that there is none.
mutual

def Verification.select (variantId : Nat) : Verification BlockPhase2 → Option Choice
  | .check _ => some .done
  | .subPattern pattern => patternSelect variantId pattern

def allSelect (variantId : Nat) : List (Verification BlockPhase2) → Option Choice
  | [] => some .done
  | verification :: rest => do
    let first ← verification.select variantId
    let rest ← allSelect variantId rest
    return .both first rest

def branchSelect (variantId verificationId index : Nat) : List (Verification BlockPhase2) → Option Choice
  | [] => none
  | branch :: rest =>
    if verificationId < branch.variantsNumber then (branch.select variantId).map (.branch index)
    else branchSelect variantId (verificationId - branch.variantsNumber) (index + 1) rest

def Block.select (variantId : Nat) : Block BlockPhase2 → Option Choice
  | .and _ verifications => allSelect variantId verifications
  | .or phase first rest =>
    let verificationId := variantId / phase.variantsPrior % phase.variantsNumber
    if verificationId < first.variantsNumber then (first.select variantId).map (.branch 0)
    else branchSelect variantId (verificationId - first.variantsNumber) 1 rest

def patternSelect (variantId : Nat) : Pattern BlockPhase2 → Option Choice
  | [] => some .done
  | block :: rest => do
    let first ← block.select variantId
    let rest ← patternSelect variantId rest
    return .both first rest

end

-- All the ways to take one branch of each or block that is reached.
def combine (first rest : List Choice) : List Choice :=
  first.flatMap fun choice => rest.map (Choice.both choice)

mutual

def Verification.choices : Verification φ → List Choice
  | .check _ => [.done]
  | .subPattern pattern => patternChoices pattern

def allChoices : List (Verification φ) → List Choice
  | [] => [.done]
  | verification :: rest => combine verification.choices (allChoices rest)

def branchChoices (index : Nat) : List (Verification φ) → List Choice
  | [] => []
  | branch :: rest => branch.choices.map (Choice.branch index) ++ branchChoices (index + 1) rest

def Block.choices : Block φ → List Choice
  | .and _ verifications => allChoices verifications
  | .or _ first rest => first.choices.map (Choice.branch 0) ++ branchChoices 1 rest

def patternChoices : Pattern φ → List Choice
  | [] => [.done]
  | block :: rest => combine block.choices (patternChoices rest)

end

-- Each choice is taken by exactly one of the variants.
def EachOnce (pattern : Pattern BlockPhase1) : Prop :=
  Set.BijOn (fun variantId => patternSelect variantId (calculateBits 0 pattern))
    {variantId | variantId < variantsNum (calculateBits 0 pattern)}
    {choice | choice ∈ (patternChoices pattern).map some}

-- The number of ways, which the counting finds whatever is before it.
mutual

def Verification.variants : Verification φ → Nat
  | .check _ => 1
  | .subPattern pattern => patternVariants pattern

def allVariants : List (Verification φ) → Nat
  | [] => 1
  | verification :: rest => verification.variants * allVariants rest

def branchVariants : List (Verification φ) → Nat
  | [] => 0
  | branch :: rest => branch.variants + branchVariants rest

def Block.variants : Block φ → Nat
  | .and _ verifications => allVariants verifications
  | .or _ first rest => first.variants + branchVariants rest

def patternVariants : Pattern φ → Nat
  | [] => 1
  | block :: rest => block.variants * patternVariants rest

end

end Rsleigh.Semantic.Variants
