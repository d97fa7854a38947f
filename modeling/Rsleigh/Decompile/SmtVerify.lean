import Rsleigh.Decompile.Leaves
import Rsleigh.Lib.BitTerms

namespace Rsleigh.Decompile.SmtVerify

open Pcode BitTerms

-- smt_verify.rs. A fresh constant is named by the variable that it stands for, so that it is the same at every use.
abbrev BV := Term VarId

inductive SmtVerdict where
  | tautology
  | contradiction
  | satisfiable
  | unsupported
  | unknown
  deriving DecidableEq

inductive LowerPolicy where
  | symbolic
  | rejectUnsupported
  deriving DecidableEq

def bitsFor (size : UInt32) : Nat :=
  if size = 0 then 64 else if 8 ≤ size then 64 else (size * 8).toNat

-- `BV::from_u64`.
def fromU64 (value : UInt64) (bits : Nat) : BV := .literal value.toNat bits

def align (a b : BV) : BV × BV :=
  if a.width = b.width then (a, b)
  else if a.width < b.width then (.zeroExt (b.width - a.width) a, b)
  else (a, .zeroExt (a.width - b.width) b)

def applyBinary (kind : BinOpKind) (a b : BV) : Option BV :=
  match kind with
  | .add => some (.binary .add a b)
  | .sub => some (.binary .sub a b)
  | .mult => some (.binary .mul a b)
  | .and => some (.binary .and a b)
  | .or => some (.binary .or a b)
  | .xor => some (.binary .xor a b)
  | .lsl => some (.binary .shl a b)
  | .lsr => some (.binary .lshr a b)
  | .asr => some (.binary .ashr a b)
  | .div => some (.binary .udiv a b)
  | .sdiv => some (.binary .sdiv a b)
  | .rem => some (.binary .urem a b)
  | .srem => some (.binary .srem a b)
  | .eq => some (.compare .eq a b)
  | .notEq => some (.compare .ne a b)
  | .less => some (.compare .ult a b)
  | .lessEq => some (.compare .ule a b)
  | .sless => some (.compare .slt a b)
  | .slessEq => some (.compare .sle a b)
  | _ => none

def buildBinary (kind : BinOpKind) (a b : BV) : Option BV := applyBinary kind (align a b).1 (align a b).2

def buildUnary (kind : UnaryOpKind) (bits : Nat) (a : BV) : Option BV :=
  match kind with
  | .neg => some (.neg a)
  | .not => some (.not a)
  | .boolNot => some (.compare .eq a (fromU64 0 a.width))
  | .zext => some (.zeroExt (bits - a.width) a)
  | .sext => some (.signExt (bits - a.width) a)
  | .trunc => some (.extract (bits - 1) 0 a)
  | _ => none

-- Without enough fuel there is no answer, and `some none` is the answer that nothing was built.
def build (policy : LowerPolicy) (vars : List VarDef) : Nat → VarId → Option (Option BV)
  | 0, _ => none
  | fuel + 1, v =>
    match vars[v]? with
    | none => some none
    | some vdef =>
      match vdef.expr with
      | .const c _ => some (some (fromU64 c (bitsFor vdef.size)))
      | .var arg => build policy vars fuel arg
      | .binOp kind l r =>
        match build policy vars fuel l with
        | none => none
        | some none => some none
        | some (some a) =>
          match build policy vars fuel r with
          | none => none
          | some none => some none
          | some (some b) => some (buildBinary kind a b)
      | .unaryOp kind arg =>
        match build policy vars fuel arg with
        | none => none
        | some none => some none
        | some (some a) => some (buildUnary kind (bitsFor vdef.size) a)
      | .load _ | .fieldAccess _ _ | .phi _ | .ternary _ _ _ | .userOp _ _ | .unknown =>
        match policy with
        | .symbolic => some (some (.leaf v (bitsFor vdef.size)))
        | .rejectUnsupported => some none

-- What the solver is asked of a condition.
inductive Query where
  | isZero (c : BV)
  | nonZero (c : BV)
  deriving DecidableEq

def Query.holds (leaf : VarId → Nat) : Query → Prop
  | .isZero c => c.eval leaf = 0
  | .nonZero c => c.eval leaf ≠ 0

-- Z3. What it says to be unsatisfiable holds for no values of the constants.
structure Solver where
  unsat : Query → Bool
  sound : ∀ query, unsat query = true → ∀ leaf, ¬ query.holds leaf

def verifyBranch (solver : Solver) (vars : List VarDef) (fuel : Nat) (cond : VarId) : Option SmtVerdict :=
  match build .symbolic vars fuel cond with
  | none => none
  | some none => some .unsupported
  | some (some c) =>
    if solver.unsat (.isZero c) then some .tautology
    else if solver.unsat (.nonZero c) then some .contradiction
    else some .satisfiable

end Rsleigh.Decompile.SmtVerify
