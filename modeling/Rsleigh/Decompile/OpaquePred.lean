import Rsleigh.Decompile.Leaves

namespace Rsleigh.Decompile.OpaquePred

open Pcode

-- opaque_pred.rs.
def samples : Nat := 256

def maxFreeVars : Nat := 8

def maxDepth : Nat := 32

inductive BranchClass where
  | alwaysTaken
  | neverTaken
  deriving DecidableEq

-- The variables that were seen, and the free ones among them. Nothing is looked at below the depth.
def walk (vars : List VarDef) : Nat → VarId → List VarId × List VarId → List VarId × List VarId
  | 0, _, found => found
  | depth + 1, v, (seen, out) =>
    if v ∈ seen then (seen, out)
    else
      match vars[v]? with
      | none => (v :: seen, out ++ [v])
      | some vdef =>
        match vdef.expr with
        | .const _ _ => (v :: seen, out)
        | .var arg | .unaryOp _ arg => walk vars depth arg (v :: seen, out)
        | .binOp _ left right => walk vars depth right (walk vars depth left (v :: seen, out))
        | .load _ | .fieldAccess _ _ | .phi _ | .ternary _ _ _ | .userOp _ _ | .unknown => (v :: seen, out ++ [v])

def collectFreeVars (root : VarId) (vars : List VarDef) : List VarId := (walk vars (maxDepth + 1) root ([], [])).2

def sizeMask (size : UInt32) : UInt64 :=
  if size = 0 then 0xffffffffffffffff
  else if 8 ≤ size then 0xffffffffffffffff
  else (1 <<< (size * 8).toUInt64) - 1

def signBit (size : UInt32) : UInt64 :=
  let bits := if 8 ≤ size then 64 else size * 8
  if bits = 0 then 0 else 1 <<< (bits - 1).toUInt64

def sext (size : UInt32) (v : UInt64) : Int64 :=
  if signBit size ≠ 0 ∧ v &&& signBit size ≠ 0 then (v ||| ~~~sizeMask size).toInt64 else v.toInt64

def applyBinop (kind : BinOpKind) (left right : UInt64) (inSize : UInt32) : Option UInt64 :=
  let l := left &&& sizeMask inSize
  let r := right &&& sizeMask inSize
  match kind with
  | .add => some (l + r)
  | .sub => some (l - r)
  | .mult => some (l * r)
  | .div => if r = 0 then none else some (l / r)
  | .sdiv => if r = 0 then none else some (sext inSize l / sext inSize r).toUInt64
  | .rem => if r = 0 then none else some (l % r)
  | .srem => if r = 0 then none else some (sext inSize l % sext inSize r).toUInt64
  | .and => some (l &&& r)
  | .or => some (l ||| r)
  | .xor => some (l ^^^ r)
  | .lsl => some (l <<< (r &&& 63))
  | .lsr => some (l >>> (r &&& 63))
  | .asr => some (.ofBitVec ((sext inSize l).toBitVec.sshiftRight (r &&& 63).toNat))
  | .eq => some (l == r).toUInt64
  | .notEq => some (l != r).toUInt64
  | .less => some (decide (l < r)).toUInt64
  | .lessEq => some (decide (l ≤ r)).toUInt64
  | .sless => some (decide (sext inSize l < sext inSize r)).toUInt64
  | .slessEq => some (decide (sext inSize l ≤ sext inSize r)).toUInt64
  | .boolAnd => some ((l &&& 1) &&& (r &&& 1))
  | .boolOr => some ((l &&& 1) ||| (r &&& 1))
  | .boolXor => some ((l &&& 1) ^^^ (r &&& 1))
  | .carry | .scarry | .sborrow | .floatAdd | .floatSub | .floatMult | .floatDiv | .floatEq | .floatNotEq | .floatLess
  | .floatLessEq => none

def applyUnop (kind : UnaryOpKind) (v : UInt64) (inSize outSize : UInt32) : Option UInt64 :=
  match kind with
  | .neg => some (-v)
  | .not => some (~~~v)
  | .boolNot => some ((v &&& 1) ^^^ 1)
  | .zext => some (v &&& sizeMask inSize)
  | .sext =>
    if signBit inSize ≠ 0 ∧ v &&& signBit inSize ≠ 0 then some (v ||| ~~~sizeMask inSize) else some (v &&& sizeMask inSize)
  | .trunc => some (v &&& sizeMask outSize)
  | .popcount => some (.ofBitVec v.toBitVec.cpop)
  | .lzcount => some (.ofBitVec v.toBitVec.clz)
  | .floatNeg | .floatAbs | .floatSqrt | .floatNan | .int2Float | .float2Float | .floatCeil | .floatFloor | .floatRound =>
    none

def sizeOr (vars : List VarDef) (id : VarId) (missing : UInt32) : UInt32 :=
  match vars[id]? with
  | some vdef => vdef.size
  | none => missing

def interp (vars : List VarDef) (sample : VarId → Option UInt64) : Nat → VarId → Option UInt64
  | 0, _ => none
  | depth + 1, v =>
    match sample v with
    | some val => some val
    | none =>
      match vars[v]? with
      | none => none
      | some vdef =>
        let raw :=
          match vdef.expr with
          | .const c _ => some c
          | .var arg => interp vars sample depth arg
          | .binOp kind l r =>
            match interp vars sample depth l with
            | none => none
            | some a =>
              match interp vars sample depth r with
              | none => none
              | some b => applyBinop kind a b (sizeOr vars l 8)
          | .unaryOp kind arg =>
            match interp vars sample depth arg with
            | none => none
            | some a => applyUnop kind a (sizeOr vars arg vdef.size) vdef.size
          | .load _ | .fieldAccess _ _ | .phi _ | .ternary _ _ _ | .userOp _ _ | .unknown => none
        raw.map (· &&& sizeMask vdef.size)

section Samples

-- SplitMix64.
def advance (state : UInt64) : UInt64 := state + 0x9e3779b97f4a7c15

def mix (state : UInt64) : UInt64 :=
  let z := (state ^^^ (state >>> 30)) * 0xbf58476d1ce4e5b9
  let z := (z ^^^ (z >>> 27)) * 0x94d049bb133111eb
  z ^^^ (z >>> 31)

def edgeEnvs : List UInt64 := [0, 1, 0xffffffffffffffff, 0x8000000000000000]

-- The values of one trial, from the free variable of index `idx` on, and the state of the generator after it.
def sampleFrom (trial : Nat) : Nat → List VarId → UInt64 × (VarId → Option UInt64) → UInt64 × (VarId → Option UInt64)
  | _, [], sampled => sampled
  | idx, v :: rest, (state, sample) =>
    match edgeEnvs[trial]? with
    | some edge => sampleFrom trial (idx + 1) rest (state, Function.update sample v (some (edge + .ofNat idx)))
    | none => sampleFrom trial (idx + 1) rest (advance state, Function.update sample v (some (mix (advance state))))

def sampleTrial (free : List VarId) (trial : Nat) (state : UInt64) : UInt64 × (VarId → Option UInt64) :=
  sampleFrom trial 0 free (state, fun _ => none)

variable (vars : List VarDef) (cond : VarId) (free : List VarId)

-- The trials that are left. The first one decides, and all others must agree with it.
def classifyFrom : Nat → Nat → UInt64 → Option Bool → Option BranchClass
  | 0, _, _, first => first.map fun truthy => if truthy then .alwaysTaken else .neverTaken
  | left + 1, trial, state, first =>
    match interp vars (sampleTrial free trial state).2 (maxDepth + 1) cond with
    | none => none
    | some r =>
      let truthy := r &&& 1 != 0
      match first with
      | none => classifyFrom left (trial + 1) (sampleTrial free trial state).1 (some truthy)
      | some before =>
        if before = truthy then classifyFrom left (trial + 1) (sampleTrial free trial state).1 first else none

end Samples

def classifyBranch (cond : VarId) (vars : List VarDef) : Option BranchClass :=
  if maxFreeVars < (collectFreeVars cond vars).length then none
  else classifyFrom vars cond (collectFreeVars cond vars) (samples + edgeEnvs.length) 0 0x9e3779b97f4a7c15 none

-- Where a branch goes that is not one.
def foldedTarget (vars : List VarDef) (terminator : SsaTerminator) : Option BlockId :=
  match terminator with
  | .cbranch cond taken fallthrough =>
    match classifyBranch cond vars with
    | some .alwaysTaken => some taken
    | some .neverTaken => some fallthrough
    | none => none
  | _ => none

def foldBlock (vars : List VarDef) (block : SsaBlock) : SsaBlock :=
  match foldedTarget vars block.terminator with
  | some target => { block with terminator := .branch target }
  | none => block

def foldOpaqueBranches (ssa : SsaCfg) : SsaCfg × Nat :=
  ({ ssa with blocks := ssa.blocks.map (foldBlock ssa.vars) },
    (ssa.blocks.filter fun block => (foldedTarget ssa.vars block.terminator).isSome).length)

end Rsleigh.Decompile.OpaquePred
