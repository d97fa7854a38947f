import Mathlib.Data.Nat.Bitwise
import Rsleigh.Decompile.LowBytes

namespace Rsleigh.Decompile

open Pcode

-- fold.rs
def constFoldDepth : Nat := 64

-- The arithmetic of `const_fold_bounded`: 64 bits wide, cut to the width that came with the left constant.
def foldBinOp (kind : BinOpKind) (lv rv : UInt64) (lsz : UInt32) : Option UInt64 :=
  let mask := widthMask lsz
  match kind with
  | .add => some ((lv + rv) &&& mask)
  | .sub => some ((lv - rv) &&& mask)
  | .mult => some ((lv * rv) &&& mask)
  | .and => some (lv &&& rv)
  | .or => some (lv ||| rv)
  | .xor => some (lv ^^^ rv)
  | .lsl => some ((lv <<< (rv &&& 63)) &&& mask)
  | .lsr => some (lv >>> (rv &&& 63))
  | .asr => some (.ofBitVec (lv.toBitVec.sshiftRight (rv &&& 63).toNat) &&& mask)
  | _ => none

def foldUnaryOp (kind : UnaryOpKind) (v : UInt64) (size : UInt32) : Option UInt64 :=
  let mask := widthMask size
  match kind with
  | .neg => some ((0 - v) &&& mask)
  | .not => some (~~~v &&& mask)
  | _ => none

def constFoldBounded (vars : List VarDef) : Nat → Expr → Option (UInt64 × UInt32)
  | 0, _ => none
  | depth + 1, expr =>
    let fold (id : VarId) := constFoldBounded vars depth (varAt vars id).expr
    match expr with
    | .const value size => some (value,size)
    | .var id => fold id
    | .binOp kind left right => do
      let (lv,lsz) ← fold left
      let (rv,_) ← fold right
      let result ← foldBinOp kind lv rv lsz
      return (result,lsz)
    | .unaryOp kind arg => do
      let (v,size) ← fold arg
      let result ← foldUnaryOp kind v size
      return (result,size)
    | _ => none

def constFoldExpr (vars : List VarDef) (expr : Expr) : Option (UInt64 × UInt32) :=
  constFoldBounded vars constFoldDepth expr

-- A folded constant under an explicit extension, `input_size` being the width that came with it.
def foldExtension (signed : Bool) (value : UInt64) (inputSize outputSize : UInt32) : Option Expr :=
  if 1 ≤ inputSize ∧ inputSize ≤ 8 ∧ inputSize ≤ outputSize ∧ outputSize ≤ 8 then
    let inputMask := UInt64.ofNat (2 ^ 64 - 1) >>> (64 - inputSize * 8).toUInt64
    let outputMask := UInt64.ofNat (2 ^ 64 - 1) >>> (64 - outputSize * 8).toUInt64
    let value := value &&& inputMask
    let value :=
      if signed ∧ value &&& (1 <<< (inputSize * 8 - 1).toUInt64) ≠ 0 then value ||| ~~~inputMask else value
    some (.const (value &&& outputMask) outputSize)
  else none

-- `fold_once` on one variable: an explicit extension first, then, where that has changed nothing, an operation.
def foldedExtension (vars : List VarDef) (v : VarId) : Option Expr :=
  match (varAt vars v).expr with
  | .unaryOp .zext arg => do
    let (value,inputSize) ← constFoldExpr vars (varAt vars arg).expr
    foldExtension false value inputSize (varAt vars v).size
  | .unaryOp .sext arg => do
    let (value,inputSize) ← constFoldExpr vars (varAt vars arg).expr
    foldExtension true value inputSize (varAt vars v).size
  | _ => none

def foldedOperation (vars : List VarDef) (v : VarId) : Option Expr :=
  match (varAt vars v).expr with
  | expr@(.binOp _ _ _) | expr@(.unaryOp _ _) => do
    let (value,size) ← constFoldExpr vars expr
    return .const value size
  | _ => none

-- What the expression of a variable becomes.
def foldedConst (vars : List VarDef) (v : VarId) : Option Expr :=
  (foldedExtension vars v).or (foldedOperation vars v)

def foldConstantAt (vars : List VarDef) (v : VarId) : List VarDef :=
  match foldedConst vars v with
  | some expr => rewriteExpr vars v expr
  | none => vars

-- The low `n` bytes that the folder's arithmetic leaves: `carried` is the width of its mask, the amount of a shift
-- is taken modulo 64 and the sign is bit 63.
def foldedLow (kind : BinOpKind) (n carried x y : Nat) : Nat :=
  match kind with
  | .add => low (min n carried) (x + y)
  | .sub => low (min n carried) (2 ^ 64 - y + x)
  | .mult => low (min n carried) (x * y)
  | .and => low n (x &&& y)
  | .or => low n (x ||| y)
  | .xor => low n (x ^^^ y)
  | .lsl => low (min n carried) (x * 2 ^ (y % 64))
  | .lsr => low n (x / 2 ^ (y % 64))
  | .asr => low (min n carried) ((BitVec.ofNat 64 x).sshiftRight (y % 64)).toNat
  | _ => 0

theorem arithmetic_of_folds (folds : foldBinOp kind lv rv carried = some result) : kind ∈ arithmeticKinds := by
  cases kind <;> simp [foldBinOp] at folds <;> simp [arithmeticKinds]

-- How many low bytes of its operands an operation needs for `n` of its own.
def leftNeed (kind : BinOpKind) (n carried : Nat) : Nat :=
  match kind with
  | .and | .or | .xor => n
  | .lsr | .asr => 8
  | _ => min n carried

def rightNeed (kind : BinOpKind) (n carried : Nat) : Nat :=
  match kind with
  | .and | .or | .xor => n
  | .lsl | .lsr | .asr => 1
  | _ => min n carried

theorem toNat_amount (same : low 1 rv.toNat = low 1 y) : (rv &&& 63 : UInt64).toNat = y % 64 := by
  unfold low at same
  have sixBits : (rv &&& 63 : UInt64).toNat = rv.toNat % 2 ^ 6 := by
    rw [UInt64.toNat_and]
    exact Nat.and_two_pow_sub_one_eq_mod _ 6
  rw [sixBits]
  omega

theorem foldBinOp_low {lv rv : UInt64} (stepped : foldBinOp kind lv rv size = some result) (bytes : n ≤ 8)
    (left : low (leftNeed kind n (min size.toNat 8)) lv.toNat = low (leftNeed kind n (min size.toNat 8)) x)
    (right : low (rightNeed kind n (min size.toNat 8)) rv.toNat = low (rightNeed kind n (min size.toNat 8)) y)
    (leftSmall : x < 2 ^ 64) (rightSmall : y < 2 ^ 64) :
    low n result.toNat = foldedLow kind n (min size.toNat 8) x y := by
  have cutBytes : min n (min size.toNat 8) ≤ 8 := by omega
  have divides : 2 ^ (8 * min n (min size.toNat 8)) ∣ 2 ^ 64 := Nat.pow_dvd_pow 2 (by omega)
  have wrapped (value : Nat) : low (min n (min size.toNat 8)) (value % 2 ^ 64) =
      low (min n (min size.toNat 8)) value := Nat.mod_mod_of_dvd _ divides
  cases kind <;> simp only [foldBinOp,Option.some.injEq,reduceCtorEq] at stepped <;> subst stepped <;>
    simp only [leftNeed,rightNeed] at left right <;> simp only [foldedLow]
  case add =>
    rw [toNat_and_widthMask,low_low,UInt64.toNat_add,wrapped]
    exact low_add left right
  case sub =>
    rw [toNat_and_widthMask,low_low,UInt64.toNat_sub,wrapped]
    exact low_sub cutBytes left right rv.toNat_lt rightSmall
  case mult =>
    rw [toNat_and_widthMask,low_low,UInt64.toNat_mul,wrapped]
    exact low_mul left right
  case and =>
    rw [UInt64.toNat_and]
    exact low_and left right
  case or =>
    rw [UInt64.toNat_or]
    exact low_or left right
  case xor =>
    rw [UInt64.toNat_xor]
    exact low_xor left right
  case lsl =>
    rw [toNat_and_widthMask,low_low,UInt64.toNat_shiftLeft,wrapped,toNat_amount right,Nat.mod_mod,Nat.shiftLeft_eq]
    exact low_mul left rfl
  case lsr =>
    have whole : lv.toNat = x := by
      rwa [low_eq_self lv.toNat_lt,low_eq_self leftSmall] at left
    rw [UInt64.toNat_shiftRight,toNat_amount right,Nat.mod_mod,Nat.shiftRight_eq_div_pow,whole]
  case asr =>
    have whole : lv.toNat = x := by
      rwa [low_eq_self lv.toNat_lt,low_eq_self leftSmall] at left
    have bits : lv.toBitVec = BitVec.ofNat 64 x := by
      rw [← whole]
      simp
    rw [toNat_and_widthMask,low_low,toNat_amount right,bits]
    rfl

def foldedLowUnary (kind : UnaryOpKind) (n carried x : Nat) : Nat :=
  match kind with
  | .neg => low (min n carried) (2 ^ 64 - x)
  | .not => low (min n carried) (2 ^ 64 - 1 - x)
  | _ => 0

theorem unary_of_folds (folds : foldUnaryOp kind v carried = some result) : kind = .neg ∨ kind = .not := by
  cases kind <;> simp [foldUnaryOp] at folds <;> simp

theorem foldUnaryOp_low {v : UInt64} (stepped : foldUnaryOp kind v size = some result) (bytes : n ≤ 8)
    (operand : low (min n (min size.toNat 8)) v.toNat = low (min n (min size.toNat 8)) x) (small : x < 2 ^ 64) :
    low n result.toNat = foldedLowUnary kind n (min size.toNat 8) x := by
  have cutBytes : min n (min size.toNat 8) ≤ 8 := by omega
  have divides : 2 ^ (8 * min n (min size.toNat 8)) ∣ 2 ^ 64 := Nat.pow_dvd_pow 2 (by omega)
  have wrapped (value : Nat) : low (min n (min size.toNat 8)) (value % 2 ^ 64) =
      low (min n (min size.toNat 8)) value := Nat.mod_mod_of_dvd _ divides
  cases kind <;> simp only [foldUnaryOp,Option.some.injEq,reduceCtorEq] at stepped <;> subst stepped <;>
    simp only [foldedLowUnary]
  case neg =>
    rw [toNat_and_widthMask,low_low,UInt64.toNat_sub,wrapped]
    exact low_sub cutBytes rfl operand v.toNat_lt small
  case not =>
    have complement : (~~~v).toNat = 2 ^ 64 - 1 - v.toNat := by simp
    rw [toNat_and_widthMask,low_low,complement,low_complement cutBytes v.toNat_lt,low_complement cutBytes small,operand]

-- The declared width of the constant that the walk gets to on the left.
def carriedWidth (vars : List VarDef) : Nat → Expr → UInt32
  | 0, _ => 0
  | _ + 1, .const _ size => size
  | depth + 1, .var arg | depth + 1, .unaryOp _ arg | depth + 1, .binOp _ arg _ =>
    carriedWidth vars depth (varAt vars arg).expr
  | _ + 1, _ => 0

def carriedBytes (vars : List VarDef) (depth : Nat) (id : VarId) : Nat :=
  min (carriedWidth vars depth (varAt vars id).expr).toNat 8

-- Where the folder's arithmetic and P-code's agree on the low `n` bytes of a variable, and so on down.
def Agrees (vars : List VarDef) (val : VarId → Nat) : Nat → VarId → Nat → Prop
  | 0, _, _ => True
  | depth + 1, id, n =>
    let size := (varAt vars id).size.toNat
    match (varAt vars id).expr with
    | .const value _ => low n value.toNat = low (min n size) value.toNat
    | .var arg => low n (val arg) = low (min n size) (val arg) ∧ Agrees vars val depth arg n
    | .binOp kind left right =>
      let carried := carriedBytes vars depth left
      foldedLow kind n carried (val left) (val right) =
          computedLow kind n (varAt vars left).size.toNat size (val left) (val right) ∧
        Agrees vars val depth left (leftNeed kind n carried) ∧ Agrees vars val depth right (rightNeed kind n carried)
    | .unaryOp kind arg =>
      let carried := carriedBytes vars depth arg
      foldedLowUnary kind n carried (val arg) =
          computedLowUnary kind n (varAt vars arg).size.toNat size (val arg) ∧
        Agrees vars val depth arg (min n carried)
    | _ => True

-- What a variable folds to has the low `n` bytes of its value.
def FoldsRight (vars : List VarDef) (val : VarId → Nat) (depth : Nat) (id : VarId) (n : Nat) : Prop :=
  ∀ c s, constFoldBounded vars depth (varAt vars id).expr = some (c,s) → low n c.toNat = low n (val id)

-- The same of every definition that the fold goes through, for the bytes that are needed of it.
def FoldsRightThrough (vars : List VarDef) (val : VarId → Nat) : Nat → VarId → Nat → Prop
  | 0, _, _ => True
  | depth + 1, id, n =>
    FoldsRight vars val (depth + 1) id n ∧
    match (varAt vars id).expr with
    | .var arg => FoldsRightThrough vars val depth arg n
    | .binOp kind left right =>
      let carried := carriedBytes vars depth left
      FoldsRightThrough vars val depth left (leftNeed kind n carried) ∧
        FoldsRightThrough vars val depth right (rightNeed kind n carried)
    | .unaryOp _ arg => FoldsRightThrough vars val depth arg (min n (carriedBytes vars depth arg))
    | _ => True

theorem FoldsRightThrough.here {id : VarId} (right : FoldsRightThrough vars val depth id n) :
    FoldsRight vars val depth id n := by
  cases depth with
  | zero =>
    intro c s folded
    cases folded
  | succ depth => exact right.1

theorem constFoldBounded_width {vars : List VarDef} {depth : Nat} {expr : Expr}
    (folded : constFoldBounded vars depth expr = some (c,s)) : s = carriedWidth vars depth expr := by
  induction depth generalizing expr c s with
  | zero => cases folded
  | succ depth ih =>
    cases expr with
    | const value size =>
      simp only [constFoldBounded,Option.some.injEq,Prod.mk.injEq] at folded
      exact folded.2.symm
    | var arg => exact ih folded
    | binOp kind left right =>
      simp only [constFoldBounded,Option.bind_eq_bind,Option.bind_eq_some_iff] at folded
      obtain ⟨⟨lv,lsz⟩,foldedLeft,_,_,_,_,same⟩ := folded
      simp only [Option.pure_def,Option.some.injEq,Prod.mk.injEq] at same
      rw [← same.2]
      exact ih foldedLeft
    | unaryOp kind arg =>
      simp only [constFoldBounded,Option.bind_eq_bind,Option.bind_eq_some_iff] at folded
      obtain ⟨⟨v,size⟩,foldedInner,_,_,same⟩ := folded
      simp only [Option.pure_def,Option.some.injEq,Prod.mk.injEq] at same
      rw [← same.2]
      exact ih foldedInner
    | load _ | fieldAccess _ _ | phi _ | ternary _ _ _ | userOp _ _ | unknown => cases folded

theorem leftNeed_le (bytes : n ≤ 8) : leftNeed kind n carried ≤ 8 := by
  cases kind <;> simp only [leftNeed] <;> omega

theorem rightNeed_le (bytes : n ≤ 8) : rightNeed kind n carried ≤ 8 := by
  cases kind <;> simp only [rightNeed] <;> omega

section Walk

variable {env : Env} {vars : List VarDef} {val : VarId → Nat}

def HeldBelow (env : Env) (vars : List VarDef) (val : VarId → Nat) (id : VarId) : Prop :=
  ∀ u, Below vars id u → HoldsValue env vars val u ∧ (varAt vars u).size.toNat ≤ 8

theorem HeldBelow.operand {id : VarId} (held : HeldBelow env vars val id) (used : UsedBy vars id arg) :
    HeldBelow env vars val arg :=
  fun u reached => held u (.head used reached)

theorem HeldBelow.small {id : VarId} (held : HeldBelow env vars val id) : val id < 2 ^ 64 := by
  obtain ⟨holds,bytes⟩ := held id .refl
  exact lt_of_lt_of_le holds.within (Nat.pow_le_pow_right (by decide) (by omega))

theorem folds_iff_agrees (depth : Nat) (id : VarId) (n : Nat) (bytes : n ≤ 8) (held : HeldBelow env vars val id)
    (folded : constFoldBounded vars depth (varAt vars id).expr = some (c,s)) :
    FoldsRightThrough vars val depth id n ↔ Agrees vars val depth id n := by
  induction depth generalizing id n c s with
  | zero => cases folded
  | succ depth ih =>
    have right : FoldsRight vars val (depth + 1) id n ↔ low n c.toNat = low n (val id) := by
      unfold FoldsRight
      rw [folded]
      simp
    have computed := (held id .refl).1.computed
    simp only [FoldsRightThrough,Agrees,right]
    generalize shape : (varAt vars id).expr = expr at *
    have used (arg : VarId) (operand : arg ∈ expr.operands) : UsedBy vars id arg := by
      rwa [UsedBy,shape]
    cases expr with
    | const value size =>
      simp only [constFoldBounded,Option.some.injEq,Prod.mk.injEq] at folded
      have held := computed _ rfl
      have cut := low_low n (varAt vars id).size.toNat value.toNat
      simp only [and_true,← folded.1,held,← cut]
      rfl
    | var arg =>
      have below := held.operand (used arg (by simp [Expr.operands]))
      have value := computed _ rfl
      have cut := low_low n (varAt vars id).size.toNat (val arg)
      have down := ih arg n bytes below folded
      dsimp only
      rw [down]
      refine and_congr_left fun agrees => ?_
      rw [(down.mpr agrees).here c s folded,value,← cut]
      rfl
    | binOp kind left right =>
      simp only [constFoldBounded,Option.bind_eq_bind,Option.bind_eq_some_iff] at folded
      obtain ⟨⟨lv,lsz⟩,foldedLeft,⟨rv,rsz⟩,foldedRight,result,stepped,same⟩ := folded
      simp only [Option.pure_def,Option.some.injEq,Prod.mk.injEq] at same
      have belowLeft := held.operand (used left (by simp [Expr.operands]))
      have belowRight := held.operand (used right (by simp [Expr.operands]))
      have carried : min lsz.toNat 8 = carriedBytes vars depth left := by
        rw [carriedBytes,← constFoldBounded_width foldedLeft]
      have downLeft := ih left (leftNeed kind n (carriedBytes vars depth left)) (leftNeed_le bytes) belowLeft foldedLeft
      have downRight :=
        ih right (rightNeed kind n (carriedBytes vars depth left)) (rightNeed_le bytes) belowRight foldedRight
      dsimp only
      rw [downLeft,downRight]
      refine and_congr_left fun agrees => ?_
      have leftLow := (downLeft.mpr agrees.1).here lv lsz foldedLeft
      have rightLow := (downRight.mpr agrees.2).here rv rsz foldedRight
      rw [← carried] at leftLow rightLow
      have step := foldBinOp_low stepped bytes leftLow rightLow belowLeft.small belowRight.small
      have leftHeld := belowLeft left .refl
      have value := computed _ rfl
      have machine := evalBinary_low env n (varAt vars id).size (arithmetic_of_folds stepped)
        leftHeld.2 leftHeld.1.within belowRight.small
      rw [← same.1,step,value,machine,carried]
    | unaryOp kind arg =>
      simp only [constFoldBounded,Option.bind_eq_bind,Option.bind_eq_some_iff] at folded
      obtain ⟨⟨v,size⟩,foldedInner,result,stepped,same⟩ := folded
      simp only [Option.pure_def,Option.some.injEq,Prod.mk.injEq] at same
      have below := held.operand (used arg (by simp [Expr.operands]))
      have carried : min size.toNat 8 = carriedBytes vars depth arg := by
        rw [carriedBytes,← constFoldBounded_width foldedInner]
      have down := ih arg (min n (carriedBytes vars depth arg)) (by omega) below foldedInner
      dsimp only
      rw [down]
      refine and_congr_left fun agrees => ?_
      have operandLow := (down.mpr agrees).here v size foldedInner
      rw [← carried] at operandLow
      have step := foldUnaryOp_low stepped bytes operandLow below.small
      have innerHeld := below arg .refl
      have value := computed _ rfl
      have machine := evalUnary_low env n (varAt vars id).size (unary_of_folds stepped) innerHeld.2
        innerHeld.1.within
      rw [← same.1,step,value,machine,carried]
    | load _ | fieldAccess _ _ | phi _ | ternary _ _ _ | userOp _ _ | unknown => cases folded

end Walk

section Extensions

theorem toNat_lowMask {size : UInt32} (positive : 1 ≤ size.toNat) (narrow : size.toNat ≤ 8) :
    (UInt64.ofNat (2 ^ 64 - 1) >>> (64 - size * 8).toUInt64).toNat = 2 ^ (8 * size.toNat) - 1 := by
  have named : size = UInt32.ofNat size.toNat := by simp
  generalize size.toNat = k at *
  subst named
  interval_cases k <;> rfl

theorem toNat_signBit {size : UInt32} (positive : 1 ≤ size.toNat) (narrow : size.toNat ≤ 8) :
    ((1 : UInt64) <<< (size * 8 - 1).toUInt64).toNat = 2 ^ (8 * size.toNat - 1) := by
  have named : size = UInt32.ofNat size.toNat := by simp
  generalize size.toNat = k at *
  subst named
  interval_cases k <;> rfl

theorem and_signBit_ne_zero {value bit : UInt64} (bitValue : bit.toNat = 2 ^ k) :
    value &&& bit ≠ 0 ↔ value.toNat.testBit k = true := by
  rw [Ne,← UInt64.toNat_inj,UInt64.toNat_and,bitValue,Nat.and_two_pow]
  cases value.toNat.testBit k <;> simp

theorem or_high {value mask : UInt64} (maskValue : mask.toNat = 2 ^ k - 1) (narrow : k ≤ 64)
    (small : value.toNat < 2 ^ k) : (value ||| ~~~mask).toNat = value.toNat + (2 ^ 64 - 2 ^ k) := by
  have whole : 2 ^ 64 = 2 ^ k * 2 ^ (64 - k) := by rw [← Nat.pow_add,Nat.add_sub_of_le narrow]
  have ones : (~~~mask).toNat = 2 ^ k * (2 ^ (64 - k) - 1) := by
    have complement : (~~~mask).toNat = 2 ^ 64 - 1 - mask.toNat := by simp
    have positive : 0 < 2 ^ k := by positivity
    rw [complement,maskValue,Nat.mul_sub_one,← whole]
    omega
  rw [UInt64.toNat_or,ones,Nat.or_comm,← Nat.two_pow_add_eq_or_of_lt small,Nat.mul_sub_one,← whole,Nat.add_comm]

theorem high_mod {v : Nat} (wider : k ≤ m) (narrow : m ≤ 64) (small : v < 2 ^ k) :
    (v + (2 ^ 64 - 2 ^ k)) % 2 ^ m = v % 2 ^ m + (2 ^ m - 2 ^ k) := by
  obtain ⟨count,whole⟩ : 2 ^ m ∣ 2 ^ 64 := Nat.pow_dvd_pow 2 narrow
  have powers : 2 ^ k ≤ 2 ^ m := Nat.pow_le_pow_right (by decide) wider
  obtain ⟨rest,rfl⟩ : ∃ rest, count = rest + 1 := by
    refine ⟨count - 1,?_⟩
    have positive : count ≠ 0 := by
      rintro rfl
      simp at whole
    omega
  have split : v + (2 ^ 64 - 2 ^ k) = 2 ^ m * rest + (v + (2 ^ m - 2 ^ k)) := by
    rw [whole,Nat.mul_add_one]
    omega
  rw [split,Nat.mul_add_mod,Nat.mod_eq_of_lt (by omega),Nat.mod_eq_of_lt (by omega)]

def extend (signed : Bool) (width size x : Nat) : Nat :=
  if signed then ((BitVec.ofNat (8 * width) x).signExtend (8 * size)).toNat else low size (low width x)

theorem foldExtension_value (folded : foldExtension signed value inputSize outputSize = some (.const c s)) :
    1 ≤ inputSize.toNat ∧ inputSize.toNat ≤ outputSize.toNat ∧ outputSize.toNat ≤ 8 ∧ s = outputSize ∧
      c.toNat = extend signed inputSize.toNat outputSize.toNat value.toNat := by
  unfold foldExtension at folded
  split at folded
  case isFalse => cases folded
  rename_i widths
  simp only [UInt32.le_iff_toNat_le] at widths
  obtain ⟨positive,inputNarrow,wider,narrow⟩ := widths
  change 1 ≤ inputSize.toNat at positive
  change inputSize.toNat ≤ 8 at inputNarrow
  change outputSize.toNat ≤ 8 at narrow
  simp only [Option.some.injEq,Expr.const.injEq] at folded
  obtain ⟨rfl,rfl⟩ := folded
  refine ⟨positive,wider,narrow,rfl,?_⟩
  have inputMask := toNat_lowMask positive inputNarrow
  have outputMask := toNat_lowMask (positive.trans wider) narrow
  have signBit := toNat_signBit positive inputNarrow
  generalize UInt64.ofNat (2 ^ 64 - 1) >>> (64 - inputSize * 8).toUInt64 = inMask at *
  generalize UInt64.ofNat (2 ^ 64 - 1) >>> (64 - outputSize * 8).toUInt64 = outMask at *
  have cut : (value &&& inMask).toNat = value.toNat % 2 ^ (8 * inputSize.toNat) := by
    rw [UInt64.toNat_and,inputMask,Nat.and_two_pow_sub_one_eq_mod]
  rw [UInt64.toNat_and,outputMask,Nat.and_two_pow_sub_one_eq_mod]
  cases signed with
  | false =>
    simp only [Bool.false_eq_true,false_and,if_false,extend,cut]
    rfl
  | true =>
    have small : (value &&& inMask).toNat < 2 ^ (8 * inputSize.toNat) := by
      rw [cut]
      exact Nat.mod_lt _ (by positivity)
    have sign : (value &&& inMask) &&& (1 <<< (inputSize * 8 - 1).toUInt64) ≠ 0 ↔
        (BitVec.ofNat (8 * inputSize.toNat) value.toNat).msb = true := by
      rw [and_signBit_ne_zero signBit,cut,BitVec.msb_eq_getLsbD_last,BitVec.getLsbD_ofNat,Nat.testBit_mod_two_pow]
    simp only [true_and,extend,if_true,BitVec.toNat_signExtend]
    rw [BitVec.toNat_setWidth,BitVec.toNat_ofNat,← cut]
    by_cases negative : (BitVec.ofNat (8 * inputSize.toNat) value.toNat).msb = true
    · rw [if_pos (sign.mpr negative),if_pos negative,or_high inputMask (by omega) small]
      exact high_mod (by omega) (by omega) small
    · rw [if_neg (mt sign.mp negative),if_neg negative,Nat.add_zero]

end Extensions

section Cycles

def ReachesCycle (vars : List VarDef) (id : VarId) : Prop := ∃ u, Below vars id u ∧ OnCycle vars u

variable {vars : List VarDef}

theorem ReachesCycle.operand {id : VarId} (cyclic : ReachesCycle vars id) :
    ∃ arg, UsedBy vars id arg ∧ ReachesCycle vars arg := by
  obtain ⟨u,reached,loop⟩ := cyclic
  rcases Relation.ReflTransGen.cases_head reached with same | ⟨arg,used,below⟩
  · subst same
    obtain ⟨arg,used,back⟩ := Relation.TransGen.head'_iff.mp loop
    exact ⟨arg,used,_,back,loop⟩
  · exact ⟨arg,used,u,below,loop⟩

theorem constFoldBounded_operand {expr : Expr} (operand : arg ∈ expr.operands)
    (folded : (constFoldBounded vars (depth + 1) expr).isSome) :
    (constFoldBounded vars depth (varAt vars arg).expr).isSome := by
  obtain ⟨pair,folded⟩ := Option.isSome_iff_exists.mp folded
  cases expr with
  | const value size => simp [Expr.operands] at operand
  | var id =>
    have same : arg = id := by simpa [Expr.operands] using operand
    subst same
    exact Option.isSome_iff_exists.mpr ⟨pair,folded⟩
  | binOp kind left right =>
    simp only [constFoldBounded,Option.bind_eq_bind,Option.bind_eq_some_iff] at folded
    obtain ⟨l,foldedLeft,r,foldedRight,_⟩ := folded
    simp only [Expr.operands,List.mem_cons,List.not_mem_nil,or_false] at operand
    obtain rfl | rfl := operand
    · simp [foldedLeft]
    · simp [foldedRight]
  | unaryOp kind id =>
    simp only [constFoldBounded,Option.bind_eq_bind,Option.bind_eq_some_iff] at folded
    obtain ⟨v,foldedInner,_⟩ := folded
    have same : arg = id := by simpa [Expr.operands] using operand
    subst same
    simp [foldedInner]
  | load _ | fieldAccess _ _ | phi _ | ternary _ _ _ | userOp _ _ | unknown => cases folded

theorem constFoldBounded_cycle (depth : Nat) {id : VarId} (cyclic : ReachesCycle vars id) :
    constFoldBounded vars depth (varAt vars id).expr = none := by
  induction depth generalizing id with
  | zero => rfl
  | succ depth ih =>
    obtain ⟨arg,used,further⟩ := cyclic.operand
    by_contra folds
    have deeper := constFoldBounded_operand used (Option.isSome_iff_ne_none.mpr folds)
    rw [ih further] at deeper
    cases deeper

theorem foldedConst_cycle {v : VarId} (cyclic : ReachesCycle vars v) : foldedConst vars v = none := by
  have stuck := constFoldBounded_cycle constFoldDepth cyclic
  obtain ⟨operand,used,further⟩ := cyclic.operand
  unfold foldedConst foldedExtension foldedOperation constFoldExpr
  unfold UsedBy at used
  generalize (varAt vars v).expr = expr at *
  cases expr with
  | unaryOp kind arg =>
    have same : operand = arg := by simpa [Expr.operands] using used
    subst same
    have below := constFoldBounded_cycle constFoldDepth further
    cases kind <;> simp [stuck,below]
  | binOp kind left right => simp [stuck]
  | var _ | const _ _ | load _ | fieldAccess _ _ | phi _ | ternary _ _ _ | userOp _ _ | unknown => rfl

end Cycles

section Folded

-- Where folding a variable gives its value: an extension starts at the width that the folded constant carries.
def ExtensionAgrees (vars : List VarDef) (val : VarId → Nat) (signed : Bool) (v arg : VarId) : Prop :=
  let size := (varAt vars v).size.toNat
  let carried := carriedBytes vars constFoldDepth arg
  extend signed carried size (val arg) = extend signed (varAt vars arg).size.toNat size (val arg) ∧
    Agrees vars val constFoldDepth arg carried

def FoldAgrees (vars : List VarDef) (val : VarId → Nat) (v : VarId) : Prop :=
  match (varAt vars v).expr with
  | .unaryOp .zext arg => ExtensionAgrees vars val false v arg
  | .unaryOp .sext arg => ExtensionAgrees vars val true v arg
  | _ => Agrees vars val constFoldDepth v (varAt vars v).size.toNat

def FoldedRight (vars : List VarDef) (val : VarId → Nat) (v : VarId) : Prop :=
  ∀ c s, foldedConst vars v = some (.const c s) → c.toNat % 2 ^ (8 * (varAt vars v).size.toNat) = val v

-- The constant is right, and so is every definition that it was folded from.
def FoldedRightThrough (vars : List VarDef) (val : VarId → Nat) (v : VarId) : Prop :=
  FoldedRight vars val v ∧
    match (varAt vars v).expr with
    | .unaryOp .zext arg | .unaryOp .sext arg =>
      FoldsRightThrough vars val constFoldDepth arg (carriedBytes vars constFoldDepth arg)
    | _ => FoldsRightThrough vars val constFoldDepth v (varAt vars v).size.toNat

variable {env : Env} {vars : List VarDef} {val : VarId → Nat} {v : VarId}

theorem extend_low (same : low width a = low width x) : extend signed width size a = extend signed width size x := by
  have bits : BitVec.ofNat (8 * width) a = BitVec.ofNat (8 * width) x := by
    apply BitVec.eq_of_toNat_eq
    rw [BitVec.toNat_ofNat,BitVec.toNat_ofNat]
    exact same
  cases signed <;> simp [extend,same,bits]

def extensionKind (signed : Bool) : UnaryOpKind := if signed then .sext else .zext

theorem evalUnary_extension (env : Env) (signed : Bool) (width size : UInt32) (x : Nat) :
    evalUnary env (extensionKind signed).pcode width size x % 2 ^ (8 * size.toNat) =
      extend signed width.toNat size.toNat x := by
  cases signed with
  | false => simp [extensionKind,UnaryOpKind.pcode,evalUnary,extend,low]
  | true => exact Nat.mod_eq_of_lt (BitVec.isLt _)

theorem foldedExtension_iff (signed : Bool) (held : HeldBelow env vars val v)
    (shape : (varAt vars v).expr = .unaryOp (extensionKind signed) arg)
    (folded : constFoldExpr vars (varAt vars arg).expr = some (value,inputSize))
    (extended : foldExtension signed value inputSize (varAt vars v).size = some (.const c s)) :
    (c.toNat % 2 ^ (8 * (varAt vars v).size.toNat) = val v ∧
      FoldsRightThrough vars val constFoldDepth arg (carriedBytes vars constFoldDepth arg)) ↔
    ExtensionAgrees vars val signed v arg := by
  obtain ⟨positive,wider,narrow,_,constant⟩ := foldExtension_value extended
  have used : UsedBy vars v arg := by simp [UsedBy,shape,Expr.operands]
  have carried : carriedBytes vars constFoldDepth arg = inputSize.toNat := by
    rw [carriedBytes,← constFoldBounded_width folded]
    omega
  have carriedNarrow : carriedBytes vars constFoldDepth arg ≤ 8 := by omega
  have down := folds_iff_agrees constFoldDepth arg _ carriedNarrow (held.operand used) folded
  have computed := (held v .refl).1.computed _ (by rw [shape]; rfl)
  have fits : c.toNat < 2 ^ (8 * (varAt vars v).size.toNat) := by
    have cut := (evalUnary_extension env signed inputSize (varAt vars v).size value.toNat).symm
    rw [constant,cut]
    exact Nat.mod_lt _ (by positivity)
  unfold ExtensionAgrees
  dsimp only
  rw [down]
  refine and_congr_left fun agrees => ?_
  have operand := (down.mpr agrees).here value inputSize folded
  rw [carried] at operand
  rw [computed,evalUnary_extension,Nat.mod_eq_of_lt fits,constant,carried,extend_low operand]

theorem foldedRight_iff (folded : foldedConst vars v = some (.const c s)) :
    FoldedRight vars val v ↔ c.toNat % 2 ^ (8 * (varAt vars v).size.toNat) = val v := by
  unfold FoldedRight
  rw [folded]
  simp

theorem constFoldExpr_extension (signed : Bool) (arg : VarId) :
    constFoldExpr vars (.unaryOp (extensionKind signed) arg) = none := by
  unfold constFoldExpr constFoldDepth constFoldBounded
  cases signed <;> simp [extensionKind,foldUnaryOp]

theorem foldedOperation_iff (held : HeldBelow env vars val v)
    (folded : constFoldExpr vars (varAt vars v).expr = some (c,s)) :
    (c.toNat % 2 ^ (8 * (varAt vars v).size.toNat) = val v ∧
      FoldsRightThrough vars val constFoldDepth v (varAt vars v).size.toNat) ↔
    Agrees vars val constFoldDepth v (varAt vars v).size.toNat := by
  obtain ⟨holds,narrow⟩ := held v .refl
  have down := folds_iff_agrees constFoldDepth v _ narrow held folded
  rw [← down]
  refine ⟨And.right,fun through => ⟨?_,through⟩⟩
  have here := through.here c s folded
  rwa [low_eq_self holds.within] at here

theorem foldedConst_extension (signed : Bool) (shape : (varAt vars v).expr = .unaryOp (extensionKind signed) arg)
    (folded : foldedConst vars v = some (.const c s)) :
    ∃ value inputSize, constFoldExpr vars (varAt vars arg).expr = some (value,inputSize) ∧
      foldExtension signed value inputSize (varAt vars v).size = some (.const c s) := by
  have none : foldedOperation vars v = none := by
    unfold foldedOperation
    rw [shape]
    simp [constFoldExpr_extension]
  rw [foldedConst,none,Option.or_none] at folded
  unfold foldedExtension at folded
  rw [shape] at folded
  cases signed <;> simpa [extensionKind,Option.bind_eq_some_iff] using folded

theorem foldedConst_operation (plain : ∀ signed arg, (varAt vars v).expr ≠ .unaryOp (extensionKind signed) arg)
    (folded : foldedConst vars v = some (.const c s)) : constFoldExpr vars (varAt vars v).expr = some (c,s) := by
  have extension : foldedExtension vars v = none := by
    unfold foldedExtension
    split
    · rename_i arg shape
      exact absurd shape (plain false arg)
    · rename_i arg shape
      exact absurd shape (plain true arg)
    · rfl
  rw [foldedConst,extension,Option.none_or,foldedOperation] at folded
  split at folded
  · rename_i shape
    rw [shape]
    simpa [Option.bind_eq_some_iff] using folded
  · rename_i shape
    rw [shape]
    simpa [Option.bind_eq_some_iff] using folded
  · cases folded

theorem foldedConst_iff (held : HeldBelow env vars val v) (folded : foldedConst vars v = some (.const c s)) :
    FoldedRightThrough vars val v ↔ FoldAgrees vars val v := by
  unfold FoldedRightThrough FoldAgrees
  rw [foldedRight_iff folded]
  by_cases extension : ∃ signed arg, (varAt vars v).expr = .unaryOp (extensionKind signed) arg
  · obtain ⟨signed,arg,shape⟩ := extension
    obtain ⟨value,inputSize,operand,extended⟩ := foldedConst_extension signed shape folded
    have through := foldedExtension_iff signed held shape operand extended
    rw [shape]
    cases signed <;> exact through
  · have plain (signed : Bool) (arg : VarId) : (varAt vars v).expr ≠ .unaryOp (extensionKind signed) arg :=
      fun shape => extension ⟨signed,arg,shape⟩
    have through := foldedOperation_iff held (foldedConst_operation plain folded)
    split
    · rename_i arg shape
      exact absurd shape (plain false arg)
    · rename_i arg shape
      exact absurd shape (plain true arg)
    · exact through

end Folded

-- A variable that folds gives its value wherever the folder agrees with P-code, and the folder agrees exactly where
-- the variable folds to the right bytes all the way down. Nothing that leads to a definition cycle folds.
theorem foldConstantAt_value (vars : List VarDef) (v : VarId) :
    (∀ env val, ValuedBelow env vars val v →
      (FoldAgrees vars val v → FoldedRight vars val v) ∧
      ∀ c s, foldedConst vars v = some (.const c s) →
        (FoldedRightThrough vars val v ↔ FoldAgrees vars val v)) ∧
    (ReachesCycle vars v → foldConstantAt vars v = vars) := by
  constructor
  · intro env val valued
    have held : HeldBelow env vars val v := fun u below => ⟨(valued u below).1,(valued u below).2.narrow⟩
    constructor
    · intro agrees c s folded
      exact ((foldedConst_iff held folded).mpr agrees).1 c s folded
    · intro c s folded
      exact foldedConst_iff held folded
  · intro cyclic
    unfold foldConstantAt
    rw [foldedConst_cycle cyclic]

-- 5 - 3 in four bytes.
def difference : List VarDef := [plainVar (.const 5 4) 4,plainVar (.const 3 4) 4,plainVar (.binOp .sub 0 1) 4]

def differenceValues (id : VarId) : Nat := [5,3,2].getD id 0

theorem difference_folds :
    foldedConst difference 2 = some (.const 2 4) ∧ FoldedRight difference differenceValues 2 := by
  have values : ValuedBelow plainEnv difference differenceValues 2 := by
    intro u below
    have inside := Below.inside [0,1,2] (by decide) (by decide) below
    simp only [List.mem_cons,List.not_mem_nil,or_false] at inside
    rcases inside with rfl | rfl | rfl <;> exact ⟨⟨by decide,by decide⟩,by unfold Sized; decide⟩
  have agrees : FoldAgrees difference differenceValues 2 :=
    And.intro rfl (And.intro rfl rfl)
  exact ⟨by decide,((foldConstantAt_value difference 2).1 plainEnv differenceValues values).1 agrees⟩

-- A shift of 1 by 64: the folder shifts by nothing.
def wideShift : List VarDef := [plainVar (.const 1 8) 8,plainVar (.const 64 8) 8,plainVar (.binOp .lsl 0 1) 8]

def wideShiftValues (id : VarId) : Nat := [1,64,0].getD id 0

theorem wideShift_differs : ¬ ∀ (env : Env) (vars : List VarDef) (val : VarId → Nat) (v : VarId),
    ValuedBelow env vars val v → FoldedRight vars val v := by
  intro right
  have values : ValuedBelow plainEnv wideShift wideShiftValues 2 := by
    intro u below
    have inside := Below.inside [0,1,2] (by decide) (by decide) below
    simp only [List.mem_cons,List.not_mem_nil,or_false] at inside
    rcases inside with rfl | rfl | rfl <;> exact ⟨⟨by decide,by decide⟩,by unfold Sized; decide⟩
  have folded := right plainEnv wideShift wideShiftValues 2 values 1 8 (by decide)
  exact absurd folded (by decide)

end Rsleigh.Decompile
