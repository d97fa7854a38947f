import Mathlib.Data.Nat.Bitwise
import Mathlib.Data.ZMod.Basic
import Mathlib.Tactic.LinearCombination
import Rsleigh.Decompile.Values
import Rsleigh.Pcode.Fold

namespace Rsleigh.Decompile

open Pcode

section LowBytes

def low (n x : Nat) : Nat := x % 2 ^ (8 * n)

theorem low_low (a b x : Nat) : low a (low b x) = low (min a b) x := by
  unfold low
  rcases Nat.le_total a b with small | large
  · rw [Nat.mod_mod_of_dvd _ (Nat.pow_dvd_pow 2 (by omega)),Nat.min_eq_left small]
  · have bound : x % 2 ^ (8 * b) < 2 ^ (8 * a) :=
      lt_of_lt_of_le (Nat.mod_lt _ (by positivity)) (Nat.pow_le_pow_right (by decide) (by omega))
    rw [Nat.mod_eq_of_lt bound,Nat.min_eq_right large]

theorem low_mod (bytes : k ≤ m) (x : Nat) : low k (x % 2 ^ (8 * m)) = low k x := by
  have cut := low_low k m x
  rwa [Nat.min_eq_left bytes] at cut

theorem low_eq_self (small : x < 2 ^ (8 * n)) : low n x = x := Nat.mod_eq_of_lt small

theorem low_add (left : low n a = low n x) (right : low n b = low n y) : low n (a + b) = low n (x + y) :=
  Nat.ModEq.add left right

theorem low_mul (left : low n a = low n x) (right : low n b = low n y) : low n (a * b) = low n (x * y) :=
  Nat.ModEq.mul left right

theorem low_and (left : low n a = low n x) (right : low n b = low n y) : low n (a &&& b) = low n (x &&& y) := by
  unfold low at *
  rw [Nat.and_mod_two_pow,left,right,Nat.and_mod_two_pow]

theorem low_or (left : low n a = low n x) (right : low n b = low n y) : low n (a ||| b) = low n (x ||| y) := by
  unfold low at *
  rw [Nat.or_mod_two_pow,left,right,Nat.or_mod_two_pow]

theorem low_xor (left : low n a = low n x) (right : low n b = low n y) : low n (a ^^^ b) = low n (x ^^^ y) := by
  unfold low at *
  rw [Nat.xor_mod_two_pow,left,right,Nat.xor_mod_two_pow]

theorem low_sub {a b x y : Nat} (bytes : n ≤ 8) (left : low n a = low n x) (right : low n b = low n y)
    (inside : b < 2 ^ 64) (small : y < 2 ^ 64) : low n (2 ^ 64 - b + a) = low n (2 ^ 64 - y + x) := by
  have width : 8 * n ≤ 64 := by omega
  unfold low at *
  rw [sub_mod_pow width inside,sub_mod_pow width small,right]
  exact Nat.ModEq.add_left _ left

theorem low_complement (bytes : n ≤ 8) (small : x < 2 ^ 64) :
    low n (2 ^ 64 - 1 - x) = 2 ^ (8 * n) - 1 - low n x := by
  unfold low
  obtain ⟨k,whole⟩ : 2 ^ (8 * n) ∣ 2 ^ 64 := Nat.pow_dvd_pow 2 (by omega)
  have parts := Nat.div_add_mod x (2 ^ (8 * n))
  have rest := Nat.mod_lt x (show 0 < 2 ^ (8 * n) by positivity)
  have quotient : x / 2 ^ (8 * n) < k := Nat.div_lt_of_lt_mul (whole ▸ small)
  obtain ⟨d,rfl⟩ : ∃ d, k = x / 2 ^ (8 * n) + d + 1 := ⟨k - x / 2 ^ (8 * n) - 1,by omega⟩
  have split : 2 ^ 64 - 1 - x = 2 ^ (8 * n) * d + (2 ^ (8 * n) - 1 - x % 2 ^ (8 * n)) := by
    rw [whole]
    have expand : 2 ^ (8 * n) * (x / 2 ^ (8 * n) + d + 1) =
        2 ^ (8 * n) * (x / 2 ^ (8 * n)) + 2 ^ (8 * n) * d + 2 ^ (8 * n) := by ring
    omega
  rw [split,Nat.mul_add_mod,Nat.mod_eq_of_lt (by omega)]

theorem testBit_complement (small : x < 2 ^ 64) (i : Nat) :
    (2 ^ 64 - 1 - x).testBit i = (decide (i < 64) && !x.testBit i) := by
  have succ : 2 ^ 64 - 1 - x = 2 ^ 64 - (x + 1) := by omega
  rw [succ]
  exact Nat.testBit_two_pow_sub_succ small i

theorem low_ones (a b : Nat) : low b (2 ^ (8 * a) - 1) = 2 ^ (8 * min a b) - 1 := by
  unfold low
  rw [← Nat.and_two_pow_sub_one_eq_mod]
  apply Nat.eq_of_testBit_eq
  intro i
  simp only [Nat.testBit_and,Nat.testBit_two_pow_sub_one]
  rw [Bool.eq_iff_iff]
  simp only [Bool.and_eq_true,decide_eq_true_eq]
  omega

theorem low_and_ones (n m x : Nat) : low n (x &&& (2 ^ (8 * m) - 1)) = low (min n m) x := by
  rw [Nat.and_two_pow_sub_one_eq_mod]
  exact low_low ..

theorem low_xor_ones (bytes : n ≤ 8) (small : x < 2 ^ 64) :
    low n (x ^^^ (2 ^ (8 * m) - 1)) = low n (2 ^ 64 - 1 - x) ↔ n ≤ m := by
  unfold low
  constructor
  · intro same
    by_contra beyond
    have bit := congrArg (Nat.testBit · (8 * m)) same
    have inside : 8 * m < 8 * n := by omega
    have width : 8 * m < 64 := by omega
    simp only [Nat.testBit_mod_two_pow,Nat.testBit_xor,Nat.testBit_two_pow_sub_one,testBit_complement small] at bit
    simp [inside,width] at bit
  · intro covered
    apply Nat.eq_of_testBit_eq
    intro i
    simp only [Nat.testBit_mod_two_pow,Nat.testBit_xor,Nat.testBit_two_pow_sub_one,testBit_complement small]
    by_cases inside : i < 8 * n
    · have ones : i < 8 * m := by omega
      have width : i < 64 := by omega
      simp [inside,ones,width]
    · simp [inside]

theorem low_xor_eq_zero : low n (x ^^^ y) = 0 ↔ low n x = low n y := by
  unfold low
  rw [Nat.xor_mod_two_pow,Nat.xor_eq_zero_iff]

theorem low_eq_iff : low n a = low n b ↔ (a : ZMod (2 ^ (8 * n))) = b := (ZMod.natCast_eq_natCast_iff a b _).symm

theorem low_eq_zero_iff : low n a = 0 ↔ (a : ZMod (2 ^ (8 * n))) = 0 := by
  have zero : low n 0 = 0 := Nat.zero_mod _
  have same := low_eq_iff (n := n) (a := a) (b := 0)
  rwa [zero,Nat.cast_zero] at same

theorem cast_around (bytes : n ≤ 8) : ((2 ^ 64 : Nat) : ZMod (2 ^ (8 * n))) = 0 :=
  (ZMod.natCast_eq_zero_iff _ _).mpr (Nat.pow_dvd_pow 2 (by omega))

theorem cast_negative (bytes : n ≤ 8) (small : x < 2 ^ 64) : ((2 ^ 64 - x : Nat) : ZMod (2 ^ (8 * n))) = -x := by
  rw [Nat.cast_sub small.le,cast_around bytes,zero_sub]

theorem cast_complement (bytes : n ≤ 8) (small : x < 2 ^ 64) :
    ((2 ^ 64 - 1 - x : Nat) : ZMod (2 ^ (8 * n))) = -1 - x := by
  have bound : x ≤ 2 ^ 64 - 1 := by omega
  rw [Nat.cast_sub bound,Nat.cast_sub (by decide),cast_around bytes,Nat.cast_one,zero_sub]

theorem low_add_sub {x y z : Nat} (bytes : n ≤ 8) (small : z < 2 ^ 64) :
    low n (x + y) = low n (2 ^ 64 - z + x) ↔ low n (y + z) = 0 := by
  rw [low_eq_iff,low_eq_zero_iff,Nat.cast_add,Nat.cast_add,Nat.cast_add,cast_negative bytes small]
  constructor
  · intro same
    linear_combination same
  · intro opposite
    linear_combination opposite

theorem low_sub_add {x y z : Nat} (bytes : n ≤ 8) (small : y < 2 ^ 64) :
    low n (2 ^ 64 - y + x) = low n (x + z) ↔ low n (y + z) = 0 := by
  rw [eq_comm,low_add_sub bytes small,Nat.add_comm]

theorem low_sub_zero {x y : Nat} (bytes : n ≤ 8) (small : y < 2 ^ 64) :
    low n (2 ^ 64 - y + x) = 0 ↔ low n x = low n y := by
  rw [low_eq_iff,low_eq_zero_iff,Nat.cast_add,cast_negative bytes small,neg_add_eq_zero,eq_comm]

-- The ones of `size` bytes, as fold.rs writes them.
def widthMask (size : UInt32) : UInt64 :=
  if 8 ≤ size then UInt64.ofNat (2 ^ 64 - 1) else (1 <<< (size * 8).toUInt64) - 1

theorem toNat_widthMask (size : UInt32) : (widthMask size).toNat = 2 ^ (8 * min size.toNat 8) - 1 := by
  unfold widthMask
  by_cases wide : 8 ≤ size
  · have bytes : 8 ≤ size.toNat := UInt32.le_iff_toNat_le.mp wide
    rw [if_pos wide,Nat.min_eq_right bytes]
    rfl
  · have bytes : size.toNat < 8 := Nat.lt_of_not_le fun large => wide (UInt32.le_iff_toNat_le.mpr large)
    have named : size = UInt32.ofNat size.toNat := by simp
    rw [if_neg wide]
    generalize size.toNat = k at *
    subst named
    interval_cases k <;> rfl

theorem toNat_and_widthMask (value : UInt64) (size : UInt32) :
    (value &&& widthMask size).toNat = low (min size.toNat 8) value.toNat := by
  rw [UInt64.toNat_and,toNat_widthMask,Nat.and_two_pow_sub_one_eq_mod]
  rfl

end LowBytes

-- The operators whose low bytes depend on little else than low bytes.
def arithmeticKinds : List BinOpKind := [.add,.sub,.mult,.and,.or,.xor,.lsl,.lsr,.asr]

-- The low `n` bytes of what P-code computes from a left operand of `width` bytes into `size` bytes.
def computedLow (kind : BinOpKind) (n width size x y : Nat) : Nat :=
  let kept := min n (min width size)
  match kind with
  | .add => low kept (x + y)
  | .sub => low kept (2 ^ 64 - y + x)
  | .mult => low kept (x * y)
  | .and => low kept (x &&& y)
  | .or => low kept (x ||| y)
  | .xor => low kept (x ^^^ y)
  | .lsl => if y < 8 * width then low kept (x * 2 ^ y) else 0
  | .lsr => if y < 8 * width then low kept (x / 2 ^ y) else 0
  | .asr => low kept ((BitVec.ofNat (8 * width) x).sshiftRight (min y (8 * width))).toNat
  | _ => 0

theorem low_cut (n width size X : Nat) :
    low n (X % 2 ^ (8 * width) % 2 ^ (8 * size)) = low (min n (min width size)) X := by
  change low n (low size (low width X)) = _
  rw [low_low,low_low,Nat.min_comm width,Nat.min_assoc]

theorem evalBinary_low (env : Env) (n : Nat) {width : UInt32} (size : UInt32) (arithmetic : kind ∈ arithmeticKinds)
    (narrow : width.toNat ≤ 8) (leftSmall : x < 2 ^ (8 * width.toNat)) (rightSmall : y < 2 ^ 64) :
    low n (evalBinary env kind.pcode width size x y % 2 ^ (8 * size.toNat)) =
      computedLow kind n width.toNat size.toNat x y := by
  have bits : 8 * width.toNat ≤ 64 := by omega
  have value : x % 2 ^ (8 * width.toNat) = x := Nat.mod_eq_of_lt leftSmall
  cases kind <;> simp [arithmeticKinds] at arithmetic <;> simp only [computedLow,BinOpKind.pcode,evalBinary]
  case add =>
    rw [← low_cut]
    simp
  case sub =>
    rw [← low_cut,sub_mod_pow bits rightSmall]
    simp
  case mult =>
    rw [← low_cut]
    simp
  case and =>
    rw [← low_cut,Nat.and_mod_two_pow]
    simp
  case or =>
    rw [← low_cut,Nat.or_mod_two_pow]
    simp
  case xor =>
    rw [← low_cut,Nat.xor_mod_two_pow]
    simp
  case lsl =>
    by_cases near : y < 8 * width.toNat
    · rw [if_neg (by omega),if_pos near,← low_cut]
      simp [Nat.shiftLeft_eq]
    · rw [if_pos (by omega),if_neg near]
      simp [low]
  case lsr =>
    by_cases near : y < 8 * width.toNat
    · have inside : x / 2 ^ y < 2 ^ (8 * width.toNat) := lt_of_le_of_lt (Nat.div_le_self _ _) leftSmall
      rw [if_neg (by omega),if_pos near,← low_cut,Nat.mod_eq_of_lt inside]
      simp [Nat.shiftRight_eq_div_pow,value]
    · rw [if_pos (by omega),if_neg near]
      simp [low]
  case asr =>
    rw [← low_cut,Nat.mod_eq_of_lt (BitVec.isLt _)]

def computedLowUnary (kind : UnaryOpKind) (n width size x : Nat) : Nat :=
  match kind with
  | .neg => low (min n (min width size)) (2 ^ 64 - x)
  | .not => low (min n (min width size)) (2 ^ 64 - 1 - x)
  | _ => 0

theorem evalUnary_low (env : Env) (n : Nat) {width : UInt32} (size : UInt32) (arithmetic : kind = .neg ∨ kind = .not)
    (narrow : width.toNat ≤ 8) (small : x < 2 ^ (8 * width.toNat)) :
    low n (evalUnary env kind.pcode width size x % 2 ^ (8 * size.toNat)) =
      computedLowUnary kind n width.toNat size.toNat x := by
  have bits : 8 * width.toNat ≤ 64 := by omega
  have fits : x < 2 ^ 64 := lt_of_lt_of_le small (Nat.pow_le_pow_right (by decide) bits)
  cases kind <;> simp at arithmetic <;> simp only [computedLowUnary,UnaryOpKind.pcode,evalUnary]
  case neg =>
    have wrapped := sub_mod_pow (a := 0) bits fits
    rw [Nat.add_zero,Nat.add_zero] at wrapped
    rw [← low_cut,wrapped]
    simp
  case not =>
    have wrapped : (2 ^ 64 - 1 - x) % 2 ^ (8 * width.toNat) = 2 ^ (8 * width.toNat) - 1 - x := by
      have complement := low_complement narrow fits
      rwa [low_eq_self small] at complement
    rw [← low_cut,wrapped]
    simp [Nat.mod_eq_of_lt small]

section Values

variable {env : Env} {vars : List VarDef} {val : VarId → Nat} {v : VarId}

theorem ValuedBelow.within (valued : ValuedBelow env vars val v) : val v < 2 ^ (8 * (varAt vars v).size.toNat) :=
  (valued v .refl).1.within

theorem ValuedBelow.narrow (valued : ValuedBelow env vars val v) : (varAt vars v).size.toNat ≤ 8 :=
  (valued v .refl).2.narrow

theorem ValuedBelow.positive (valued : ValuedBelow env vars val v) : 1 ≤ (varAt vars v).size.toNat :=
  (valued v .refl).2.positive

theorem ValuedBelow.small (valued : ValuedBelow env vars val v) : val v < 2 ^ 64 := by
  have narrow := valued.narrow
  exact lt_of_lt_of_le valued.within (Nat.pow_le_pow_right (by decide) (by omega))

theorem ValuedBelow.ofBinOp (valued : ValuedBelow env vars val v)
    (shape : (varAt vars v).expr = .binOp kind left right) :
    ValuedBelow env vars val left ∧ ValuedBelow env vars val right := by
  constructor
  · exact valued.operand (by simp [UsedBy,shape,Expr.operands])
  · exact valued.operand (by simp [UsedBy,shape,Expr.operands])

theorem ValuedBelow.ofUnaryOp (valued : ValuedBelow env vars val v)
    (shape : (varAt vars v).expr = .unaryOp kind arg) : ValuedBelow env vars val arg :=
  valued.operand (by simp [UsedBy,shape,Expr.operands])

theorem ValuedBelow.keeps (valued : ValuedBelow env vars val v) : KeepsValue env vars val v (varAt vars v).expr :=
  (valued v .refl).1.computed

theorem keeps_some (value : exprValue env vars val (varAt vars v).size expr = some x) :
    KeepsValue env vars val v expr ↔ val v = low (varAt vars v).size.toNat x := by
  unfold KeepsValue
  rw [value]
  simp [low]

theorem keeps_var (u : VarId) : KeepsValue env vars val v (.var u) ↔ val v = low (varAt vars v).size.toNat (val u) :=
  keeps_some rfl

theorem keeps_const (value : UInt64) (size : UInt32) :
    KeepsValue env vars val v (.const value size) ↔ val v = low (varAt vars v).size.toNat value.toNat :=
  keeps_some rfl

theorem keeps_binOp (arithmetic : kind ∈ arithmeticKinds) (valued : ValuedBelow env vars val left)
    (small : val right < 2 ^ 64) :
    KeepsValue env vars val v (.binOp kind left right) ↔
      val v = computedLow kind (varAt vars v).size.toNat (varAt vars left).size.toNat (varAt vars v).size.toNat
        (val left) (val right) := by
  have machine := evalBinary_low env (varAt vars v).size.toNat (varAt vars v).size arithmetic
    valued.narrow valued.within small
  rw [keeps_some rfl,← machine,low_mod (Nat.le_refl _)]

theorem keeps_unaryOp (arithmetic : kind = .neg ∨ kind = .not) (valued : ValuedBelow env vars val arg) :
    KeepsValue env vars val v (.unaryOp kind arg) ↔
      val v = computedLowUnary kind (varAt vars v).size.toNat (varAt vars arg).size.toNat
        (varAt vars v).size.toNat (val arg) := by
  have machine := evalUnary_low env (varAt vars v).size.toNat (varAt vars v).size arithmetic
    valued.narrow valued.within
  rw [keeps_some rfl,← machine,low_mod (Nat.le_refl _)]

theorem value_const (shape : (varAt vars u).expr = .const value size) (valued : ValuedBelow env vars val u) :
    val u = low (varAt vars u).size.toNat value.toNat := by
  have computed := valued.keeps
  rwa [shape,keeps_const] at computed

theorem value_arithmetic (arithmetic : kind ∈ arithmeticKinds) (shape : (varAt vars u).expr = .binOp kind left right)
    (valued : ValuedBelow env vars val u) :
    val u = computedLow kind (varAt vars u).size.toNat (varAt vars left).size.toNat (varAt vars u).size.toNat
      (val left) (val right) := by
  obtain ⟨leftValued,rightValued⟩ := valued.ofBinOp shape
  have whole := valued.keeps
  rw [shape] at whole
  exact (keeps_binOp arithmetic leftValued rightValued.small).mp whole

theorem value_unary (arithmetic : kind = .neg ∨ kind = .not) (shape : (varAt vars u).expr = .unaryOp kind arg)
    (valued : ValuedBelow env vars val u) :
    val u = computedLowUnary kind (varAt vars u).size.toNat (varAt vars arg).size.toNat (varAt vars u).size.toNat
      (val arg) := by
  have whole := valued.keeps
  rw [shape] at whole
  exact (keeps_unaryOp arithmetic (valued.ofUnaryOp shape)).mp whole

theorem low_truth (valued : ValuedBelow env vars val v) (truth : Bool) :
    low (varAt vars v).size.toNat truth.toNat = truth.toNat := by
  have positive := valued.positive
  have room : 2 ^ 8 ≤ 2 ^ (8 * (varAt vars v).size.toNat) := Nat.pow_le_pow_right (by decide) (by omega)
  have bound := truth.toNat_le
  exact low_eq_self (by omega)

theorem value_truth (valued : ValuedBelow env vars val v) (shape : (varAt vars v).expr = .binOp kind left right)
    (truth : evalBinary env kind.pcode (varAt vars left).size (varAt vars v).size (val left) (val right) =
      Bool.toNat answer) : val v = answer.toNat := by
  have whole := valued.keeps
  rw [shape,keeps_some rfl,truth,low_truth valued] at whole
  exact whole

theorem keeps_truth (valued : ValuedBelow env vars val v) (value : val v = Bool.toNat answer) (truth : Bool) :
    KeepsValue env vars val v (.const truth.toUInt64 1) ↔ answer = truth := by
  rw [keeps_const,value,toNat_toUInt64,low_truth valued]
  cases answer <;> cases truth <;> simp

end Values

end Rsleigh.Decompile
