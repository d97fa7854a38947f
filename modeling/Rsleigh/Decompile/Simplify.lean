import Rsleigh.Decompile.LowBytes

namespace Rsleigh.Decompile

open Pcode

-- fold.rs: two variables with the same register slot, whatever their SSA versions.
def sameVarnode (vars : List VarDef) (a b : VarId) : Bool :=
  let va := (varAt vars a).varnode
  let vb := (varAt vars b).varnode
  va.space == .register && vb.space == .register && va.offset == vb.offset && va.size == vb.size

def isConstZero (vars : List VarDef) (id : VarId) : Bool :=
  match (varAt vars id).expr with
  | .const value _ => value == 0
  | _ => false

def isConstOne (vars : List VarDef) (id : VarId) : Bool :=
  match (varAt vars id).expr with
  | .const value _ => value == 1
  | _ => false

def isConstMaskNoop (vars : List VarDef) (valId maskId : VarId) : Bool :=
  match (varAt vars valId).expr, (varAt vars maskId).expr with
  | .const value _, .const mask _ => value &&& mask == value && value != 0
  | _, _ => false

def isConstAllOnes (vars : List VarDef) (id : VarId) : Bool :=
  match (varAt vars id).expr with
  | .const value size => value == widthMask size
  | _ => false

section Rules

variable (vars : List VarDef)

def sameOperand (left right : VarId) : Bool := left == right || sameVarnode vars left right

def simplifyAnd (left right : VarId) : Expr :=
  if sameOperand vars left right then .var left
  else if isConstZero vars right || isConstZero vars left then .const 0 (varAt vars left).size
  else if isConstAllOnes vars right then .var left
  else if isConstAllOnes vars left then .var right
  else if isConstMaskNoop vars left right then .var left
  else match (varAt vars right).expr.binOperands .or with
    | some (l,r) => if l = left ∨ r = left then .var left else .binOp .and left right
    | none => match (varAt vars left).expr.binOperands .or with
      | some (l,r) => if l = right ∨ r = right then .var right else .binOp .and left right
      | none => .binOp .and left right

def simplifyXor (left right : VarId) : Expr :=
  if sameOperand vars left right then .const 0 (varAt vars left).size
  else if isConstZero vars right then .var left
  else if isConstZero vars left then .var right
  else if isConstAllOnes vars right then .unaryOp .not left
  else if isConstAllOnes vars left then .unaryOp .not right
  else .binOp .xor left right

def simplifyOr (left right : VarId) : Expr :=
  if sameOperand vars left right then .var left
  else if isConstZero vars right then .var left
  else if isConstZero vars left then .var right
  else if isConstAllOnes vars right then .var right
  else if isConstAllOnes vars left then .var left
  else .binOp .or left right

def simplifyAdd (left right : VarId) : Expr :=
  if isConstZero vars right then .var left
  else if isConstZero vars left then .var right
  -- "approximate as shift": by the operand itself.
  else if sameOperand vars left right then .binOp .lsl left right
  else match (varAt vars right).expr.unaryOperand .neg with
    | some y => .binOp .sub left y
    | none => match (varAt vars left).expr.unaryOperand .neg with
      | some y => .binOp .sub right y
      | none => .binOp .add left right

def simplifySub (left right : VarId) : Expr :=
  if isConstZero vars right then .var left
  else if sameOperand vars left right then .const 0 (varAt vars left).size
  else if isConstZero vars left then .unaryOp .neg right
  else match (varAt vars right).expr.unaryOperand .neg with
    | some y => .binOp .add left y
    | none => .binOp .sub left right

def simplifyMult (left right : VarId) : Expr :=
  if isConstOne vars right then .var left
  else if isConstOne vars left then .var right
  else if isConstZero vars right then .const 0 (varAt vars left).size
  else if isConstZero vars left then .const 0 (varAt vars right).size
  else .binOp .mult left right

-- Lsr, Lsl and Asr.
def simplifyShift (kind : BinOpKind) (left right : VarId) : Expr :=
  if isConstZero vars right then .var left else .binOp kind left right

-- Div and SDiv.
def simplifyDiv (kind : BinOpKind) (left right : VarId) : Expr :=
  if isConstOne vars right then .var left else .binOp kind left right

-- Rem and SRem.
def simplifyRem (kind : BinOpKind) (left right : VarId) : Expr :=
  if isConstOne vars right then .const 0 (varAt vars left).size else .binOp kind left right

def simplifyBoolAnd (left right : VarId) : Expr :=
  if sameOperand vars left right then .var left
  else if isConstZero vars right || isConstZero vars left then .const 0 1
  else if isConstOne vars right then .var left
  else if isConstOne vars left then .var right
  else .binOp .boolAnd left right

def simplifyBoolOr (left right : VarId) : Expr :=
  if sameOperand vars left right then .var left
  else if isConstZero vars right then .var left
  else if isConstZero vars left then .var right
  else if isConstOne vars right || isConstOne vars left then .const 1 1
  else .binOp .boolOr left right

def simplifyBoolXor (left right : VarId) : Expr :=
  if sameOperand vars left right then .const 0 1
  else if isConstZero vars right then .var left
  else if isConstZero vars left then .var right
  else .binOp .boolXor left right

-- A comparison of a variable with itself.
def simplifyReflexive (kind : BinOpKind) (answer : UInt64) (left right : VarId) : Expr :=
  if sameOperand vars left right then .const answer 1 else .binOp kind left right

def simplifyNot (arg : VarId) : Expr :=
  match (varAt vars arg).expr.unaryOperand .not with
  | some x => .var x
  | none => .unaryOp .not arg

def simplifyNeg (arg : VarId) : Expr :=
  match (varAt vars arg).expr.unaryOperand .neg, (varAt vars arg).expr.binOperands .sub with
  | some x, _ => .var x
  | none, some (a,b) => .binOp .sub b a
  | none, none => .unaryOp .neg arg

def simplifyBoolNot (arg : VarId) : Expr :=
  match (varAt vars arg).expr.unaryOperand .boolNot with
  | some x => .var x
  | none => .unaryOp .boolNot arg

end Rules

-- fold.rs
def simplifyExpr (expr : Expr) (vars : List VarDef) : Expr :=
  match expr with
  | .binOp .and left right => simplifyAnd vars left right
  | .binOp .xor left right => simplifyXor vars left right
  | .binOp .or left right => simplifyOr vars left right
  | .binOp .add left right => simplifyAdd vars left right
  | .binOp .sub left right => simplifySub vars left right
  | .binOp .mult left right => simplifyMult vars left right
  | .binOp .lsr left right => simplifyShift vars .lsr left right
  | .binOp .lsl left right => simplifyShift vars .lsl left right
  | .binOp .asr left right => simplifyShift vars .asr left right
  | .binOp .div left right => simplifyDiv vars .div left right
  | .binOp .sdiv left right => simplifyDiv vars .sdiv left right
  | .binOp .rem left right => simplifyRem vars .rem left right
  | .binOp .srem left right => simplifyRem vars .srem left right
  | .binOp .boolAnd left right => simplifyBoolAnd vars left right
  | .binOp .boolOr left right => simplifyBoolOr vars left right
  | .binOp .boolXor left right => simplifyBoolXor vars left right
  | .binOp .eq left right => simplifyReflexive vars .eq 1 left right
  | .binOp .notEq left right => simplifyReflexive vars .notEq 0 left right
  | .binOp .less left right => simplifyReflexive vars .less 0 left right
  | .binOp .sless left right => simplifyReflexive vars .sless 0 left right
  | .binOp .lessEq left right => simplifyReflexive vars .lessEq 1 left right
  | .binOp .slessEq left right => simplifyReflexive vars .slessEq 1 left right
  | .unaryOp .not arg => simplifyNot vars arg
  | .unaryOp .neg arg => simplifyNeg vars arg
  | .unaryOp .boolNot arg => simplifyBoolNot vars arg
  | expr => expr

-- `fold_once`, pass 2, for one variable.
def simplifyAt (vars : List VarDef) (v : VarId) : List VarDef :=
  rewriteExpr vars v (simplifyExpr (varAt vars v).expr vars)

section Conditions

variable (vars : List VarDef) (val : VarId → Nat)

-- The bytes of a variable that an operation on `left` fills.
def kept (v left : VarId) : Nat := min (varAt vars v).size.toNat (varAt vars left).size.toNat

-- How far up the ones of an all-ones constant go.
def onesBytes (id : VarId) : Nat :=
  match (varAt vars id).expr with
  | .const _ size => min (min size.toNat 8) (varAt vars id).size.toNat
  | _ => 0

-- Where each rule keeps the value. Operands that are one by their register slot have to agree as far as the operator
-- looks; one that takes the place of the operation must not be cut by it; a mask of ones must reach as far as the
-- operand; a truth value is 0 or 1.
def AndKeeps (v left right : VarId) : Prop :=
  let size := (varAt vars v).size.toNat
  let n := kept vars v left
  let x := val left
  let y := val right
  if sameOperand vars left right then left ≠ right → low n (x &&& y) = low n x
  else if isConstZero vars right || isConstZero vars left then True
  else if isConstAllOnes vars right then low (min n (onesBytes vars right)) x = low n x
  else if isConstAllOnes vars left then low (min n (onesBytes vars left)) y = low size y
  else if isConstMaskNoop vars left right then low (min n (varAt vars right).size.toNat) x = low n x
  else match (varAt vars right).expr.binOperands .or with
    | some (l,r) => l = left ∨ r = left → low (min n (kept vars right l)) x = low n x
    | none => match (varAt vars left).expr.binOperands .or with
      | some (l,r) => l = right ∨ r = right → low (min n (kept vars left l)) y = low size y
      | none => True

def XorKeeps (v left right : VarId) : Prop :=
  let size := (varAt vars v).size.toNat
  let n := kept vars v left
  let x := val left
  let y := val right
  if sameOperand vars left right then left ≠ right → low n x = low n y
  else if isConstZero vars right then True
  else if isConstZero vars left then low n y = low size y
  else if isConstAllOnes vars right then n ≤ onesBytes vars right
  else if isConstAllOnes vars left then low n (x ^^^ y) = low (kept vars v right) (2 ^ 64 - 1 - y)
  else True

def OrKeeps (v left right : VarId) : Prop :=
  let size := (varAt vars v).size.toNat
  let n := kept vars v left
  let x := val left
  let y := val right
  if sameOperand vars left right then left ≠ right → low n (x ||| y) = low n x
  else if isConstZero vars right then True
  else if isConstZero vars left then low n y = low size y
  else if isConstAllOnes vars right then low n (x ||| y) = low size y
  else if isConstAllOnes vars left then low n (x ||| y) = low n x
  else True

-- x + x as a shift of x by x is right for 1, and where both are 0.
def AddKeeps (v left right : VarId) : Prop :=
  let size := (varAt vars v).size.toNat
  let n := kept vars v left
  let x := val left
  let y := val right
  if isConstZero vars right then True
  else if isConstZero vars left then low n y = low size y
  else if sameOperand vars left right then
    if left = right then x = 1 ∨ low n (2 * x) = 0
    else low n (x + y) = computedLow .lsl size (varAt vars left).size.toNat size x y
  else match (varAt vars right).expr.unaryOperand .neg with
    | some negated => low n (y + val negated) = 0
    | none => match (varAt vars left).expr.unaryOperand .neg with
      | some negated => low n (x + y) = low (kept vars v right) (2 ^ 64 - val negated + y)
      | none => True

def SubKeeps (v left right : VarId) : Prop :=
  let n := kept vars v left
  let x := val left
  let y := val right
  if isConstZero vars right then True
  else if sameOperand vars left right then left ≠ right → low n x = low n y
  else if isConstZero vars left then low n (2 ^ 64 - y) = low (kept vars v right) (2 ^ 64 - y)
  else match (varAt vars right).expr.unaryOperand .neg with
    | some negated => low n (y + val negated) = 0
    | none => True

def MultKeeps (v left right : VarId) : Prop :=
  if isConstOne vars right then True
  else if isConstOne vars left then low (kept vars v left) (val right) = low (varAt vars v).size.toNat (val right)
  else True

def IsTruth (v u : VarId) : Prop := low (varAt vars v).size.toNat (val u) = (val u != 0).toNat

def BoolAndKeeps (v left right : VarId) : Prop :=
  let size := (varAt vars v).size.toNat
  if sameOperand vars left right then low size (val left) = (val left != 0 && val right != 0).toNat
  else if isConstZero vars right || isConstZero vars left then True
  else if isConstOne vars right then IsTruth vars val v left
  else if isConstOne vars left then IsTruth vars val v right
  else True

def BoolOrKeeps (v left right : VarId) : Prop :=
  let size := (varAt vars v).size.toNat
  if sameOperand vars left right then low size (val left) = (val left != 0 || val right != 0).toNat
  else if isConstZero vars right then IsTruth vars val v left
  else if isConstZero vars left then IsTruth vars val v right
  else True

def BoolXorKeeps (v left right : VarId) : Prop :=
  if sameOperand vars left right then left ≠ right → (val left != 0) = (val right != 0)
  else if isConstZero vars right then IsTruth vars val v left
  else if isConstZero vars left then IsTruth vars val v right
  else True

-- Two versions of one register have to compare as one value would.
def CompareKeeps (kind : BinOpKind) (left right : VarId) : Prop :=
  let width := (varAt vars left).size.toNat
  let x := val left
  let y := val right
  sameVarnode vars left right = true → left ≠ right →
    match kind with
    | .eq | .notEq => x = low width y
    | .less => low width y ≤ x
    | .lessEq => x ≤ low width y
    | .sless => (BitVec.ofNat (8 * width) y).toInt ≤ (BitVec.ofNat (8 * width) x).toInt
    | .slessEq => (BitVec.ofNat (8 * width) x).toInt ≤ (BitVec.ofNat (8 * width) y).toInt
    | _ => True

def NotKeeps (v arg : VarId) : Prop :=
  match (varAt vars arg).expr.unaryOperand .not with
  | some x =>
    kept vars v arg ≤ (varAt vars x).size.toNat ∧
      low (kept vars v arg) (val x) = low (varAt vars v).size.toNat (val x)
  | none => True

def NegKeeps (v arg : VarId) : Prop :=
  match (varAt vars arg).expr.unaryOperand .neg, (varAt vars arg).expr.binOperands .sub with
  | some x, _ => low (kept vars v arg) (2 ^ 64 - val arg) = low (varAt vars v).size.toNat (val x)
  | none, some (a,b) =>
    low (kept vars v arg) (2 ^ 64 - val arg) = low (kept vars v b) (2 ^ 64 - val a + val b)
  | none, none => True

def BoolNotKeeps (v arg : VarId) : Prop :=
  match (varAt vars arg).expr.unaryOperand .boolNot with
  | some x => IsTruth vars val v x
  | none => True

def SimplifyKeeps (v : VarId) : Prop :=
  match (varAt vars v).expr with
  | .binOp .and left right => AndKeeps vars val v left right
  | .binOp .xor left right => XorKeeps vars val v left right
  | .binOp .or left right => OrKeeps vars val v left right
  | .binOp .add left right => AddKeeps vars val v left right
  | .binOp .sub left right => SubKeeps vars val v left right
  | .binOp .mult left right => MultKeeps vars val v left right
  | .binOp .boolAnd left right => BoolAndKeeps vars val v left right
  | .binOp .boolOr left right => BoolOrKeeps vars val v left right
  | .binOp .boolXor left right => BoolXorKeeps vars val v left right
  | .binOp kind left right => CompareKeeps vars val kind left right
  | .unaryOp .not arg => NotKeeps vars val v arg
  | .unaryOp .neg arg => NegKeeps vars val v arg
  | .unaryOp .boolNot arg => BoolNotKeeps vars val v arg
  | _ => True

end Conditions

section Bits

theorem and_absorb (m x z : Nat) : x &&& low m (x ||| z) = low m x := by
  unfold low
  apply Nat.eq_of_testBit_eq
  intro i
  simp only [Nat.testBit_and,Nat.testBit_mod_two_pow,Nat.testBit_or]
  cases x.testBit i <;> simp

theorem masked_low {c mask : UInt64} (noop : c &&& mask = c) (n m : Nat) :
    low n c.toNat &&& low m mask.toNat = low m (low n c.toNat) := by
  have values := congrArg UInt64.toNat noop
  rw [UInt64.toNat_and] at values
  unfold low
  apply Nat.eq_of_testBit_eq
  intro i
  have bit := congrArg (Nat.testBit · i) values
  simp only [Nat.testBit_and,Nat.testBit_mod_two_pow] at bit ⊢
  cases set : c.toNat.testBit i <;> simp_all [Bool.and_comm]

theorem double_eq_shift (x : Nat) : low n (x + x) = low n (x * 2 ^ x) ↔ x = 1 ∨ low n (2 * x) = 0 := by
  rcases Nat.lt_or_ge x 2 with few | many
  · have cases_ : x = 0 ∨ x = 1 := by omega
    rcases cases_ with rfl | rfl
    · simp [low]
    · simp
  · obtain ⟨k,rfl⟩ : ∃ k, x = k + 2 := ⟨x - 2,by omega⟩
    have split : (k + 2) * 2 ^ (k + 2) = 2 * (k + 2) * 2 ^ (k + 1) := by ring
    have more : 2 * (k + 2) ≤ 2 * (k + 2) * 2 ^ (k + 1) := Nat.le_mul_of_pos_right _ (by positivity)
    have difference : 2 * (k + 2) * 2 ^ (k + 1) - 2 * (k + 2) = 2 * (k + 2) * (2 ^ (k + 1) - 1) := by
      rw [Nat.mul_sub_one]
    have odd : Nat.Coprime (2 ^ (8 * n)) (2 ^ (k + 1) - 1) := by
      refine Nat.Coprime.pow_left _ (Nat.coprime_two_left.mpr ?_)
      exact Nat.Even.sub_odd Nat.one_le_two_pow (by simp [Nat.pow_succ]) odd_one
    rw [← Nat.two_mul,split]
    constructor
    · intro same
      have divides := (Nat.modEq_iff_dvd' more).mp same
      rw [difference] at divides
      exact .inr (Nat.mod_eq_zero_of_dvd (odd.dvd_of_dvd_mul_right divides))
    · rintro (one | zero)
      · omega
      · have divides := Nat.dvd_of_mod_eq_zero zero
        rw [zero]
        exact (Nat.mod_eq_zero_of_dvd (divides.mul_right _)).symm

-- The complement of a complement that was cut to `width` bytes.
theorem low_twice_complement {x arg : Nat} (bytes : k ≤ 8) (fits : x < 2 ^ (8 * width)) (cut : k ≤ own)
    (small : x < 2 ^ 64) (innerSmall : arg < 2 ^ 64)
    (innerValue : arg = low (min own width) (2 ^ 64 - 1 - x)) :
    low k (2 ^ 64 - 1 - arg) = low size x ↔ k ≤ width ∧ low k x = low size x := by
  by_cases covered : k ≤ width
  · have same : low k (2 ^ 64 - 1 - arg) = low k x := by
      have innerLow : low k arg = low k (2 ^ 64 - 1 - x) := by
        rw [innerValue,low_low]
        congr 1
        omega
      rw [low_eq_iff,cast_complement bytes small] at innerLow
      rw [low_eq_iff,cast_complement bytes innerSmall]
      linear_combination -innerLow
    rw [same,and_iff_right covered]
  · -- Bit 8 * width is set on the left only.
    refine iff_of_false (fun same => ?_) (fun both => covered both.1)
    have bit := congrArg (Nat.testBit · (8 * width)) same
    have innerClear : arg.testBit (8 * width) = false := by
      have bytes : 8 * min own width ≤ 8 * width := Nat.mul_le_mul_left 8 (Nat.min_le_right own width)
      have bound : arg < 2 ^ (8 * min own width) := by
        rw [innerValue]
        exact Nat.mod_lt _ (by positivity)
      exact Nat.testBit_lt_two_pow (bound.trans_le (Nat.pow_le_pow_right (by decide) bytes))
    have xClear : x.testBit (8 * width) = false := Nat.testBit_lt_two_pow fits
    have inside : 8 * width < 8 * k := by omega
    have wide : 8 * width < 64 := by omega
    unfold low at bit
    simp only [Nat.testBit_mod_two_pow,testBit_complement innerSmall,innerClear,xClear,inside,wide] at bit
    simp at bit

end Bits

section Rewrites

variable {env : Env} {vars : List VarDef} {val : VarId → Nat} {v : VarId}

theorem min_kept (v left : VarId) :
    min (varAt vars v).size.toNat (min (varAt vars left).size.toNat (varAt vars v).size.toNat) = kept vars v left := by
  unfold kept
  omega

theorem low_left (valued : ValuedBelow env vars val left) (v : VarId) :
    low (varAt vars v).size.toNat (val left) = low (kept vars v left) (val left) := by
  conv_lhs => rw [← low_eq_self valued.within]
  exact low_low ..

theorem value_zero (zero : isConstZero vars u = true) (valued : ValuedBelow env vars val u) : val u = 0 := by
  unfold isConstZero at zero
  split at zero
  · rename_i value size shape
    rw [value_const shape valued,eq_of_beq zero]
    simp [low]
  · cases zero

theorem value_one (one : isConstOne vars u = true) (valued : ValuedBelow env vars val u) : val u = 1 := by
  have positive := valued.positive
  unfold isConstOne at one
  split at one
  · rename_i value size shape
    rw [value_const shape valued,eq_of_beq one]
    exact Nat.mod_eq_of_lt (Nat.one_lt_two_pow (by omega))
  · cases one

theorem value_ones (ones : isConstAllOnes vars u = true) (valued : ValuedBelow env vars val u) :
    val u = 2 ^ (8 * onesBytes vars u) - 1 := by
  unfold isConstAllOnes at ones
  unfold onesBytes
  split at ones
  · rename_i value size shape
    rw [value_const shape valued,eq_of_beq ones,toNat_widthMask,low_ones]
  · cases ones

theorem value_or (shape : (varAt vars u).expr = .binOp .or left right) (valued : ValuedBelow env vars val u) :
    val u = low (kept vars u left) (val left ||| val right) := by
  have value := value_arithmetic (by simp [arithmeticKinds]) shape valued
  rwa [computedLow,min_kept] at value

theorem low_absorb (shape : (varAt vars u).expr = .binOp .or left right) (valued : ValuedBelow env vars val u)
    (n : Nat) :
    low n (val left &&& val u) = low (min n (kept vars u left)) (val left) ∧
      low n (val right &&& val u) = low (min n (kept vars u left)) (val right) := by
  rw [value_or shape valued,and_absorb,Nat.or_comm,and_absorb]
  exact ⟨low_low ..,low_low ..⟩

theorem simplifyAnd_keeps (valued : ValuedBelow env vars val v) (shape : (varAt vars v).expr = .binOp .and left right) :
    KeepsValue env vars val v (simplifyAnd vars left right) ↔ AndKeeps vars val v left right := by
  obtain ⟨leftValued,rightValued⟩ := valued.ofBinOp shape
  have whole := valued.keeps
  rw [shape] at whole
  have value := value_arithmetic (by simp [arithmeticKinds]) shape valued
  simp only [computedLow,min_kept] at value
  have lowLeft := low_left leftValued v
  simp only [simplifyAnd,AndKeeps]
  split_ifs with same zero onesRight onesLeft noop
  · rw [keeps_var,value,lowLeft]
    refine ⟨fun kept _ => kept,fun kept => ?_⟩
    by_cases one : left = right
    · rw [one,Nat.and_self]
    · exact kept one
  · have nothing : val left &&& val right = 0 := by
      rcases Bool.or_eq_true_iff.mp zero with zero | zero
      · rw [value_zero zero rightValued,Nat.and_zero]
      · rw [value_zero zero leftValued,Nat.zero_and]
    rw [keeps_const,value,nothing]
    simp [low]
  · rw [keeps_var,value,lowLeft,value_ones onesRight rightValued,low_and_ones]
  · rw [keeps_var,value,value_ones onesLeft leftValued,Nat.and_comm,low_and_ones]
  · unfold isConstMaskNoop at noop
    split at noop
    · rename_i c size mask size' leftShape rightShape
      have masked := masked_low (eq_of_beq (Bool.and_eq_true_iff.mp noop).1)
      rw [keeps_var,value,lowLeft,value_const rightShape rightValued,value_const leftShape leftValued,masked,low_low]
    · cases noop
  · split
    · rename_i l r found
      have absorbed := low_absorb (Expr.binOperands_eq found) rightValued (kept vars v left)
      by_cases operand : l = left ∨ r = left
      · rw [if_pos operand,keeps_var,value,lowLeft]
        rcases operand with rfl | rfl
        · simp [absorbed.1]
        · simp [absorbed.2]
      · simpa [operand] using whole
    · split
      · rename_i l r found
        have absorbed := low_absorb (Expr.binOperands_eq found) leftValued (kept vars v left)
        rw [Nat.and_comm (val l),Nat.and_comm (val r)] at absorbed
        by_cases operand : l = right ∨ r = right
        · rw [if_pos operand,keeps_var,value]
          rcases operand with rfl | rfl
          · simp [absorbed.1]
          · simp [absorbed.2]
        · simpa [operand] using whole
      · simpa using whole

theorem simplifyXor_keeps (valued : ValuedBelow env vars val v) (shape : (varAt vars v).expr = .binOp .xor left right) :
    KeepsValue env vars val v (simplifyXor vars left right) ↔ XorKeeps vars val v left right := by
  obtain ⟨leftValued,rightValued⟩ := valued.ofBinOp shape
  have whole := valued.keeps
  rw [shape] at whole
  have value := value_arithmetic (by simp [arithmeticKinds]) shape valued
  simp only [computedLow,min_kept] at value
  have lowLeft := low_left leftValued v
  have bytes : kept vars v left ≤ 8 := (Nat.min_le_right _ _).trans leftValued.narrow
  simp only [simplifyXor,XorKeeps]
  split_ifs with same zeroRight zeroLeft onesRight onesLeft
  · rw [keeps_const,value]
    change low _ _ = low _ 0 ↔ _
    rw [low_eq_self (x := 0) (by positivity),low_xor_eq_zero]
    refine ⟨fun equal _ => equal,fun equal => ?_⟩
    by_cases one : left = right
    · rw [one]
    · exact equal one
  · rw [keeps_var,value,lowLeft,value_zero zeroRight rightValued,Nat.xor_zero]
    exact iff_true_intro rfl
  · rw [keeps_var,value,value_zero zeroLeft leftValued,Nat.zero_xor]
  · rw [keeps_unaryOp (.inr rfl) leftValued,computedLowUnary,min_kept,value,value_ones onesRight rightValued]
    exact low_xor_ones bytes leftValued.small
  · rw [keeps_unaryOp (.inr rfl) rightValued,computedLowUnary,min_kept,value]
  · exact iff_true_intro whole

theorem simplifyOr_keeps (valued : ValuedBelow env vars val v) (shape : (varAt vars v).expr = .binOp .or left right) :
    KeepsValue env vars val v (simplifyOr vars left right) ↔ OrKeeps vars val v left right := by
  obtain ⟨leftValued,rightValued⟩ := valued.ofBinOp shape
  have whole := valued.keeps
  rw [shape] at whole
  have value := value_or shape valued
  have lowLeft := low_left leftValued v
  simp only [simplifyOr,OrKeeps]
  split_ifs with same zeroRight zeroLeft onesRight onesLeft
  · rw [keeps_var,value,lowLeft]
    refine ⟨fun kept _ => kept,fun kept => ?_⟩
    by_cases one : left = right
    · rw [one,Nat.or_self]
    · exact kept one
  · rw [keeps_var,value,lowLeft,value_zero zeroRight rightValued,Nat.or_zero]
    exact iff_true_intro rfl
  · rw [keeps_var,value,value_zero zeroLeft leftValued,Nat.zero_or]
  · rw [keeps_var,value]
  · rw [keeps_var,value,lowLeft]
  · exact iff_true_intro whole

theorem simplifyAdd_keeps (valued : ValuedBelow env vars val v) (shape : (varAt vars v).expr = .binOp .add left right) :
    KeepsValue env vars val v (simplifyAdd vars left right) ↔ AddKeeps vars val v left right := by
  obtain ⟨leftValued,rightValued⟩ := valued.ofBinOp shape
  have whole := valued.keeps
  rw [shape] at whole
  have value := value_arithmetic (by simp [arithmeticKinds]) shape valued
  simp only [computedLow,min_kept] at value
  have lowLeft := low_left leftValued v
  have bytes : kept vars v left ≤ 8 := (Nat.min_le_right _ _).trans leftValued.narrow
  simp only [simplifyAdd,AddKeeps]
  split_ifs with zeroRight zeroLeft same one
  · rw [keeps_var,value,lowLeft,value_zero zeroRight rightValued,Nat.add_zero]
    exact iff_true_intro rfl
  · rw [keeps_var,value,value_zero zeroLeft leftValued,Nat.zero_add]
  · subst one
    rw [keeps_binOp (by simp [arithmeticKinds]) leftValued rightValued.small,value,computedLow,min_kept]
    have width := leftValued.positive
    split_ifs with near
    · exact double_eq_shift _
    · rw [← Nat.two_mul]
      have wide : val left ≠ 1 := by omega
      simp [wide]
  · rw [keeps_binOp (by simp [arithmeticKinds]) leftValued rightValued.small,value]
  · split
    · rename_i negated found
      have negatedValued := rightValued.ofUnaryOp (Expr.unaryOperand_eq found)
      rw [keeps_binOp (by simp [arithmeticKinds]) leftValued negatedValued.small,value,computedLow,min_kept]
      exact low_add_sub bytes negatedValued.small
    · split
      · rename_i negated found
        have negatedValued := leftValued.ofUnaryOp (Expr.unaryOperand_eq found)
        rw [keeps_binOp (by simp [arithmeticKinds]) rightValued negatedValued.small,value,computedLow,min_kept]
      · exact iff_true_intro whole

theorem simplifySub_keeps (valued : ValuedBelow env vars val v) (shape : (varAt vars v).expr = .binOp .sub left right) :
    KeepsValue env vars val v (simplifySub vars left right) ↔ SubKeeps vars val v left right := by
  obtain ⟨leftValued,rightValued⟩ := valued.ofBinOp shape
  have whole := valued.keeps
  rw [shape] at whole
  have value := value_arithmetic (by simp [arithmeticKinds]) shape valued
  simp only [computedLow,min_kept] at value
  have lowLeft := low_left leftValued v
  have bytes : kept vars v left ≤ 8 := (Nat.min_le_right _ _).trans leftValued.narrow
  simp only [simplifySub,SubKeeps]
  split_ifs with zeroRight same zeroLeft
  · rw [keeps_var,value,lowLeft,value_zero zeroRight rightValued]
    have nothing : low (kept vars v left) (2 ^ 64 - 0 + val left) = low (kept vars v left) (val left + 0) :=
      (low_sub_add bytes (by decide)).mpr (Nat.zero_mod _)
    exact iff_true_intro nothing
  · rw [keeps_const,value]
    change low _ _ = low _ 0 ↔ _
    rw [low_eq_self (x := 0) (by positivity),low_sub_zero bytes rightValued.small]
    refine ⟨fun equal _ => equal,fun equal => ?_⟩
    by_cases one : left = right
    · rw [one]
    · exact equal one
  · rw [keeps_unaryOp (.inl rfl) rightValued,computedLowUnary,min_kept,value,value_zero zeroLeft leftValued,
      Nat.add_zero]
  · split
    · rename_i negated found
      have negatedValued := rightValued.ofUnaryOp (Expr.unaryOperand_eq found)
      rw [keeps_binOp (by simp [arithmeticKinds]) leftValued negatedValued.small,value,computedLow,min_kept]
      exact low_sub_add bytes rightValued.small
    · exact iff_true_intro whole

theorem simplifyMult_keeps (valued : ValuedBelow env vars val v)
    (shape : (varAt vars v).expr = .binOp .mult left right) :
    KeepsValue env vars val v (simplifyMult vars left right) ↔ MultKeeps vars val v left right := by
  obtain ⟨leftValued,rightValued⟩ := valued.ofBinOp shape
  have whole := valued.keeps
  rw [shape] at whole
  have value := value_arithmetic (by simp [arithmeticKinds]) shape valued
  simp only [computedLow,min_kept] at value
  have lowLeft := low_left leftValued v
  unfold simplifyMult MultKeeps
  by_cases oneRight : isConstOne vars right = true
  · rw [if_pos oneRight,if_pos oneRight,keeps_var,value,lowLeft,value_one oneRight rightValued,Nat.mul_one]
    exact iff_true_intro rfl
  rw [if_neg oneRight,if_neg oneRight]
  by_cases oneLeft : isConstOne vars left = true
  · rw [if_pos oneLeft,if_pos oneLeft,keeps_var,value,value_one oneLeft leftValued,Nat.one_mul]
  rw [if_neg oneLeft,if_neg oneLeft]
  split_ifs with zeroRight zeroLeft
  · rw [keeps_const,value,value_zero zeroRight rightValued]
    simp [low]
  · rw [keeps_const,value,value_zero zeroLeft leftValued]
    simp [low]
  · exact iff_true_intro whole

theorem simplifyShift_keeps (valued : ValuedBelow env vars val v) (shift : kind ∈ [.lsl,.lsr,.asr])
    (shape : (varAt vars v).expr = .binOp kind left right) :
    KeepsValue env vars val v (simplifyShift vars kind left right) := by
  obtain ⟨leftValued,rightValued⟩ := valued.ofBinOp shape
  have whole := valued.keeps
  rw [shape] at whole
  unfold simplifyShift
  split_ifs with zero
  · have width := leftValued.positive
    rw [keeps_some rfl,value_zero zero rightValued] at whole
    rw [keeps_var,whole]
    have identity : evalBinary env kind.pcode (varAt vars left).size (varAt vars v).size (val left) 0 = val left := by
      simp only [List.mem_cons,List.not_mem_nil,or_false] at shift
      rcases shift with rfl | rfl | rfl
      · simp [BinOpKind.pcode,evalBinary,Nat.mod_eq_of_lt leftValued.within]
        omega
      · simp [BinOpKind.pcode,evalBinary,Nat.mod_eq_of_lt leftValued.within]
        omega
      · simp [BinOpKind.pcode,evalBinary,Nat.mod_eq_of_lt leftValued.within]
    rw [identity]
  · exact whole

theorem simplifyDiv_keeps (valued : ValuedBelow env vars val v) (division : kind ∈ [.div,.sdiv])
    (shape : (varAt vars v).expr = .binOp kind left right) :
    KeepsValue env vars val v (simplifyDiv vars kind left right) := by
  obtain ⟨leftValued,rightValued⟩ := valued.ofBinOp shape
  have whole := valued.keeps
  rw [shape] at whole
  unfold simplifyDiv
  split_ifs with one
  · rw [keeps_some rfl,value_one one rightValued] at whole
    rw [keeps_var,whole]
    have identity : evalBinary env kind.pcode (varAt vars left).size (varAt vars v).size (val left) 1 = val left := by
      simp only [List.mem_cons,List.not_mem_nil,or_false] at division
      rcases division with rfl | rfl
      · simp [BinOpKind.pcode,evalBinary,Nat.mod_eq_of_lt leftValued.within,BitVec.udiv_one]
      · simp [BinOpKind.pcode,evalBinary,Nat.mod_eq_of_lt leftValued.within,BitVec.sdiv_one]
    rw [identity]
  · exact whole

theorem simplifyRem_keeps (valued : ValuedBelow env vars val v) (remainder : kind ∈ [.rem,.srem])
    (shape : (varAt vars v).expr = .binOp kind left right) :
    KeepsValue env vars val v (simplifyRem vars kind left right) := by
  obtain ⟨leftValued,rightValued⟩ := valued.ofBinOp shape
  have whole := valued.keeps
  rw [shape] at whole
  unfold simplifyRem
  split_ifs with one
  · rw [keeps_some rfl,value_one one rightValued] at whole
    rw [keeps_const,whole]
    have nothing : evalBinary env kind.pcode (varAt vars left).size (varAt vars v).size (val left) 1 = 0 := by
      simp only [List.mem_cons,List.not_mem_nil,or_false] at remainder
      rcases remainder with rfl | rfl
      · simp [BinOpKind.pcode,evalBinary]
      · simp [BinOpKind.pcode,evalBinary]
    rw [nothing]
    rfl
  · exact whole

theorem simplifyBoolAnd_keeps (valued : ValuedBelow env vars val v)
    (shape : (varAt vars v).expr = .binOp .boolAnd left right) :
    KeepsValue env vars val v (simplifyBoolAnd vars left right) ↔ BoolAndKeeps vars val v left right := by
  obtain ⟨leftValued,rightValued⟩ := valued.ofBinOp shape
  have whole := valued.keeps
  rw [shape] at whole
  have value : val v = (val left != 0 && val right != 0).toNat := value_truth valued shape rfl
  unfold simplifyBoolAnd BoolAndKeeps IsTruth
  split_ifs with same zero oneRight oneLeft
  · rw [keeps_var,value,eq_comm]
  · have nothing : (val left != 0 && val right != 0) = false := by
      rcases Bool.or_eq_true_iff.mp zero with zero | zero
      · simp [value_zero zero rightValued]
      · simp [value_zero zero leftValued]
    exact iff_true_intro ((keeps_truth valued value false).mpr nothing)
  · rw [keeps_var,value,value_one oneRight rightValued,eq_comm]
    simp
  · rw [keeps_var,value,value_one oneLeft leftValued,eq_comm]
    simp
  · exact iff_true_intro whole

theorem simplifyBoolOr_keeps (valued : ValuedBelow env vars val v)
    (shape : (varAt vars v).expr = .binOp .boolOr left right) :
    KeepsValue env vars val v (simplifyBoolOr vars left right) ↔ BoolOrKeeps vars val v left right := by
  obtain ⟨leftValued,rightValued⟩ := valued.ofBinOp shape
  have whole := valued.keeps
  rw [shape] at whole
  have value : val v = (val left != 0 || val right != 0).toNat := value_truth valued shape rfl
  unfold simplifyBoolOr BoolOrKeeps IsTruth
  split_ifs with same zeroRight zeroLeft one
  · rw [keeps_var,value,eq_comm]
  · rw [keeps_var,value,value_zero zeroRight rightValued,eq_comm]
    simp
  · rw [keeps_var,value,value_zero zeroLeft leftValued,eq_comm]
    simp
  · have something : (val left != 0 || val right != 0) = true := by
      rcases Bool.or_eq_true_iff.mp one with one | one
      · simp [value_one one rightValued]
      · simp [value_one one leftValued]
    exact iff_true_intro ((keeps_truth valued value true).mpr something)
  · exact iff_true_intro whole

theorem simplifyBoolXor_keeps (valued : ValuedBelow env vars val v)
    (shape : (varAt vars v).expr = .binOp .boolXor left right) :
    KeepsValue env vars val v (simplifyBoolXor vars left right) ↔ BoolXorKeeps vars val v left right := by
  obtain ⟨leftValued,rightValued⟩ := valued.ofBinOp shape
  have whole := valued.keeps
  rw [shape] at whole
  have value : val v = ((val left != 0) ^^ (val right != 0)).toNat := value_truth valued shape rfl
  unfold simplifyBoolXor BoolXorKeeps IsTruth
  split_ifs with same zeroRight zeroLeft
  · refine (keeps_truth valued value false).trans ⟨fun equal _ => ?_,fun equal => ?_⟩
    · simpa using equal
    · by_cases one : left = right
      · simp [one]
      · simpa using equal one
  · rw [keeps_var,value,value_zero zeroRight rightValued,eq_comm]
    simp
  · rw [keeps_var,value,value_zero zeroLeft leftValued,eq_comm]
    simp
  · exact iff_true_intro whole

-- The answer of a comparison of a value with itself.
def reflexiveAnswer : BinOpKind → Bool
  | .eq | .lessEq | .slessEq => true
  | _ => false

theorem same_iff (same : sameOperand vars left right = true) {agree : Prop} (reflexive : left = right → agree) :
    (sameVarnode vars left right = true → left ≠ right → agree) ↔ agree := by
  refine ⟨fun slot => ?_,fun agrees _ _ => agrees⟩
  by_cases one : left = right
  · exact reflexive one
  · exact slot (by simpa [sameOperand,one] using same) one

theorem simplifyReflexive_keeps (valued : ValuedBelow env vars val v)
    (comparison : kind ∈ [.eq,.notEq,.less,.lessEq,.sless,.slessEq])
    (shape : (varAt vars v).expr = .binOp kind left right) :
    KeepsValue env vars val v (simplifyReflexive vars kind (reflexiveAnswer kind).toUInt64 left right) ↔
      CompareKeeps vars val kind left right := by
  obtain ⟨leftValued,rightValued⟩ := valued.ofBinOp shape
  have whole := valued.keeps
  rw [shape] at whole
  have leftValue : (BitVec.ofNat (8 * (varAt vars left).size.toNat) (val left)).toNat = val left := by
    simp [Nat.mod_eq_of_lt leftValued.within]
  have rightValue : (BitVec.ofNat (8 * (varAt vars left).size.toNat) (val right)).toNat =
      low (varAt vars left).size.toNat (val right) := by
    simp [low]
  have itself : left = right → val left = low (varAt vars left).size.toNat (val right) := by
    rintro rfl
    exact (low_eq_self leftValued.within).symm
  unfold simplifyReflexive
  split_ifs with same
  · unfold CompareKeeps
    simp only [List.mem_cons,List.not_mem_nil,or_false] at comparison
    rcases comparison with rfl | rfl | rfl | rfl | rfl | rfl
    · rw [same_iff same itself]
      refine (keeps_truth valued (value_truth valued shape rfl) _).trans ?_
      simp [reflexiveAnswer,← BitVec.toNat_inj,leftValue,rightValue]
    · rw [same_iff same itself]
      refine (keeps_truth valued (value_truth valued shape rfl) _).trans ?_
      simp [reflexiveAnswer,bne_eq_false_iff_eq,← BitVec.toNat_inj,leftValue,rightValue]
    · rw [same_iff same fun one => (itself one).ge]
      refine (keeps_truth valued (value_truth valued shape rfl) _).trans ?_
      simp [reflexiveAnswer,BitVec.ult,leftValue,rightValue]
    · rw [same_iff same fun one => (itself one).le]
      refine (keeps_truth valued (value_truth valued shape rfl) _).trans ?_
      simp [reflexiveAnswer,BitVec.ule,leftValue,rightValue]
    · rw [same_iff same fun one => by rw [one]]
      refine (keeps_truth valued (value_truth valued shape rfl) _).trans ?_
      simp [reflexiveAnswer,BitVec.slt]
    · rw [same_iff same fun one => by rw [one]]
      refine (keeps_truth valued (value_truth valued shape rfl) _).trans ?_
      simp [reflexiveAnswer,BitVec.sle]
  · refine iff_of_true whole ?_
    intro slot
    simp [sameOperand,slot] at same

theorem simplifyNot_keeps (valued : ValuedBelow env vars val v) (shape : (varAt vars v).expr = .unaryOp .not arg) :
    KeepsValue env vars val v (simplifyNot vars arg) ↔ NotKeeps vars val v arg := by
  have innerValued := valued.ofUnaryOp shape
  have whole := valued.keeps
  rw [shape] at whole
  have value := value_unary (.inr rfl) shape valued
  simp only [computedLowUnary,min_kept] at value
  unfold simplifyNot NotKeeps
  split
  · rename_i x found
    have innerShape := Expr.unaryOperand_eq found
    have xValued := innerValued.ofUnaryOp innerShape
    have innerValue := value_unary (.inr rfl) innerShape innerValued
    simp only [computedLowUnary,min_kept] at innerValue
    have narrow : kept vars v arg ≤ 8 := (Nat.min_le_right _ _).trans innerValued.narrow
    rw [keeps_var,value]
    exact low_twice_complement narrow xValued.within (Nat.min_le_right _ _) xValued.small innerValued.small innerValue
  · exact iff_true_intro whole

theorem simplifyNeg_keeps (valued : ValuedBelow env vars val v) (shape : (varAt vars v).expr = .unaryOp .neg arg) :
    KeepsValue env vars val v (simplifyNeg vars arg) ↔ NegKeeps vars val v arg := by
  have innerValued := valued.ofUnaryOp shape
  have whole := valued.keeps
  rw [shape] at whole
  have value := value_unary (.inl rfl) shape valued
  simp only [computedLowUnary,min_kept] at value
  unfold simplifyNeg NegKeeps
  split
  · rw [keeps_var,value]
  · rename_i a b none found
    obtain ⟨aValued,bValued⟩ := innerValued.ofBinOp (Expr.binOperands_eq found)
    rw [keeps_binOp (by simp [arithmeticKinds]) bValued aValued.small,value,computedLow,min_kept]
  · exact iff_true_intro whole

theorem simplifyBoolNot_keeps (valued : ValuedBelow env vars val v)
    (shape : (varAt vars v).expr = .unaryOp .boolNot arg) :
    KeepsValue env vars val v (simplifyBoolNot vars arg) ↔ BoolNotKeeps vars val v arg := by
  have innerValued := valued.ofUnaryOp shape
  have whole := valued.keeps
  rw [shape] at whole
  unfold simplifyBoolNot BoolNotKeeps IsTruth
  split
  · rename_i x found
    have innerWhole := innerValued.keeps
    rw [Expr.unaryOperand_eq found,keeps_some rfl] at innerWhole
    rw [keeps_some rfl] at whole
    simp only [UnaryOpKind.pcode,evalUnary,low_truth innerValued] at innerWhole
    simp only [UnaryOpKind.pcode,evalUnary,low_truth valued,innerWhole] at whole
    rw [keeps_var,whole,eq_comm,bne]
    cases val x == 0 <;> rfl
  · exact iff_true_intro whole

end Rewrites

theorem simplifyExpr_keeps {env : Env} {vars : List VarDef} {val : VarId → Nat} {v : VarId}
    (valued : ValuedBelow env vars val v) :
    KeepsValue env vars val v (simplifyExpr (varAt vars v).expr vars) ↔ SimplifyKeeps vars val v := by
  have whole := valued.keeps
  have rest {kind left right} (same : simplifyExpr (.binOp kind left right) vars = .binOp kind left right)
      (shape : (varAt vars v).expr = .binOp kind left right) :
      KeepsValue env vars val v (simplifyExpr (.binOp kind left right) vars) := by
    rwa [same,← shape]
  unfold SimplifyKeeps
  cases shape : (varAt vars v).expr with
  | binOp kind left right =>
    cases kind
    case and => exact simplifyAnd_keeps valued shape
    case xor => exact simplifyXor_keeps valued shape
    case or => exact simplifyOr_keeps valued shape
    case add => exact simplifyAdd_keeps valued shape
    case sub => exact simplifySub_keeps valued shape
    case mult => exact simplifyMult_keeps valued shape
    case boolAnd => exact simplifyBoolAnd_keeps valued shape
    case boolOr => exact simplifyBoolOr_keeps valued shape
    case boolXor => exact simplifyBoolXor_keeps valued shape
    case eq | notEq | less | lessEq | sless | slessEq => exact simplifyReflexive_keeps valued (by simp) shape
    case lsl | lsr | asr => exact iff_of_true (simplifyShift_keeps valued (by simp) shape) (by simp [CompareKeeps])
    case div | sdiv => exact iff_of_true (simplifyDiv_keeps valued (by simp) shape) (by simp [CompareKeeps])
    case rem | srem => exact iff_of_true (simplifyRem_keeps valued (by simp) shape) (by simp [CompareKeeps])
    all_goals exact iff_of_true (rest rfl shape) (by simp [CompareKeeps])
  | unaryOp kind arg =>
    cases kind
    case not => exact simplifyNot_keeps valued shape
    case neg => exact simplifyNeg_keeps valued shape
    case boolNot => exact simplifyBoolNot_keeps valued shape
    all_goals exact iff_of_true (by rw [shape] at whole; exact whole) trivial
  | var _ | const _ _ | load _ | fieldAccess _ _ | phi _ | ternary _ _ _ | userOp _ _ | unknown =>
    exact iff_of_true (by rw [shape] at whole; exact whole) trivial

-- A variable still has its value after the pass has rewritten it exactly where the rule that applies keeps it.
theorem simplifyAt_value (env : Env) (vars : List VarDef) (val : VarId → Nat) (v : VarId)
    (valued : ValuedBelow env vars val v) : HoldsValue env (simplifyAt vars v) val v ↔ SimplifyKeeps vars val v := by
  obtain ⟨holds,sized⟩ := valued v .refl
  unfold simplifyAt
  rw [holds_rewriteExpr sized.inRange holds,simplifyExpr_keeps valued]

def addZero : List VarDef := [plainVar .unknown 4,plainVar (.const 0 4) 4,plainVar (.binOp .add 0 1) 4]

def addZeroValues (id : VarId) : Nat := [7,0,7].getD id 0

theorem addZero_value :
    (simplifyAt addZero 2)[2]? = some (plainVar (.var 0) 4) ∧
      HoldsValue plainEnv (simplifyAt addZero 2) addZeroValues 2 := by
  have values : ValuedBelow plainEnv addZero addZeroValues 2 := by
    intro u below
    have inside := Below.inside [0,1,2] (by decide) (by decide) below
    simp only [List.mem_cons,List.not_mem_nil,or_false] at inside
    rcases inside with rfl | rfl | rfl <;> exact ⟨⟨by decide,by decide⟩,by unfold Sized; decide⟩
  exact ⟨by decide,(simplifyAt_value plainEnv addZero addZeroValues 2 values).mpr trivial⟩

-- x + x of one byte: 3 + 3 becomes 3 << 3.
def doubled : List VarDef := [plainVar .unknown 1,plainVar (.binOp .add 0 0) 1]

def doubledValues (id : VarId) : Nat := [3,6].getD id 0

theorem doubled_changes : ¬ ∀ (env : Env) (vars : List VarDef) (val : VarId → Nat) (v : VarId),
    ValuedBelow env vars val v → HoldsValue env (simplifyAt vars v) val v := by
  intro keeps
  have values : ValuedBelow plainEnv doubled doubledValues 1 := by
    intro u below
    have inside := Below.inside [0,1] (by decide) (by decide) below
    simp only [List.mem_cons,List.not_mem_nil,or_false] at inside
    rcases inside with rfl | rfl <;> exact ⟨⟨by decide,by decide⟩,by unfold Sized; decide⟩
  exact absurd (keeps plainEnv doubled doubledValues 1 values).computed (by decide)

end Rsleigh.Decompile
