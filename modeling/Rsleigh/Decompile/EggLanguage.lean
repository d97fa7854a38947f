import Mathlib.Data.BitVec
import Mathlib.Tactic.LinearCombination
import Mathlib.Tactic.Ring

namespace Rsleigh.Decompile.Eqsat

-- eqsat.rs: the language of the e-graph. A hole is a metavariable of a rule.
inductive MbaOp where
  | add | sub | mul | and | or | xor | shl | shr
  deriving DecidableEq

inductive MbaUnaryOp where
  | neg | not
  deriving DecidableEq

inductive Mba (ν : Type) where
  | hole (name : ν)
  | num (value : Int64)
  | var (index : Mba ν)
  | binary (op : MbaOp) (left right : Mba ν)
  | unary (op : MbaUnaryOp) (inner : Mba ν)
  deriving DecidableEq

-- A term of the e-graph has no holes.
abbrev MbaTerm := Mba Empty

namespace Mba

def subst (given : ν → Mba μ) : Mba ν → Mba μ
  | .hole name => given name
  | .num value => .num value
  | .var index => .var (index.subst given)
  | .binary op left right => .binary op (left.subst given) (right.subst given)
  | .unary op inner => .unary op (inner.subst given)

-- The nodes of the term as it is first built.
def size : Mba ν → Nat
  | .hole _ | .num _ => 1
  | .var index => index.size + 1
  | .binary _ left right => left.size + right.size + 1
  | .unary _ inner => inner.size + 1

def cost : Mba ν → Nat
  | .hole _ | .num _ => 0
  | .var index => 1 + index.cost
  | .binary op left right =>
    let opCost := match op with
      | .mul => 3
      | _ => 2
    opCost + left.cost + right.cost
  | .unary _ inner => 1 + inner.cost

end Mba

section Values

variable {w : Nat}

def MbaOp.apply : MbaOp → BitVec w → BitVec w → BitVec w
  | .add, a, b => a + b
  | .sub, a, b => a - b
  | .mul, a, b => a * b
  | .and, a, b => a &&& b
  | .or, a, b => a ||| b
  | .xor, a, b => a ^^^ b
  | .shl, a, b => a <<< b.toNat
  | .shr, a, b => a >>> b.toNat

def MbaUnaryOp.apply : MbaUnaryOp → BitVec w → BitVec w
  | .neg, a => -a
  | .not, a => ~~~a

def numValue (w : Nat) (value : Int64) : BitVec w := value.toBitVec.setWidth w

-- The value at a width, given what the base variables hold by their index, which is a 64-bit number at every width.
def mbaValue (base : (w : Nat) → BitVec 64 → BitVec w) (holes : (w : Nat) → ν → BitVec w) (w : Nat) :
    Mba ν → BitVec w
  | .hole name => holes w name
  | .num value => numValue w value
  | .var index => base w (mbaValue base holes 64 index)
  | .binary op left right => op.apply (mbaValue base holes w left) (mbaValue base holes w right)
  | .unary op inner => op.apply (mbaValue base holes w inner)

theorem mbaValue_subst (base : (w : Nat) → BitVec 64 → BitVec w) (holes : (w : Nat) → μ → BitVec w) (given : ν → Mba μ)
    (w : Nat) (term : Mba ν) : mbaValue base holes w (term.subst given) =
      mbaValue base (fun w name => mbaValue base holes w (given name)) w term := by
  induction term generalizing w with
  | hole name => rfl
  | num value => rfl
  | var index ih => simp only [Mba.subst,mbaValue,ih]
  | binary op left right ihl ihr => simp only [Mba.subst,mbaValue,ihl,ihr]
  | unary op inner ih => simp only [Mba.subst,mbaValue,ih]

end Values

structure MbaRule where
  name : String
  left : Mba Char
  right : Mba Char

namespace MbaRule

-- The metavariables and the operators as the rules are written.
section Syntax

def a : Mba Char := .hole 'a'
def b : Mba Char := .hole 'b'
def c : Mba Char := .hole 'c'
def n (value : Int64) : Mba Char := .num value
def add (x y : Mba Char) : Mba Char := .binary .add x y
def sub (x y : Mba Char) : Mba Char := .binary .sub x y
def mul (x y : Mba Char) : Mba Char := .binary .mul x y
def and (x y : Mba Char) : Mba Char := .binary .and x y
def or (x y : Mba Char) : Mba Char := .binary .or x y
def xor (x y : Mba Char) : Mba Char := .binary .xor x y
def shl (x y : Mba Char) : Mba Char := .binary .shl x y
def shr (x y : Mba Char) : Mba Char := .binary .shr x y
def neg (x : Mba Char) : Mba Char := .unary .neg x
def not (x : Mba Char) : Mba Char := .unary .not x

end Syntax

-- Identity / Annihilation.
def identityRules : List MbaRule := [
  ⟨"add-0-r",add a (n 0),a⟩,
  ⟨"add-0-l",add (n 0) a,a⟩,
  ⟨"sub-0",sub a (n 0),a⟩,
  ⟨"mul-1-r",mul a (n 1),a⟩,
  ⟨"mul-1-l",mul (n 1) a,a⟩,
  ⟨"mul-0-r",mul a (n 0),n 0⟩,
  ⟨"mul-0-l",mul (n 0) a,n 0⟩,
  ⟨"and-0-r",and a (n 0),n 0⟩,
  ⟨"and-0-l",and (n 0) a,n 0⟩,
  ⟨"or-0-r",or a (n 0),a⟩,
  ⟨"or-0-l",or (n 0) a,a⟩,
  ⟨"xor-0-r",xor a (n 0),a⟩,
  ⟨"xor-0-l",xor (n 0) a,a⟩
]

-- Self-operations, double negation, commutativity.
def symmetryRules : List MbaRule := [
  ⟨"sub-self",sub a a,n 0⟩,
  ⟨"xor-self",xor a a,n 0⟩,
  ⟨"and-self",and a a,a⟩,
  ⟨"or-self",or a a,a⟩,
  ⟨"neg-neg",neg (neg a),a⟩,
  ⟨"not-not",not (not a),a⟩,
  ⟨"add-comm",add a b,add b a⟩,
  ⟨"mul-comm",mul a b,mul b a⟩,
  ⟨"and-comm",and a b,and b a⟩,
  ⟨"or-comm",or a b,or b a⟩,
  ⟨"xor-comm",xor a b,xor b a⟩
]

-- MBA identities (the key deobfuscation rules).
def mixedRules : List MbaRule := [
  ⟨"mba-xor-1",sub (add a b) (mul (n 2) (and a b)),xor a b⟩,
  ⟨"mba-xor-2",sub (add a b) (add (and a b) (and a b)),xor a b⟩,
  ⟨"mba-add-1",add (xor a b) (mul (n 2) (and a b)),add a b⟩,
  ⟨"mba-add-2",add (xor a b) (add (and a b) (and a b)),add a b⟩,
  ⟨"mba-xor-3",sub (or a b) (and a b),xor a b⟩,
  ⟨"mba-or-1",add (xor a b) (and a b),or a b⟩,
  ⟨"mba-add-3",add (and a b) (or a b),add a b⟩
]

-- Absorption, cancellation, distributivity.
def cancelRules : List MbaRule := [
  ⟨"absorb-and-or",and a (or a b),a⟩,
  ⟨"absorb-or-and",or a (and a b),a⟩,
  ⟨"cancel-sub",sub a (sub a b),b⟩,
  ⟨"cancel-xor",xor a (xor a b),b⟩,
  ⟨"cancel-add-sub-r",sub (add a b) b,a⟩,
  ⟨"cancel-add-sub-l",sub (add a b) a,b⟩,
  ⟨"cancel-sub-add",add (sub a b) b,a⟩,
  ⟨"dist-mul-add",mul a (add b c),add (mul a b) (mul a c)⟩,
  ⟨"factor-mul-add",add (mul a b) (mul a c),mul a (add b c)⟩
]

-- Negation, De Morgan, shifts.
def complementRules : List MbaRule := [
  ⟨"neg-as-not",neg a,add (not a) (n 1)⟩,
  ⟨"add-neg",add a (neg b),sub a b⟩,
  ⟨"mul-neg1",mul (n (-1)) a,neg a⟩,
  ⟨"demorgan-and",not (and a b),or (not a) (not b)⟩,
  ⟨"demorgan-or",not (or a b),and (not a) (not b)⟩,
  ⟨"demorgan-and-rev",or (not a) (not b),not (and a b)⟩,
  ⟨"demorgan-or-rev",and (not a) (not b),not (or a b)⟩,
  ⟨"shl-0",shl a (n 0),a⟩,
  ⟨"shr-0",shr a (n 0),a⟩,
  ⟨"shl-1",shl a (n 1),add a a⟩,
  ⟨"mul-2",mul (n 2) a,add a a⟩,
  ⟨"mul-2-r",mul a (n 2),add a a⟩
]

end MbaRule

def mbaRules : List MbaRule :=
  MbaRule.identityRules ++ MbaRule.symmetryRules ++ MbaRule.mixedRules ++ MbaRule.cancelRules ++
    MbaRule.complementRules

-- Both sides have the same value modulo 2^w, whatever the metavariables stand for.
def MbaRule.Identity (rule : MbaRule) (w : Nat) : Prop :=
  ∀ base holes, mbaValue base holes w rule.left = mbaValue base holes w rule.right

section Words

variable {w : Nat} (x y : BitVec w)

theorem numValue_zero (w : Nat) : numValue w 0 = 0 := by
  simp [numValue]

theorem numValue_one (w : Nat) : numValue w 1 = 1 := by
  apply BitVec.eq_of_toNat_eq
  simp [numValue]

theorem numValue_two (w : Nat) : numValue w 2 = 1 + 1 := by
  apply BitVec.eq_of_toNat_eq
  simp [numValue]

theorem numValue_negOne (narrow : w ≤ 64) : numValue w (-1) = -1 := by
  have bits : (-1 : Int64).toBitVec = -1#64 := by decide
  have ones : (-1 : BitVec w) = -1#w := rfl
  rw [numValue,bits,ones,BitVec.setWidth_neg_of_le narrow]
  apply congrArg
  apply BitVec.eq_of_toNat_eq
  simp

theorem and_not_add_and : (x &&& ~~~y) + (x &&& y) = x := by
  rw [BitVec.add_eq_or_of_and_eq_zero]
  · apply BitVec.eq_of_getLsbD_eq
    intro i inside
    simp only [BitVec.getLsbD_or,BitVec.getLsbD_and,BitVec.getLsbD_not,inside,decide_true,Bool.true_and]
    cases x.getLsbD i <;> cases y.getLsbD i <;> rfl
  · apply BitVec.eq_of_getLsbD_eq
    intro i inside
    simp only [BitVec.getLsbD_and,BitVec.getLsbD_not,inside,decide_true,Bool.true_and]
    cases x.getLsbD i <;> cases y.getLsbD i <;> simp

theorem and_not_add_not_and : (x &&& ~~~y) + (y &&& ~~~x) = x ^^^ y := by
  rw [BitVec.add_eq_or_of_and_eq_zero]
  · apply BitVec.eq_of_getLsbD_eq
    intro i inside
    simp only [BitVec.getLsbD_or,BitVec.getLsbD_and,BitVec.getLsbD_not,BitVec.getLsbD_xor,inside,decide_true,
      Bool.true_and]
    cases x.getLsbD i <;> cases y.getLsbD i <;> rfl
  · apply BitVec.eq_of_getLsbD_eq
    intro i inside
    simp only [BitVec.getLsbD_and,BitVec.getLsbD_not,inside,decide_true,Bool.true_and]
    cases x.getLsbD i <;> cases y.getLsbD i <;> simp

theorem xor_add_and : (x ^^^ y) + (x &&& y) = x ||| y := by
  rw [BitVec.add_eq_or_of_and_eq_zero]
  · apply BitVec.eq_of_getLsbD_eq
    intro i inside
    simp only [BitVec.getLsbD_or,BitVec.getLsbD_and,BitVec.getLsbD_xor]
    cases x.getLsbD i <;> cases y.getLsbD i <;> rfl
  · apply BitVec.eq_of_getLsbD_eq
    intro i inside
    simp only [BitVec.getLsbD_and,BitVec.getLsbD_xor]
    cases x.getLsbD i <;> cases y.getLsbD i <;> simp

theorem xor_add_and_and : (x ^^^ y) + ((x &&& y) + (x &&& y)) = x + y := by
  have left := and_not_add_and x y
  have right := and_not_add_and y x
  rw [BitVec.and_comm y x] at right
  rw [← and_not_add_not_and]
  linear_combination left + right

end Words

theorem identityRules_sound : ∀ rule ∈ MbaRule.identityRules, rule.Identity w := by
  simp [MbaRule.identityRules,MbaRule.Identity,mbaValue,MbaOp.apply,numValue_zero,numValue_one,MbaRule.add,MbaRule.sub,
    MbaRule.mul,MbaRule.and,MbaRule.or,MbaRule.xor,MbaRule.a,MbaRule.n]

theorem symmetryRules_sound : ∀ rule ∈ MbaRule.symmetryRules, rule.Identity w := by
  simp [MbaRule.symmetryRules,MbaRule.Identity,mbaValue,MbaOp.apply,MbaUnaryOp.apply,numValue_zero,MbaRule.add,
    MbaRule.sub,MbaRule.mul,MbaRule.and,MbaRule.or,MbaRule.xor,MbaRule.neg,MbaRule.not,MbaRule.a,MbaRule.b,MbaRule.n,
    BitVec.add_comm,BitVec.mul_comm,BitVec.and_comm,BitVec.or_comm,BitVec.xor_comm]

theorem mixedRules_sound : ∀ rule ∈ MbaRule.mixedRules, rule.Identity w := by
  have two (x : BitVec w) : (1 + 1) * x = x + x := by ring
  have sum (x y : BitVec w) := xor_add_and_and x y
  have either (x y : BitVec w) := xor_add_and x y
  have noXor (x y : BitVec w) : x + y - ((x &&& y) + (x &&& y)) = x ^^^ y := by
    rw [← sum x y,add_sub_cancel_right]
  have onlyXor (x y : BitVec w) : (x ||| y) - (x &&& y) = x ^^^ y := by
    rw [← either x y,add_sub_cancel_right]
  have both (x y : BitVec w) : (x &&& y) + (x ||| y) = x + y := by
    rw [← either x y,← sum x y]
    ring
  simp only [MbaRule.mixedRules,List.forall_mem_cons,List.not_mem_nil,false_imp_iff,implies_true,and_true,
    MbaRule.Identity,mbaValue,MbaOp.apply,numValue_two,MbaRule.add,MbaRule.sub,MbaRule.mul,MbaRule.and,MbaRule.or,
    MbaRule.xor,MbaRule.a,MbaRule.b,MbaRule.n,two,sum,either,noXor,onlyXor,both]

theorem cancelRules_sound : ∀ rule ∈ MbaRule.cancelRules, rule.Identity w := by
  have absorbAnd (x y : BitVec w) : x &&& (x ||| y) = x := by
    apply BitVec.eq_of_getLsbD_eq
    intro i _
    simp only [BitVec.getLsbD_and,BitVec.getLsbD_or]
    cases x.getLsbD i <;> rfl
  have absorbOr (x y : BitVec w) : x ||| (x &&& y) = x := by
    apply BitVec.eq_of_getLsbD_eq
    intro i _
    simp only [BitVec.getLsbD_and,BitVec.getLsbD_or]
    cases x.getLsbD i <;> rfl
  have xorTwice (x y : BitVec w) : x ^^^ (x ^^^ y) = y := by
    rw [← BitVec.xor_assoc,BitVec.xor_self,BitVec.zero_xor]
  simp only [MbaRule.cancelRules,List.forall_mem_cons,List.not_mem_nil,false_imp_iff,implies_true,and_true,
    MbaRule.Identity,mbaValue,MbaOp.apply,MbaRule.add,MbaRule.sub,MbaRule.mul,MbaRule.and,MbaRule.or,MbaRule.xor,
    MbaRule.a,MbaRule.b,MbaRule.c,absorbAnd,absorbOr,xorTwice,sub_sub_cancel,add_sub_cancel_right,
    add_sub_cancel_left,sub_add_cancel,mul_add]

theorem complementRules_sound (narrow : w ≤ 64) : ∀ rule ∈ MbaRule.complementRules, rule.Identity w := by
  have complement (x : BitVec w) : ~~~x + 1 = -x := (BitVec.neg_eq_not_add x).symm
  have negative (x y : BitVec w) : x + -y = x - y := (sub_eq_add_neg x y).symm
  have negated (x : BitVec w) : -1 * x = -x := neg_one_mul x
  have leftZero (x : BitVec w) : x <<< (0 : BitVec w).toNat = x := by simp
  have rightZero (x : BitVec w) : x >>> (0 : BitVec w).toNat = x := by simp
  have leftOne (x : BitVec w) : x <<< (1 : BitVec w).toNat = x + x := by
    apply BitVec.eq_of_toNat_eq
    cases w with
    | zero => simp [BitVec.of_length_zero]
    | succ w =>
      have one : (1 : BitVec (w + 1)).toNat = 1 := by simp
      rw [one,BitVec.toNat_shiftLeft,BitVec.toNat_add,Nat.shiftLeft_eq,pow_one,Nat.mul_two]
  have twice (x : BitVec w) : (1 + 1) * x = x + x := by ring
  have twiceRight (x : BitVec w) : x * (1 + 1) = x + x := by ring
  simp only [MbaRule.complementRules,List.forall_mem_cons,List.not_mem_nil,false_imp_iff,implies_true,and_true,
    MbaRule.Identity,mbaValue,MbaOp.apply,MbaUnaryOp.apply,MbaRule.add,MbaRule.sub,MbaRule.mul,MbaRule.and,MbaRule.or,
    MbaRule.shl,MbaRule.shr,MbaRule.neg,MbaRule.not,MbaRule.a,MbaRule.b,MbaRule.n,numValue_zero,numValue_one,
    numValue_two,numValue_negOne narrow,complement,negative,negated,BitVec.not_and,BitVec.not_or,leftZero,rightZero,
    leftOne,twice,twiceRight]

theorem mbaRules_sound (narrow : w ≤ 64) : ∀ rule ∈ mbaRules, rule.Identity w := by
  intro rule inside
  simp only [mbaRules,List.mem_append] at inside
  rcases inside with (((identity | symmetry) | mixed) | cancel) | complement
  · exact identityRules_sound rule identity
  · exact symmetryRules_sound rule symmetry
  · exact mixedRules_sound rule mixed
  · exact cancelRules_sound rule cancel
  · exact complementRules_sound narrow rule complement

-- The congruence class that the rules put terms into.
inductive Congruent : MbaTerm → MbaTerm → Prop where
  | refl (term : MbaTerm) : Congruent term term
  | symm : Congruent left right → Congruent right left
  | trans : Congruent first second → Congruent second third → Congruent first third
  | rule (rule : MbaRule) (given : Char → MbaTerm) : rule ∈ mbaRules →
    Congruent (rule.left.subst given) (rule.right.subst given)
  | var : Congruent left right → Congruent (.var left) (.var right)
  | binary (op : MbaOp) : Congruent left left' → Congruent right right' →
    Congruent (.binary op left right) (.binary op left' right')
  | unary (op : MbaUnaryOp) : Congruent left right → Congruent (.unary op left) (.unary op right)

theorem Congruent.value {left right : MbaTerm} (congruent : Congruent left right)
    (base : (w : Nat) → BitVec 64 → BitVec w) (holes : (w : Nat) → Empty → BitVec w) (narrow : w ≤ 64) :
    mbaValue base holes w left = mbaValue base holes w right := by
  induction congruent generalizing w with
  | refl _ => rfl
  | symm _ ih => exact (ih narrow).symm
  | trans _ _ first second => exact (first narrow).trans (second narrow)
  | rule rule given inside =>
    rw [mbaValue_subst,mbaValue_subst]
    exact mbaRules_sound narrow rule inside base _
  | var _ ih => simp only [mbaValue,ih (Nat.le_refl 64)]
  | binary op _ _ ihl ihr => simp only [mbaValue,ihl narrow,ihr narrow]
  | unary op _ ih => simp only [mbaValue,ih narrow]

end Rsleigh.Decompile.Eqsat
