import Mathlib

namespace Rsleigh.BitTerms

-- The operators of bit-vectors of one width, with the readings that a division by zero has in SMT-LIB.
inductive Op where
  | add | sub | mul | and | or | xor | shl | lshr | ashr | udiv | sdiv | urem | srem
  deriving DecidableEq

inductive Comparison where
  | eq | ne | ult | ule | slt | sle
  deriving DecidableEq

def Op.apply : Op → BitVec w → BitVec w → BitVec w
  | .add, x, y => x + y
  | .sub, x, y => x - y
  | .mul, x, y => x * y
  | .and, x, y => x &&& y
  | .or, x, y => x ||| y
  | .xor, x, y => x ^^^ y
  | .shl, x, y => x <<< y.toNat
  | .lshr, x, y => x >>> y.toNat
  | .ashr, x, y => x.sshiftRight y.toNat
  | .udiv, x, y => x.smtUDiv y
  | .sdiv, x, y => x.smtSDiv y
  | .urem, x, y => x % y
  | .srem, x, y => x.srem y

def Comparison.holds : Comparison → BitVec w → BitVec w → Bool
  | .eq, x, y => x == y
  | .ne, x, y => x != y
  | .ult, x, y => x.ult y
  | .ule, x, y => x.ule y
  | .slt, x, y => x.slt y
  | .sle, x, y => x.sle y

-- The operators on the values of operands of some width.
def Op.value (op : Op) (w x y : Nat) : Nat := (op.apply (BitVec.ofNat w x) (BitVec.ofNat w y)).toNat

def Comparison.value (op : Comparison) (w x y : Nat) : Nat := (op.holds (BitVec.ofNat w x) (BitVec.ofNat w y)).toNat

def negate (w x : Nat) : Nat := (-BitVec.ofNat w x).toNat

def complement (w x : Nat) : Nat := (~~~BitVec.ofNat w x).toNat

def extendSign (w more x : Nat) : Nat := ((BitVec.ofNat w x).signExtend (w + more)).toNat

-- A comparison stands for a bit, as `ite` makes one of it.
inductive Term (α : Type) where
  | leaf (name : α) (bits : Nat)
  | literal (value bits : Nat)
  | binary (op : Op) (a b : Term α)
  | compare (op : Comparison) (a b : Term α)
  | neg (a : Term α)
  | not (a : Term α)
  | zeroExt (more : Nat) (a : Term α)
  | signExt (more : Nat) (a : Term α)
  | extract (high low : Nat) (a : Term α)
  deriving DecidableEq

namespace Term

def width : Term α → Nat
  | .leaf _ bits | .literal _ bits => bits
  | .binary _ a _ => a.width
  | .compare _ _ _ => 1
  | .neg a | .not a => a.width
  | .zeroExt more a | .signExt more a => a.width + more
  | .extract high low _ => high + 1 - low

-- Operands of one width, and bits that are there.
def WellFormed : Term α → Prop
  | .leaf _ _ | .literal _ _ => True
  | .binary _ a b | .compare _ a b => a.WellFormed ∧ b.WellFormed ∧ a.width = b.width
  | .neg a | .not a | .zeroExt _ a | .signExt _ a => a.WellFormed
  | .extract high low a => a.WellFormed ∧ high < a.width ∧ low ≤ high

def eval (leaf : α → Nat) : Term α → Nat
  | .leaf name bits => leaf name % 2 ^ bits
  | .literal value bits => value % 2 ^ bits
  | .binary op a b => op.value a.width (a.eval leaf) (b.eval leaf)
  | .compare op a b => op.value a.width (a.eval leaf) (b.eval leaf)
  | .neg a => negate a.width (a.eval leaf)
  | .not a => complement a.width (a.eval leaf)
  | .zeroExt _ a => a.eval leaf
  | .signExt more a => extendSign a.width more (a.eval leaf)
  | .extract high low a => a.eval leaf / 2 ^ low % 2 ^ (high + 1 - low)

variable {α : Type}

theorem eval_lt (leaf : α → Nat) (t : Term α) : t.eval leaf < 2 ^ t.width := by
  induction t with
  | leaf name bits => exact Nat.mod_lt _ (Nat.two_pow_pos _)
  | literal value bits => exact Nat.mod_lt _ (Nat.two_pow_pos _)
  | binary op a b => exact BitVec.isLt _
  | compare op a b =>
    exact Bool.toNat_lt _
  | neg a => exact BitVec.isLt _
  | not a => exact BitVec.isLt _
  | zeroExt more a ih =>
    exact Nat.lt_of_lt_of_le ih (Nat.pow_le_pow_right (by decide) (Nat.le_add_right _ _))
  | signExt more a => exact BitVec.isLt _
  | extract high low a => exact Nat.mod_lt _ (Nat.two_pow_pos _)

-- The literal of a term's value, which stands for the term under every operator.
def frozen (leaf : α → Nat) (t : Term α) : Term α := .literal (t.eval leaf) t.width

@[simp] theorem width_frozen (leaf : α → Nat) (t : Term α) : (t.frozen leaf).width = t.width := rfl

@[simp] theorem eval_frozen (leaf leaf' : α → Nat) (t : Term α) : (t.frozen leaf).eval leaf' = t.eval leaf :=
  Nat.mod_eq_of_lt (eval_lt leaf t)

end Term

end Rsleigh.BitTerms
