import Rsleigh.Decompile.Memory

namespace Rsleigh.Decompile

open Pcode

def modulus (width : UInt32) : Int := 2 ^ (8 * width.toNat)

theorem modulus_pos (width : UInt32) : 0 < modulus width := by
  unfold modulus
  positivity

theorem modulus_dvd {width wider : UInt32} (le : width ≤ wider) : modulus width ∣ modulus wider := by
  have narrow : width.toNat ≤ wider.toNat := UInt32.le_iff_toNat_le.mp le
  exact pow_dvd_pow 2 (by omega)

theorem emod_le_self {value bound : Int} (nonneg : 0 ≤ value) (positive : 0 < bound) : value % bound ≤ value := by
  have quotient := Int.mul_nonneg (le_of_lt positive) (Int.ediv_nonneg nonneg (le_of_lt positive))
  rw [Int.emod_def]
  omega

-- The ranges of so many bytes have no byte in common where addresses wrap at `bound`.
def RangesApart (bound first : Int) (size : Nat) (second : Int) (size' : Nat) : Prop :=
  ∀ i < size, ∀ j < size', (first + i) % bound ≠ (second + j) % bound

-- The distance from each range to the other one, forwards, is as long as the range.
theorem rangesApart_iff {bound first second : Int} {size size' : Nat} (positive : 0 < bound) (some : 0 < size)
    (some' : 0 < size') :
    RangesApart bound first size second size' ↔
      (size : Int) ≤ (second - first) % bound ∧ (size' : Int) ≤ (first - second) % bound := by
  have ahead := Int.emod_nonneg (second - first) (ne_of_gt positive)
  have behind := Int.emod_nonneg (first - second) (ne_of_gt positive)
  constructor
  · intro apart
    constructor
    · by_contra close
      obtain ⟨gap,isGap⟩ := Int.eq_ofNat_of_zero_le ahead
      refine apart gap (by omega) 0 some' ?_
      rw [← isGap]
      simp
    · by_contra close
      obtain ⟨gap,isGap⟩ := Int.eq_ofNat_of_zero_le behind
      refine apart 0 some gap (by omega) ?_
      rw [← isGap]
      simp
  · rintro ⟨farAhead,farBehind⟩ i inFirst j inSecond same
    rcases Nat.le_total j i with le | le
    · have residue : (second - first) % bound = ((i - j : Nat) : Int) % bound := by
        have shifted := Int.ModEq.sub same.symm (Int.ModEq.refl (first + j))
        have distance : second + (j : Int) - (first + j) = second - first := by ring
        have steps : first + (i : Int) - (first + j) = ((i - j : Nat) : Int) := by omega
        rw [distance,steps] at shifted
        exact shifted
      have short := emod_le_self (Int.natCast_nonneg (i - j)) positive
      omega
    · have residue : (first - second) % bound = ((j - i : Nat) : Int) % bound := by
        have shifted := Int.ModEq.sub same (Int.ModEq.refl (second + i))
        have distance : first + (i : Int) - (second + i) = first - second := by ring
        have steps : second + (j : Int) - (second + i) = ((j - i : Nat) : Int) := by omega
        rw [distance,steps] at shifted
        exact shifted
      have short := emod_le_self (Int.natCast_nonneg (j - i)) positive
      omega

section Denote

variable (ssa : SsaCfg) (regs : VarId → Int)

def signedValue (width : UInt32) (value : Int) : Int :=
  if 2 * value < modulus width then value else value - modulus width

-- The value of an expression, before it is cut to the width of its variable. Of what the chains of addresses do not
-- go through nothing is said.
def evalExpr (value : VarId → Option Int) (id : VarId) : Expr → Option Int
  | .const value _ => some value.toNat
  | .unknown => some (regs id)
  | .var a | .unaryOp .zext a => value a
  | .unaryOp .sext a => (value a).map (signedValue (ssa.var a).size)
  | .binOp .add a b => (value a).bind fun x => (value b).map fun y => x + y
  | .binOp .sub a b => (value a).bind fun x => (value b).map fun y => x - y
  | .binOp _ _ _ | .unaryOp _ _ | .load _ | .fieldAccess _ _ | .phi _ | .ternary _ _ _ | .userOp _ _ => none

-- What a variable denotes: its expression, modulo its width. The incoming registers have any values.
def denote : Nat → VarId → Option Int
  | 0, _ => none
  | left + 1, id =>
    (ssa.vars[id]?).bind fun var => (evalExpr ssa regs (denote left) id var.expr).map (· % modulus var.size)

variable {ssa regs}

theorem evalExpr_mono {value value' : VarId → Option Int} (more : ∀ a x, value a = some x → value' a = some x)
    {id : VarId} {expr : Expr} {result : Int} (found : evalExpr ssa regs value id expr = some result) :
    evalExpr ssa regs value' id expr = some result := by
  have both : ∀ {a b : VarId} {f : Int → Int → Int}, ((value a).bind fun x => (value b).map fun y => f x y) = some result →
      ((value' a).bind fun x => (value' b).map fun y => f x y) = some result := by
    intro a b f found
    obtain ⟨x,isX,found⟩ := Option.bind_eq_some_iff.mp found
    obtain ⟨y,isY,found⟩ := Option.map_eq_some_iff.mp found
    exact Option.bind_eq_some_iff.mpr ⟨x,more a x isX,Option.map_eq_some_iff.mpr ⟨y,more b y isY,found⟩⟩
  cases expr with
  | const => exact found
  | unknown => exact found
  | var a => exact more a result found
  | unaryOp op a =>
    cases op with
    | zext => exact more a result found
    | sext =>
      obtain ⟨x,isX,found⟩ := Option.map_eq_some_iff.mp found
      exact Option.map_eq_some_iff.mpr ⟨x,more a x isX,found⟩
    | _ => cases found
  | binOp op a b =>
    cases op with
    | add => exact both found
    | sub => exact both found
    | _ => cases found
  | _ => cases found

theorem denote_mono {left left' : Nat} {id : VarId} {value : Int} (found : denote ssa regs left id = some value)
    (le : left ≤ left') : denote ssa regs left' id = some value := by
  induction left generalizing left' id value with
  | zero => cases found
  | succ left ih =>
    obtain ⟨left',rfl⟩ : ∃ more, left' = more + 1 := ⟨left' - 1,by omega⟩
    obtain ⟨var,isVar,found⟩ := Option.bind_eq_some_iff.mp found
    obtain ⟨raw,isRaw,isValue⟩ := Option.map_eq_some_iff.mp found
    refine Option.bind_eq_some_iff.mpr ⟨var,isVar,Option.map_eq_some_iff.mpr ⟨raw,?_,isValue⟩⟩
    exact evalExpr_mono (fun a x found => ih found (Nat.le_of_succ_le_succ le)) isRaw

theorem denote_succ {left : Nat} {id : VarId} {var : VarDef} {raw : Int} (isVar : ssa.vars[id]? = some var)
    (isRaw : evalExpr ssa regs (denote ssa regs left) id var.expr = some raw) :
    denote ssa regs (left + 1) id = some (raw % modulus var.size) :=
  Option.bind_eq_some_iff.mpr ⟨var,isVar,Option.map_eq_some_iff.mpr ⟨raw,isRaw,rfl⟩⟩

end Denote

section Constants

variable {ssa : SsaCfg} (regs : VarId → Int)

theorem var_of_getElem? {id : VarId} {var : VarDef} (isVar : ssa.vars[id]? = some var) : ssa.var id = var := by
  simp [SsaCfg.var,isVar]

theorem inWidth_iff {width : UInt32} : inWidth width = true ↔ 1 ≤ width.toNat ∧ width.toNat ≤ 8 := by
  simp only [inWidth,decide_eq_true_eq,UInt32.le_iff_toNat_le]
  rfl

theorem sizeMask {width : UInt32} (inside : inWidth width = true) :
    ((0xffffffffffffffff : UInt64) >>> (64 - width.toUInt64 * 8)).toNat = 2 ^ (8 * width.toNat) - 1 := by
  obtain ⟨least,most⟩ := inWidth_iff.mp inside
  generalize isWidth : width.toNat = w at least most ⊢
  obtain rfl : width = UInt32.ofNat w := by rw [← isWidth,UInt32.ofNat_toNat]
  interval_cases w <;> rfl

theorem mask_value {width : UInt32} (inside : inWidth width = true) (value : UInt64) :
    ((value &&& (0xffffffffffffffff >>> (64 - width.toUInt64 * 8))).toNat : Int) = value.toNat % modulus width := by
  rw [UInt64.toNat_and,sizeMask inside,Nat.and_two_pow_sub_one_eq_mod]
  simp [modulus]

theorem modulus_dvd_word {width : UInt32} (inside : inWidth width = true) : modulus width ∣ 2 ^ 64 :=
  pow_dvd_pow 2 (by have most := (inWidth_iff.mp inside).2; omega)

theorem ofInt_emod {width : UInt32} (inside : inWidth width = true) (value : Int) :
    value % modulus width = ((UInt64.ofInt value).toNat : Int) % modulus width := by
  have nonneg : 0 ≤ value % 2 ^ 64 := Int.emod_nonneg value (by norm_num)
  have isWord : ((UInt64.ofInt value).toNat : Int) = value % 2 ^ 64 := by
    unfold UInt64.ofInt
    rw [UInt64.toNat_ofNat_of_lt' (by simp only [UInt64.size]; omega)]
    omega
  rw [isWord,Int.emod_emod_of_dvd _ (modulus_dvd_word inside)]

theorem sub_emod {width : UInt32} (inside : inWidth width = true) (first second : UInt64) :
    ((first.toNat : Int) - second.toNat) % modulus width = ((first - second).toNat : Int) % modulus width := by
  have isWord : ((first - second).toNat : Int) = ((first.toNat : Int) - second.toNat) % 2 ^ 64 := by
    have left := first.toNat_lt
    have right := second.toNat_lt
    rw [UInt64.toNat_sub]
    omega
  rw [isWord,Int.emod_emod_of_dvd _ (modulus_dvd_word inside)]

theorem signExtend_eq {width : UInt32} (inside : inWidth width = true) {value : UInt64}
    (small : (value.toNat : Int) < modulus width) : signExtend value width = signedValue width value.toNat := by
  obtain ⟨least,most⟩ := inWidth_iff.mp inside
  unfold signExtend signedValue modulus at *
  generalize width.toNat = w at *
  have isValue : value.toBitVec.toNat = value.toNat := rfl
  have bound := value.toNat_lt
  generalize value.toNat = n at *
  rw [BitVec.toInt_sshiftRight,BitVec.toInt_eq_toNat_cond,BitVec.toNat_shiftLeft,isValue,Int.shiftRight_eq_div_pow]
  interval_cases w <;> simp only [Nat.reduceMul,Nat.reduceSub,Nat.reducePow,Nat.shiftLeft_eq] at * <;> split <;> split <;> omega

-- The code's constants are what their variables denote.
theorem constantBits_denote {left fuel rest : Nat} {id : VarId} {value : UInt64}
    (found : constantBits ssa left id fuel = some (value,rest)) :
    denote ssa regs left id = some (value.toNat : Int) ∧ inWidth (ssa.var id).size = true ∧
      (value.toNat : Int) < modulus (ssa.var id).size := by
  induction left generalizing id fuel value rest with
  | zero => cases fuel <;> cases found
  | succ left ih =>
    cases fuel with
    | zero => cases found
    | succ fuel =>
      unfold constantBits at found
      obtain ⟨var,isVar,found⟩ := Option.bind_eq_some_iff.mp found
      dsimp only at found
      rw [var_of_getElem? isVar]
      split at found
      · rename_i inside
        obtain ⟨⟨raw,rest'⟩,isRaw,isValue⟩ := Option.map_eq_some_iff.mp found
        cases isValue
        refine ⟨?_,inside,?_⟩
        · obtain ⟨result,isResult,same⟩ : ∃ result, evalExpr ssa regs (denote ssa regs left) id var.expr = some result ∧
              result % modulus var.size = raw.toNat % modulus var.size := by
            split at isRaw
            · rename_i isExpr
              cases isRaw
              exact ⟨_,by rw [isExpr,evalExpr],rfl⟩
            · rename_i inner isExpr
              exact ⟨_,by rw [isExpr,evalExpr,(ih isRaw).1],rfl⟩
            · rename_i inner isExpr
              exact ⟨_,by rw [isExpr,evalExpr,(ih isRaw).1],rfl⟩
            · rename_i inner isExpr
              obtain ⟨⟨narrow,after⟩,isNarrow,isRaw⟩ := Option.bind_eq_some_iff.mp isRaw
              obtain ⟨width,isWidth,isRaw⟩ := Option.bind_eq_some_iff.mp isRaw
              obtain ⟨var',isVar',isSize⟩ := Option.map_eq_some_iff.mp isWidth
              obtain ⟨isInner,inside',small⟩ := ih isNarrow
              have sized : (ssa.var inner).size = width := by rw [var_of_getElem? isVar',isSize]
              dsimp only at isRaw
              split at isRaw
              · cases isRaw
              · cases isRaw
                rw [sized] at inside' small
                refine ⟨_,by rw [isExpr,evalExpr,isInner,Option.map_some,sized],?_⟩
                rw [signExtend_eq inside' small,ofInt_emod inside]
            · rename_i a b isExpr
              obtain ⟨⟨first,after⟩,isFirst,isRaw⟩ := Option.bind_eq_some_iff.mp isRaw
              obtain ⟨⟨second,last⟩,isSecond,isRaw⟩ := Option.bind_eq_some_iff.mp isRaw
              cases isRaw
              refine ⟨_,by rw [isExpr,evalExpr,(ih isFirst).1,(ih isSecond).1,Option.bind_some,Option.map_some],?_⟩
              rw [UInt64.toNat_add]
              push_cast
              exact (Int.emod_emod_of_dvd _ (modulus_dvd_word inside)).symm
            · rename_i a b isExpr
              obtain ⟨⟨first,after⟩,isFirst,isRaw⟩ := Option.bind_eq_some_iff.mp isRaw
              obtain ⟨⟨second,last⟩,isSecond,isRaw⟩ := Option.bind_eq_some_iff.mp isRaw
              cases isRaw
              refine ⟨_,by rw [isExpr,evalExpr,(ih isFirst).1,(ih isSecond).1,Option.bind_some,Option.map_some],?_⟩
              rw [sub_emod inside]
            · cases isRaw
          rw [denote_succ isVar isResult,same,mask_value inside]
        · rw [mask_value inside]
          exact Int.emod_lt_of_pos _ (modulus_pos _)
      · cases found

end Constants

section Chains

variable (ssa : SsaCfg)

-- The variable that an address is computed from, and the constant that is added to it or taken from it.
def baseOperand : Expr → Option VarId
  | .var a => some a
  | .binOp .add a b => if (constant ssa b).isSome then some a else some b
  | .binOp .sub a _ => some a
  | .binOp _ _ _ | .unaryOp _ _ | .const _ _ | .load _ | .fieldAccess _ _ | .phi _ | .ternary _ _ _ | .userOp _ _
  | .unknown => none

def displacementOperand : Expr → Option VarId
  | .binOp .add a b => if (constant ssa b).isSome then some b else some a
  | .binOp .sub _ b => some b
  | .binOp _ _ _ | .unaryOp _ _ | .var _ | .const _ _ | .load _ | .fieldAccess _ _ | .phi _ | .ternary _ _ _
  | .userOp _ _ | .unknown => none

-- The variables that an address is computed through, itself included.
inductive OnChain : VarId → VarId → Prop where
  | here : OnChain p p
  | through : ssa.vars[p]? = some var → baseOperand ssa var.expr = some a → OnChain a q → OnChain p q

def ConstantRoot (p : VarId) : Prop :=
  ∃ q var value size, OnChain ssa p q ∧ ssa.vars[q]? = some var ∧ var.expr = .const value size

def RegisterRoot (p : VarId) : Prop :=
  ∃ q var, OnChain ssa p q ∧ ssa.vars[q]? = some var ∧ var.expr = .unknown

-- One variable of a chain is no wider than what it is computed from says.
structure StepKept (var : VarDef) : Prop where
  constant : ∀ value size, var.expr = .const value size → (value.toNat : Int) < modulus var.size
  copy : ∀ a, var.expr = .var a → ConstantRoot ssa a → ∀ regs left x, denote ssa regs left a = some x → x < modulus var.size
  register : ∀ a, baseOperand ssa var.expr = some a → RegisterRoot ssa a → var.size ≤ (ssa.var a).size
  operand : ∀ b displacement, displacementOperand ssa var.expr = some b → Decompile.constant ssa b = some displacement →
    var.size ≤ (ssa.var b).size ∨ 0 ≤ displacement

def SizesKept (p : VarId) : Prop :=
  ∀ q var, OnChain ssa p q → ssa.vars[q]? = some var → StepKept ssa var

-- The location is where the variable points.
def Places (regs : VarId → Int) (p : VarId) (value : Int) : ExactLocation → Prop
  | .global address _ => value = address.toNat
  | .stack base displacement _ =>
    value = (regs base % modulus (ssa.var base).size + displacement) % modulus (ssa.var p).size

variable {ssa} {regs : VarId → Int}

theorem SizesKept.baseOperand {p a : VarId} {var : VarDef} (kept : SizesKept ssa p) (isVar : ssa.vars[p]? = some var)
    (isInner : baseOperand ssa var.expr = some a) : SizesKept ssa a :=
  fun q other onChain isOther => kept q other (.through isVar isInner onChain) isOther

theorem constant_denote {b : VarId} {displacement : Int} (isConstant : constant ssa b = some displacement) :
    ∃ value, denote ssa regs 64 b = some value ∧ 0 ≤ value ∧ value < modulus (ssa.var b).size ∧
      displacement = signedValue (ssa.var b).size value := by
  unfold constant at isConstant
  obtain ⟨⟨value,rest⟩,isValue,isConstant⟩ := Option.bind_eq_some_iff.mp isConstant
  obtain ⟨var,isVar,isOffset⟩ := Option.bind_eq_some_iff.mp isConstant
  obtain ⟨isDenoted,inside,small⟩ := constantBits_denote regs isValue
  rw [var_of_getElem? isVar] at inside small
  unfold offset at isOffset
  rw [if_pos inside,signExtend_eq inside small] at isOffset
  rw [var_of_getElem? isVar]
  exact ⟨_,isDenoted,Int.natCast_nonneg _,small,(Option.some.inj isOffset).symm⟩

theorem displacement_congruent {width wide : UInt32} {value : Int} (small : value < modulus wide)
    (kept : width ≤ wide ∨ 0 ≤ signedValue wide value) : modulus width ∣ value - signedValue wide value := by
  unfold signedValue at kept ⊢
  split
  · simp
  · rename_i negative
    rw [if_neg negative] at kept
    rcases kept with le | isPositive
    · rw [sub_sub_cancel]
      exact modulus_dvd le
    · omega

theorem word_le_modulus {width : UInt32} (narrow : ¬width < 8) : 2 ^ 64 ≤ modulus width := by
  have wide : 8 ≤ width.toNat := by
    rw [UInt32.lt_iff_toNat_lt] at narrow
    exact Nat.le_of_not_lt narrow
  exact pow_le_pow_right₀ (by norm_num) (show 64 ≤ 8 * width.toNat by omega)

theorem emod_congr {bound first second : Int} (divides : bound ∣ first - second) : first % bound = second % bound :=
  Int.emod_eq_emod_iff_emod_sub_eq_zero.mpr (Int.emod_eq_zero_of_dvd divides)

-- Adding to the value what is congruent to the displacement moves it to the new location.
theorem adjust_places {p a : VarId} {var : VarDef} {value added displacement : Int} {location moved : ExactLocation}
    (isVar : ssa.vars[p]? = some var) (placed : Places ssa regs a value location)
    (same : modulus var.size ∣ added - displacement) (adjusted : adjust var.size location displacement = some moved)
    (kept : ∀ base prior size, location = .stack base prior size → var.size ≤ (ssa.var a).size) :
    Places ssa regs p ((value + added) % modulus var.size) moved := by
  cases location with
  | global address size =>
    have isValue : value = address.toNat := placed
    unfold adjust at adjusted
    dsimp only at adjusted
    split at adjusted
    · cases adjusted
    · split at adjusted
      · cases adjusted
      · split at adjusted
        · cases adjusted
        · rename_i inWord inWidth _
          cases adjusted
          have shifted : (value + added) % modulus var.size = (address.toNat + displacement) % modulus var.size := by
            refine emod_congr ?_
            rw [isValue,show (address.toNat : Int) + added - (address.toNat + displacement) = added - displacement by ring]
            exact same
          have small : (address.toNat : Int) + displacement < modulus var.size := by
            by_cases narrow : var.size < 8
            · have bound : ¬2 ^ (var.size.toNat * 8) ≤ (address.toNat : Int) + displacement := fun le => inWidth ⟨narrow,le⟩
              unfold modulus
              rw [Nat.mul_comm]
              omega
            · have wide := word_le_modulus narrow
              omega
          have isWord : ((UInt64.ofInt (address.toNat + displacement)).toNat : Int) = address.toNat + displacement := by
            unfold UInt64.ofInt
            rw [UInt64.toNat_ofNat_of_lt' (by simp only [UInt64.size]; omega)]
            omega
          rw [shifted,Int.emod_eq_of_lt (by omega) small]
          exact isWord.symm
  | stack base prior size =>
    unfold adjust at adjusted
    dsimp only at adjusted
    split at adjusted
    · cases adjusted
      have isValue : value = (regs base % modulus (ssa.var base).size + prior) % modulus (ssa.var a).size := placed
      have narrower := modulus_dvd (kept base prior size rfl)
      have shifted : (value + added) % modulus var.size =
          (regs base % modulus (ssa.var base).size + prior + displacement) % modulus var.size := by
        rw [isValue,Int.add_emod,Int.emod_emod_of_dvd _ narrower,← Int.add_emod]
        refine emod_congr ?_
        rw [show regs base % modulus (ssa.var base).size + prior + added -
          (regs base % modulus (ssa.var base).size + prior + displacement) = added - displacement by ring]
        exact same
      rw [shifted]
      unfold Places
      rw [var_of_getElem? isVar,Int.add_assoc]
    · cases adjusted

-- What a chain ends in decides which kind of location it has.
def Rooted (ssa : SsaCfg) (p : VarId) : ExactLocation → Prop
  | .global _ _ => ConstantRoot ssa p
  | .stack _ _ _ => RegisterRoot ssa p

theorem rooted_through {p a : VarId} {var : VarDef} {location : ExactLocation} (isVar : ssa.vars[p]? = some var)
    (isInner : baseOperand ssa var.expr = some a) (rooted : Rooted ssa a location) : Rooted ssa p location := by
  cases location with
  | global =>
    obtain ⟨q,root,value,size,onChain,isRoot,isConstant⟩ := rooted
    exact ⟨q,root,value,size,.through isVar isInner onChain,isRoot,isConstant⟩
  | stack =>
    obtain ⟨q,root,onChain,isRoot,isUnknown⟩ := rooted
    exact ⟨q,root,.through isVar isInner onChain,isRoot,isUnknown⟩

theorem adjust_rooted {p : VarId} {width : UInt32} {location moved : ExactLocation} {displacement : Int}
    (adjusted : adjust width location displacement = some moved) (rooted : Rooted ssa p location) :
    Rooted ssa p moved := by
  cases location with
  | global =>
    unfold adjust at adjusted
    dsimp only at adjusted
    split at adjusted
    · cases adjusted
    · split at adjusted
      · cases adjusted
      · split at adjusted
        · cases adjusted
        · cases adjusted
          exact rooted
  | stack =>
    unfold adjust at adjusted
    dsimp only at adjusted
    split at adjusted
    · cases adjusted
      exact rooted
    · cases adjusted

theorem moved_places {p a b : VarId} {var : VarDef} {left : Nat} {prior moved : ExactLocation} {sign displacement : Int}
    (isVar : ssa.vars[p]? = some var) (step : StepKept ssa var) (isInner : baseOperand ssa var.expr = some a)
    (isOperand : displacementOperand ssa var.expr = some b) (isConstant : constant ssa b = some displacement)
    (evaluates : ∀ x y, denote ssa regs (left + 64) a = some x → denote ssa regs (left + 64) b = some y →
      evalExpr ssa regs (denote ssa regs (left + 64)) p var.expr = some (x + sign * y))
    (placed : ∃ value, denote ssa regs (left + 64) a = some value ∧ Places ssa regs a value prior)
    (rooted : Rooted ssa a prior) (adjusted : adjust var.size prior (sign * displacement) = some moved) :
    (∃ value, denote ssa regs (left + 64 + 1) p = some value ∧ Places ssa regs p value moved) ∧ Rooted ssa p moved := by
  obtain ⟨x,isX,isPlaced⟩ := placed
  obtain ⟨y,isY,nonneg,small,isDisplacement⟩ := @constant_denote ssa regs b displacement isConstant
  have isY := denote_mono isY (Nat.le_add_left 64 left)
  have congruent : modulus var.size ∣ y - displacement := by
    rw [isDisplacement]
    exact displacement_congruent small (isDisplacement ▸ step.operand b displacement isOperand isConstant)
  have same : modulus var.size ∣ sign * y - sign * displacement := by
    rw [← Int.mul_sub]
    exact Dvd.dvd.mul_left congruent sign
  refine ⟨⟨_,denote_succ isVar (evaluates x y isX isY),?_⟩,?_⟩
  · refine adjust_places isVar isPlaced same adjusted fun base before size isStack => ?_
    subst isStack
    exact step.register a isInner rooted
  · exact adjust_rooted adjusted (rooted_through isVar isInner rooted)

theorem copied_places {p a : VarId} {var : VarDef} {left : Nat} {location : ExactLocation}
    (isVar : ssa.vars[p]? = some var) (step : StepKept ssa var) (isCopy : var.expr = .var a)
    (placed : ∃ value, denote ssa regs (left + 64) a = some value ∧ Places ssa regs a value location)
    (rooted : Rooted ssa a location) :
    (∃ value, denote ssa regs (left + 64 + 1) p = some value ∧ Places ssa regs p value location) ∧
      Rooted ssa p location := by
  have isInner : baseOperand ssa var.expr = some a := by rw [isCopy,baseOperand]
  obtain ⟨x,isX,isPlaced⟩ := placed
  refine ⟨⟨_,denote_succ isVar (by rw [isCopy,evalExpr,isX]),?_⟩,rooted_through isVar isInner rooted⟩
  cases location with
  | global address size =>
    have isAddress : x = address.toNat := isPlaced
    have small := step.copy a isCopy rooted regs _ x isX
    exact (Int.emod_eq_of_lt (by omega) small).trans isAddress
  | stack base displacement size =>
    have isAddress : x = (regs base % modulus (ssa.var base).size + displacement) % modulus (ssa.var a).size := isPlaced
    unfold Places
    rw [var_of_getElem? isVar,isAddress]
    exact Int.emod_emod_of_dvd _ (modulus_dvd (step.register a isInner rooted))

-- A resolved address is where its variable points. The induction is on the depth that is left.
theorem resolve_places {size : UInt32} {frames : List UInt64} {left : Nat} {p : VarId} {location : ExactLocation}
    (kept : SizesKept ssa p) (found : resolve ssa size frames left p = some location) :
    (∃ value, denote ssa regs (left + 64) p = some value ∧ Places ssa regs p value location) ∧
      Rooted ssa p location := by
  induction left generalizing p location with
  | zero => cases found
  | succ left ih =>
    unfold resolve at found
    split at found
    · cases found
    · obtain ⟨var,isVar,found⟩ := Option.bind_eq_some_iff.mp found
      have step := kept p var .here isVar
      rw [show left + 1 + 64 = left + 64 + 1 by omega]
      split at found
      · rename_i address width isExpr
        split at found
        · cases found
          refine ⟨⟨_,denote_succ isVar (by rw [isExpr,evalExpr]),?_⟩,p,var,address,width,.here,isVar,isExpr⟩
          exact Int.emod_eq_of_lt (Int.natCast_nonneg _) (step.constant address width isExpr)
        · cases found
      · rename_i isExpr
        split at found
        · cases found
          refine ⟨⟨_,denote_succ isVar (by rw [isExpr,evalExpr]),?_⟩,p,var,.here,isVar,isExpr⟩
          have isBase : Places ssa regs p (regs p % modulus var.size) (.stack p 0 size) ↔
              regs p % modulus var.size = (regs p % modulus (ssa.var p).size + 0) % modulus (ssa.var p).size := Iff.rfl
          rw [isBase,var_of_getElem? isVar,Int.add_zero,Int.emod_emod_of_dvd _ (dvd_refl _)]
        · cases found
      · rename_i a isExpr
        obtain ⟨placed,rooted⟩ := ih (kept.baseOperand isVar (by rw [isExpr,baseOperand])) found
        exact copied_places isVar step isExpr placed rooted
      · rename_i a b isExpr
        split at found
        · rename_i displacement isConstant
          obtain ⟨prior,isPrior,adjusted⟩ := Option.bind_eq_some_iff.mp found
          have isInner : baseOperand ssa var.expr = some a := by rw [isExpr,baseOperand,isConstant]; rfl
          obtain ⟨placed,rooted⟩ := ih (kept.baseOperand isVar isInner) isPrior
          refine @moved_places ssa regs p a b var left prior location 1 displacement isVar step isInner
            (by rw [isExpr,displacementOperand,isConstant]; rfl) isConstant (fun x y isX isY => ?_) placed rooted
            (by rwa [Int.one_mul])
          rw [isExpr,evalExpr,isX,isY,Int.one_mul]
          rfl
        · rename_i isConstant
          obtain ⟨prior,isPrior,found⟩ := Option.bind_eq_some_iff.mp found
          obtain ⟨displacement,isDisplacement,adjusted⟩ := Option.bind_eq_some_iff.mp found
          have isInner : baseOperand ssa var.expr = some b := by rw [isExpr,baseOperand,isConstant]; rfl
          obtain ⟨placed,rooted⟩ := ih (kept.baseOperand isVar isInner) isPrior
          refine @moved_places ssa regs p b a var left prior location 1 displacement isVar step isInner
            (by rw [isExpr,displacementOperand,isConstant]; rfl) isDisplacement (fun x y isX isY => ?_) placed rooted
            (by rwa [Int.one_mul])
          rw [isExpr,evalExpr,isX,isY,Int.one_mul,Int.add_comm x y]
          rfl
      · rename_i a b isExpr
        obtain ⟨prior,isPrior,found⟩ := Option.bind_eq_some_iff.mp found
        obtain ⟨displacement,isDisplacement,found⟩ := Option.bind_eq_some_iff.mp found
        split at found
        · have isInner : baseOperand ssa var.expr = some a := by rw [isExpr,baseOperand]
          obtain ⟨placed,rooted⟩ := ih (kept.baseOperand isVar isInner) isPrior
          refine @moved_places ssa regs p a b var left prior location (-1) displacement isVar step isInner
            (by rw [isExpr,displacementOperand]) isDisplacement (fun x y isX isY => ?_) placed rooted
            (by rwa [Int.neg_one_mul])
          rw [isExpr,evalExpr,isX,isY,Int.neg_one_mul,← Int.sub_eq_add_neg]
          rfl
        · cases found
      all_goals cases found

end Chains

-- Where a location starts: its address, or its distance from the base.
def ExactLocation.start : ExactLocation → Int
  | .global address _ => address.toNat
  | .stack _ displacement _ => displacement

-- Two locations that are told apart are distances of one kind.
theorem start_sub {ssa : SsaCfg} {regs : VarId → Int} {p q : VarId} {value value' : Int} {location other : ExactLocation}
    (placed : Places ssa regs p value location) (placed' : Places ssa regs q value' other)
    (sameWidth : (ssa.var p).size = (ssa.var q).size) (apart : location.mayOverlap other = false) :
    (value' - value) % modulus (ssa.var p).size = (other.start - location.start) % modulus (ssa.var p).size ∧
      (value - value') % modulus (ssa.var p).size = (location.start - other.start) % modulus (ssa.var p).size := by
  cases location with
  | global address size =>
    cases other with
    | global address' size' =>
      have isValue : value = address.toNat := placed
      have isValue' : value' = address'.toNat := placed'
      subst isValue isValue'
      exact ⟨rfl,rfl⟩
    | stack => cases apart
  | stack base displacement size =>
    cases other with
    | global => cases apart
    | stack base' displacement' size' =>
      by_cases sameBase : base = base'
      · subst sameBase
        have isValue : value = _ % modulus (ssa.var p).size := placed
        have isValue' : value' = _ % modulus (ssa.var q).size := placed'
        rw [← sameWidth] at isValue'
        subst isValue isValue'
        refine ⟨?_,?_⟩
        · rw [← Int.sub_emod]
          congr 1
          unfold ExactLocation.start
          ring
        · rw [← Int.sub_emod]
          congr 1
          unfold ExactLocation.start
          ring
      · have overlapping : (ExactLocation.stack base displacement size).mayOverlap (.stack base' displacement' size') = true :=
          if_neg sameBase
        rw [overlapping] at apart
        cases apart

theorem resolve_size {ssa : SsaCfg} {size : UInt32} {frames : List UInt64} {left : Nat} {p : VarId}
    {location : ExactLocation} (found : resolve ssa size frames left p = some location) : size ≠ 0 := by
  cases left with
  | zero => cases found
  | succ left =>
    rintro rfl
    unfold resolve at found
    cases found

-- A pointer denotes its location for all registers.
def PointsAt (ssa : SsaCfg) (p : VarId) (location : ExactLocation) : Prop :=
  ∀ regs, ∃ value, denote ssa regs 128 p = some value ∧ Places ssa regs p value location

-- Of two pointers the bytes that they access are apart for all registers.
def ApartBytes (ssa : SsaCfg) (p q : VarId) (size size' : UInt32) : Prop :=
  ∀ regs value value', denote ssa regs 128 p = some value → denote ssa regs 128 q = some value' →
    RangesApart (modulus (ssa.var p).size) value size.toNat value' size'.toNat

-- Going forwards from one start, around the address space of that width, the other one is not reached too early.
def WrapsApart (width : UInt32) (location other : ExactLocation) (size size' : UInt32) : Prop :=
  (size.toNat : Int) ≤ (other.start - location.start) % modulus width ∧
    (size'.toNat : Int) ≤ (location.start - other.start) % modulus width

-- A location is right where its chain keeps the widths; of two such locations that are told apart the bytes are
-- disjoint exactly when they are so modulo the width.
theorem exactLocation_places (ssa : SsaCfg) (cc : CallingConv) :
    (∀ p size location, exactLocation ssa cc p size = some location → SizesKept ssa p → PointsAt ssa p location) ∧
    (∀ p q size size' location other, exactLocation ssa cc p size = some location →
      exactLocation ssa cc q size' = some other → SizesKept ssa p → SizesKept ssa q →
      (ssa.var p).size = (ssa.var q).size → location.mayOverlap other = false →
      (ApartBytes ssa p q size size' ↔ WrapsApart (ssa.var p).size location other size size')) := by
  constructor
  · intro p size location found kept regs
    exact (resolve_places kept found).1
  · intro p q size size' location other found found' kept kept' sameWidth apart
    have some : 0 < size.toNat := Nat.pos_of_ne_zero fun zero =>
      resolve_size found (UInt32.toNat_inj.mp zero)
    have some' : 0 < size'.toNat := Nat.pos_of_ne_zero fun zero =>
      resolve_size found' (UInt32.toNat_inj.mp zero)
    have each : ∀ regs value value', denote ssa regs 128 p = .some value → denote ssa regs 128 q = .some value' →
        (RangesApart (modulus (ssa.var p).size) value size.toNat value' size'.toNat ↔
          WrapsApart (ssa.var p).size location other size size') := by
      intro regs value value' isValue isValue'
      obtain ⟨x,isX,placed⟩ := (@resolve_places ssa regs _ _ _ _ _ kept found).1
      obtain ⟨y,isY,placed'⟩ := (@resolve_places ssa regs _ _ _ _ _ kept' found').1
      cases Option.some.inj (isX.symm.trans isValue)
      cases Option.some.inj (isY.symm.trans isValue')
      obtain ⟨ahead,behind⟩ := start_sub placed placed' sameWidth apart
      rw [rangesApart_iff (modulus_pos _) some some',ahead,behind]
      rfl
    constructor
    · intro disjoint
      obtain ⟨x,isX,_⟩ := (@resolve_places ssa (fun _ => 0) _ _ _ _ _ kept found).1
      obtain ⟨y,isY,_⟩ := (@resolve_places ssa (fun _ => 0) _ _ _ _ _ kept' found').1
      exact (each _ x y isX isY).mp (disjoint _ x y isX isY)
    · exact fun wraps regs value value' isValue isValue' => (each regs value value' isValue isValue').mpr wraps

section Examples

def variable_ (space : AddressSpaceId) (offset : UInt64) (size : UInt32) (expr : Expr) : VarDef :=
  ⟨⟨space,offset,size⟩,expr,none,size,false⟩

-- A pointer of four bytes is a copy of a constant of eight.
def truncatedCopy : SsaCfg :=
  ⟨[],[variable_ .unique 0x100 8 (.const 0x100000010 8),variable_ .unique 0x200 4 (.var 0)],0,[]⟩

-- The stack pointer of four bytes, and the same address after it has gone around.
def aroundStack : SsaCfg :=
  ⟨[],[variable_ .register 16 4 .unknown,variable_ .const 0x7fffffff 4 (.const 0x7fffffff 4),
    variable_ .unique 0x100 4 (.binOp .add 0 1),variable_ .unique 0x200 4 (.binOp .add 2 1),
    variable_ .const 2 4 (.const 2 4),variable_ .unique 0x300 4 (.binOp .add 3 4)],0,[]⟩

-- The copy points to 0x10 and its location is elsewhere. The two stack locations are one, and are told apart.
theorem exactLocation_misplaces :
    (exactLocation truncatedCopy .sysV 1 4 = some (.global 0x100000010 4) ∧
      ¬PointsAt truncatedCopy 1 (.global 0x100000010 4)) ∧
    (exactLocation aroundStack .cdecl32 0 4 = some (.stack 0 0 4) ∧
      exactLocation aroundStack .cdecl32 5 4 = some (.stack 0 0x100000000 4) ∧
      (ExactLocation.stack 0 0 4).mayOverlap (.stack 0 0x100000000 4) = false ∧ ¬ApartBytes aroundStack 0 5 4 4) := by
  refine ⟨⟨by decide,?_⟩,by decide,by decide,by decide,?_⟩
  · intro placed
    obtain ⟨value,isValue,isPlaced⟩ := placed fun _ => 0
    have isLow : denote truncatedCopy (fun _ => 0) 128 1 = some 0x10 := by decide
    cases Option.some.inj (isLow.symm.trans isValue)
    have isAddress : (0x10 : Int) = (0x100000010 : UInt64).toNat := isPlaced
    exact absurd isAddress (by decide)
  · intro disjoint
    have first : denote aroundStack (fun _ => 0) 128 0 = some 0 := by decide
    have second : denote aroundStack (fun _ => 0) 128 5 = some 0 := by decide
    exact disjoint _ 0 0 first second 0 (by decide) 0 (by decide) rfl

end Examples

end Rsleigh.Decompile
