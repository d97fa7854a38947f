import Mathlib.Data.Nat.Bitwise
import Rsleigh.Decompile.OpaquePred
import Rsleigh.Pcode.Fold

namespace Rsleigh.Decompile.OpaquePred

open Pcode

section Masks

variable {size : UInt32}

theorem sizeMask_eq (foldable : foldableWidth size = true) : sizeMask size = allOnesMask size := by
  rw [foldableWidth_iff] at foldable
  obtain ⟨low,high⟩ := foldable
  have same : size = UInt32.ofNat size.toNat := UInt32.ofNat_toNat.symm
  generalize size.toNat = n at *
  subst same
  interval_cases n <;> decide

theorem toNat_signBit (foldable : foldableWidth size = true) : (signBit size).toNat = 2 ^ (8 * size.toNat - 1) := by
  rw [foldableWidth_iff] at foldable
  obtain ⟨low,high⟩ := foldable
  have same : size = UInt32.ofNat size.toNat := UInt32.ofNat_toNat.symm
  generalize size.toNat = n at *
  subst same
  interval_cases n <;> decide

theorem toNat_masked (foldable : foldableWidth size = true) (v : UInt64) :
    (v &&& sizeMask size).toNat = v.toNat % 2 ^ (8 * size.toNat) := by
  rw [sizeMask_eq foldable,toNat_and_allOnesMask foldable]

theorem signBit_set (foldable : foldableWidth size = true) (v : UInt64) :
    (signBit size ≠ 0 ∧ v &&& signBit size ≠ 0) ↔ v.toNat.testBit (8 * size.toNat - 1) = true := by
  have value := toNat_signBit foldable
  have nonzero : signBit size ≠ 0 := by
    intro zero
    rw [zero] at value
    exact absurd value.symm (Nat.two_pow_pos _).ne'
  have tested : (v &&& signBit size ≠ 0) ↔ (v &&& signBit size).toNat ≠ 0 := by
    rw [Ne,Ne,← UInt64.toNat_inj]
    rfl
  rw [tested,UInt64.toNat_and,value,Nat.and_two_pow]
  simp [nonzero]

theorem mask_bit (foldable : foldableWidth size = true) (i : Nat) :
    (sizeMask size).toBitVec.getLsbD i = decide (i < 8 * size.toNat) := by
  rw [BitVec.getLsbD,UInt64.toNat_toBitVec,sizeMask_eq foldable,toNat_allOnesMask foldable,Nat.testBit_two_pow_sub_one]

theorem extended_toBitVec (foldable : foldableWidth size = true) (v : UInt64) :
    (if signBit size ≠ 0 ∧ v &&& signBit size ≠ 0 then v ||| ~~~sizeMask size else v &&& sizeMask size).toBitVec =
      (BitVec.ofNat (8 * size.toNat) v.toNat).signExtend 64 := by
  have positive := (foldableWidth_iff.mp foldable).1
  have sign : (BitVec.ofNat (8 * size.toNat) v.toNat).msb = v.toNat.testBit (8 * size.toNat - 1) := by
    rw [BitVec.msb_eq_getLsbD_last,BitVec.getLsbD_ofNat]
    simp
    omega
  by_cases negative : signBit size ≠ 0 ∧ v &&& signBit size ≠ 0
  · rw [if_pos negative]
    rw [signBit_set foldable] at negative
    ext i bound
    rw [BitVec.getElem_signExtend,sign,negative]
    have bit := mask_bit foldable i
    rw [BitVec.getLsbD_eq_getElem bound] at bit
    simp only [UInt64.toBitVec_or,UInt64.toBitVec_not,BitVec.getElem_or,BitVec.getElem_not,bit]
    by_cases low : i < 8 * size.toNat
    · simp [low,BitVec.getElem_eq_testBit_toNat]
    · simp [low]
  · rw [if_neg negative]
    rw [signBit_set foldable,Bool.not_eq_true] at negative
    ext i bound
    rw [BitVec.getElem_signExtend,sign,negative]
    have bit := mask_bit foldable i
    rw [BitVec.getLsbD_eq_getElem bound] at bit
    simp only [UInt64.toBitVec_and,BitVec.getElem_and,bit]
    by_cases low : i < 8 * size.toNat
    · simp [low,BitVec.getElem_eq_testBit_toNat]
    · simp [low]

theorem sext_toBitVec (foldable : foldableWidth size = true) {v : UInt64} (fits : v.toNat < 2 ^ (8 * size.toNat)) :
    (sext size v).toBitVec = (BitVec.ofNat (8 * size.toNat) v.toNat).signExtend 64 := by
  rw [← extended_toBitVec foldable]
  unfold sext
  by_cases negative : signBit size ≠ 0 ∧ v &&& signBit size ≠ 0
  · rw [if_pos negative,if_pos negative]
    rfl
  · rw [if_neg negative,if_neg negative]
    have kept : v &&& sizeMask size = v := by
      rw [← UInt64.toNat_inj,toNat_masked foldable,Nat.mod_eq_of_lt fits]
    rw [kept]
    rfl

end Masks

section Narrow

-- Signed division at 64 bits, seen at the width of the operands.
variable {w : Nat} {a b : BitVec w}

theorem toInt_setWidth_narrow (narrow : w ≤ 64) (x : BitVec 64) : (x.setWidth w).toInt = x.toInt.bmod (2 ^ w) := by
  have divides : (2 ^ w : Nat) ∣ 2 ^ 64 := Nat.pow_dvd_pow 2 narrow
  rw [BitVec.toInt_setWidth,BitVec.toInt_eq_toNat_bmod,Int.bmod_bmod_of_dvd divides]

theorem sdiv_narrow (narrow : w ≤ 64) : ((a.signExtend 64).sdiv (b.signExtend 64)).setWidth w = a.sdiv b := by
  have divides : (2 ^ w : Nat) ∣ 2 ^ 64 := Nat.pow_dvd_pow 2 narrow
  apply BitVec.eq_of_toInt_eq
  rw [toInt_setWidth_narrow narrow,BitVec.toInt_sdiv,BitVec.toInt_sdiv,Int.bmod_bmod_of_dvd divides,
    BitVec.toInt_signExtend_of_le narrow,BitVec.toInt_signExtend_of_le narrow]

theorem srem_narrow (narrow : w ≤ 64) : ((a.signExtend 64).srem (b.signExtend 64)).setWidth w = a.srem b := by
  apply BitVec.eq_of_toInt_eq
  rw [toInt_setWidth_narrow narrow,BitVec.toInt_srem,BitVec.toInt_signExtend_of_le narrow,
    BitVec.toInt_signExtend_of_le narrow,← BitVec.toInt_srem,BitVec.toInt_bmod_cancel]

end Narrow

-- What an operator needs to be interpreted as it computes: operands as wide as each other and as the result where the
-- width counts, amounts of shifts below 64, and booleans.
def BinSupported : BinOpKind → UInt32 → UInt32 → UInt32 → Nat → Nat → Prop
  | .add, left, right, out, _, _ | .sub, left, right, out, _, _ | .mult, left, right, out, _, _
  | .div, left, right, out, _, _ | .sdiv, left, right, out, _, _ | .rem, left, right, out, _, _
  | .srem, left, right, out, _, _ | .and, left, right, out, _, _ | .or, left, right, out, _, _
  | .xor, left, right, out, _, _ => left = right ∧ left = out
  | .lsl, left, _, out, _, y | .lsr, left, _, out, _, y | .asr, left, _, out, _, y => left = out ∧ y < 64
  | .eq, left, right, _, _, _ | .notEq, left, right, _, _, _ | .less, left, right, _, _, _ | .lessEq, left, right, _, _, _
  | .sless, left, right, _, _, _ | .slessEq, left, right, _, _, _ => left = right
  | .boolAnd, _, _, _, x, y | .boolOr, _, _, _, x, y | .boolXor, _, _, _, x, y => x ≤ 1 ∧ y ≤ 1
  | _, _, _, _, _, _ => True

-- A population count does not look at the width of a leaf, nor a count of leading zeros at any width but the full one.
def UnSupported : UnaryOpKind → Expr → UInt32 → UInt32 → Nat → Prop
  | .neg, _, size, out, _ | .not, _, size, out, _ => size = out
  | .boolNot, _, _, _, x => x ≤ 1
  | .popcount, arg, size, _, _ => size = 8 ∨ isLeaf arg = false
  | .lzcount, _, size, _, _ => size = 8
  | .trunc, _, _, _, _ => False
  | _, _, _, _, _ => True

section Operators

variable {env : Env} {size outSize : UInt32} {l r raw : UInt64}

-- A value of an operator, seen at the width of the result.
def AtWidth (out : UInt32) (raw : UInt64) (value : Nat) : Prop :=
  raw.toNat % 2 ^ (8 * out.toNat) = value % 2 ^ (8 * out.toNat)

theorem atWidth_masked (foldable : foldableWidth size = true) {value : Nat}
    (exact : (raw &&& allOnesMask size).toNat = value) : AtWidth size raw value := by
  rw [toNat_and_allOnesMask foldable] at exact
  rw [AtWidth,← exact,Nat.mod_mod]

theorem atWidth_bool {b : Bool} {value : Nat} (exact : b.toNat = value) : AtWidth outSize b.toUInt64 value := by
  rw [AtWidth,toNat_toUInt64,exact]

theorem shift_amount_masked (foldable : foldableWidth size = true) (foldable' : foldableWidth rightSize = true) {y : Nat}
    (right : r.toNat % 2 ^ (8 * rightSize.toNat) = y) (small : y < 64) :
    ((r &&& sizeMask size) &&& 63).toNat = y := by
  have positive := (foldableWidth_iff.mp foldable).1
  have positive' := (foldableWidth_iff.mp foldable').1
  have low : ∀ n, 1 ≤ n → r.toNat % 2 ^ (8 * n) % 64 = r.toNat % 64 := by
    intro n atLeast
    exact Nat.mod_mod_of_dvd _ (Nat.pow_dvd_pow 2 (show 6 ≤ 8 * n by omega))
  have sixty : (63 : UInt64).toNat = 2 ^ 6 - 1 := rfl
  rw [UInt64.toNat_and,toNat_masked foldable,sixty,Nat.and_two_pow_sub_one_eq_mod]
  rw [show 2 ^ 6 = 64 from rfl,low _ positive,← low _ positive',right,Nat.mod_eq_of_lt small]

theorem lsl_atWidth (foldable : foldableWidth size = true) {a : UInt64} {y : Nat} {amount : UInt64}
    (isAmount : amount.toNat = y) (small : y < 64) :
    AtWidth size (a <<< amount) (evalBinary env .intLsl size outSize a.toNat y) := by
  have width : 8 * size.toNat ≤ 64 := by have := (foldableWidth_iff.mp foldable).2; omega
  have divides : 2 ^ (8 * size.toNat) ∣ 2 ^ 64 := Nat.pow_dvd_pow 2 width
  rw [AtWidth,UInt64.toNat_shiftLeft,isAmount,Nat.mod_eq_of_lt small,Nat.mod_mod_of_dvd _ divides,Nat.shiftLeft_eq,evalBinary]
  by_cases far : 8 * size.toNat ≤ y
  · rw [if_pos far]
    obtain ⟨more,rfl⟩ := Nat.exists_eq_add_of_le far
    rw [Nat.pow_add,← Nat.mul_assoc,Nat.mul_right_comm,Nat.mul_mod_left]
    rfl
  · rw [if_neg far]
    simp [Nat.shiftLeft_eq]

theorem lsr_atWidth {a : UInt64} {y : Nat} {amount : UInt64} (fits : a.toNat < 2 ^ (8 * size.toNat)) (isAmount : amount.toNat = y)
    (small : y < 64) : AtWidth size (a >>> amount) (evalBinary env .intLsr size outSize a.toNat y) := by
  rw [AtWidth,UInt64.toNat_shiftRight,isAmount,Nat.mod_eq_of_lt small,evalBinary]
  by_cases far : 8 * size.toNat ≤ y
  · have gone : a.toNat >>> y = 0 := by
      rw [Nat.shiftRight_eq_div_pow]
      exact Nat.div_eq_of_lt (Nat.lt_of_lt_of_le fits (Nat.pow_le_pow_right (by decide) far))
    rw [if_pos far,gone]
  · rw [if_neg far]
    simp [Nat.mod_eq_of_lt fits]

theorem asr_atWidth (foldable : foldableWidth size = true) {a : UInt64} {y : Nat} {amount : UInt64}
    (fits : a.toNat < 2 ^ (8 * size.toNat)) (isAmount : amount.toNat = y) :
    AtWidth size (.ofBitVec ((sext size a).toBitVec.sshiftRight amount.toNat))
      (evalBinary env .intAsr size outSize a.toNat y) := by
  have width : 8 * size.toNat ≤ 64 := by have := (foldableWidth_iff.mp foldable).2; omega
  have value : (BitVec.ofNat (8 * size.toNat) a.toNat).sshiftRight (min y (8 * size.toNat)) =
      (BitVec.ofNat (8 * size.toNat) a.toNat).sshiftRight y := by
    by_cases far : 8 * size.toNat ≤ y
    · rw [Nat.min_eq_right far]
      ext i bound
      simp [BitVec.getElem_sshiftRight]
      omega
    · rw [Nat.min_eq_left (by omega)]
  have narrow : ((sext size a).toBitVec.sshiftRight y).toNat % 2 ^ (8 * size.toNat) =
      (((sext size a).toBitVec.sshiftRight y).setWidth (8 * size.toNat)).toNat := by
    rw [BitVec.toNat_setWidth]
  rw [AtWidth,isAmount,evalBinary,value,UInt64.toNat_ofBitVec,narrow,sext_toBitVec foldable fits,setWidth_sshiftRight width]
  rw [Nat.mod_eq_of_lt (BitVec.isLt _)]

theorem bool_bit {v : UInt64} {x : Nat} (foldable : foldableWidth size = true) (value : v.toNat % 2 ^ (8 * size.toNat) = x)
    (small : x ≤ 1) : (v &&& 1).toNat = x := by
  have positive := (foldableWidth_iff.mp foldable).1
  have low : v.toNat % 2 ^ (8 * size.toNat) % 2 = v.toNat % 2 :=
    Nat.mod_mod_of_dvd _ (dvd_pow_self 2 (by omega))
  have one : (1 : UInt64).toNat = 2 ^ 1 - 1 := rfl
  rw [UInt64.toNat_and,one,Nat.and_two_pow_sub_one_eq_mod,Nat.pow_one]
  omega

theorem masked_bit (foldable : foldableWidth size = true) (v : UInt64) : (v &&& sizeMask size) &&& 1 = v &&& 1 := by
  have positive := (foldableWidth_iff.mp foldable).1
  have one : (1 : UInt64).toNat = 2 ^ 1 - 1 := rfl
  rw [← UInt64.toNat_inj,UInt64.toNat_and,toNat_masked foldable,UInt64.toNat_and,one,Nat.and_two_pow_sub_one_eq_mod,
    Nat.and_two_pow_sub_one_eq_mod]
  exact Nat.mod_mod_of_dvd _ (Nat.pow_dvd_pow 2 (by omega))

theorem ofNat_fits {a : UInt64} (fits : a.toNat < 2 ^ (8 * size.toNat)) :
    (BitVec.ofNat (8 * size.toNat) a.toNat).toNat = a.toNat := by
  rw [BitVec.toNat_ofNat,Nat.mod_eq_of_lt fits]

theorem div_atWidth {a b : UInt64} (left : a.toNat < 2 ^ (8 * size.toNat)) (right : b.toNat < 2 ^ (8 * size.toNat)) :
    AtWidth outSize (a / b) (evalBinary env .intDiv size outSize a.toNat b.toNat) := by
  rw [AtWidth,evalBinary,BitVec.toNat_udiv,ofNat_fits left,ofNat_fits right,UInt64.toNat_div]

theorem rem_atWidth {a b : UInt64} (left : a.toNat < 2 ^ (8 * size.toNat)) (right : b.toNat < 2 ^ (8 * size.toNat)) :
    AtWidth outSize (a % b) (evalBinary env .intRem size outSize a.toNat b.toNat) := by
  rw [AtWidth,evalBinary,BitVec.toNat_umod,ofNat_fits left,ofNat_fits right,UInt64.toNat_mod]

theorem sdiv_atWidth {a b : UInt64} (foldable : foldableWidth size = true) (left : a.toNat < 2 ^ (8 * size.toNat))
    (right : b.toNat < 2 ^ (8 * size.toNat)) :
    AtWidth size (sext size a / sext size b).toUInt64 (evalBinary env .intSDiv size outSize a.toNat b.toNat) := by
  have width : 8 * size.toNat ≤ 64 := by have := (foldableWidth_iff.mp foldable).2; omega
  have bits : (sext size a / sext size b).toUInt64.toNat % 2 ^ (8 * size.toNat) =
      (((sext size a).toBitVec.sdiv (sext size b).toBitVec).setWidth (8 * size.toNat)).toNat := by
    rw [BitVec.toNat_setWidth]
    rfl
  rw [AtWidth,bits,sext_toBitVec foldable left,sext_toBitVec foldable right,sdiv_narrow width,evalBinary,
    Nat.mod_eq_of_lt (BitVec.isLt _)]

theorem srem_atWidth {a b : UInt64} (foldable : foldableWidth size = true) (left : a.toNat < 2 ^ (8 * size.toNat))
    (right : b.toNat < 2 ^ (8 * size.toNat)) :
    AtWidth size (sext size a % sext size b).toUInt64 (evalBinary env .intSRem size outSize a.toNat b.toNat) := by
  have width : 8 * size.toNat ≤ 64 := by have := (foldableWidth_iff.mp foldable).2; omega
  have bits : (sext size a % sext size b).toUInt64.toNat % 2 ^ (8 * size.toNat) =
      (((sext size a).toBitVec.srem (sext size b).toBitVec).setWidth (8 * size.toNat)).toNat := by
    rw [BitVec.toNat_setWidth]
    rfl
  rw [AtWidth,bits,sext_toBitVec foldable left,sext_toBitVec foldable right,srem_narrow width,evalBinary,
    Nat.mod_eq_of_lt (BitVec.isLt _)]

theorem toInt_sext (foldable : foldableWidth size = true) {a : UInt64} (fits : a.toNat < 2 ^ (8 * size.toNat)) :
    (sext size a).toInt = (BitVec.ofNat (8 * size.toNat) a.toNat).toInt := by
  have width : 8 * size.toNat ≤ 64 := by have := (foldableWidth_iff.mp foldable).2; omega
  change (sext size a).toBitVec.toInt = _
  rw [sext_toBitVec foldable fits,BitVec.toInt_signExtend_of_le width]

theorem sless_exact {a b : UInt64} (foldable : foldableWidth size = true) (left : a.toNat < 2 ^ (8 * size.toNat))
    (right : b.toNat < 2 ^ (8 * size.toNat)) :
    (decide (sext size a < sext size b)).toNat = evalBinary env .intSLess size outSize a.toNat b.toNat := by
  simp [evalBinary,BitVec.slt,Int64.lt_iff_toInt_lt,toInt_sext foldable left,toInt_sext foldable right]

theorem slessEq_exact {a b : UInt64} (foldable : foldableWidth size = true) (left : a.toNat < 2 ^ (8 * size.toNat))
    (right : b.toNat < 2 ^ (8 * size.toNat)) :
    (decide (sext size a ≤ sext size b)).toNat = evalBinary env .intSLessEq size outSize a.toNat b.toNat := by
  simp [evalBinary,BitVec.sle,Int64.le_iff_toInt_le,toInt_sext foldable left,toInt_sext foldable right]

theorem applyBinop_exact {rightSize : UInt32} {x y : Nat} (foldable : foldableWidth size = true)
    (foldable' : foldableWidth rightSize = true) (supported : BinSupported op size rightSize outSize x y)
    (left : l.toNat % 2 ^ (8 * size.toNat) = x) (right : r.toNat % 2 ^ (8 * rightSize.toNat) = y)
    (applied : applyBinop op l r size = some raw) : AtWidth outSize raw (evalBinary env op.pcode size outSize x y) := by
  have isLeft : (l &&& sizeMask size).toNat = x := by rw [toNat_masked foldable,left]
  have isRight : size = rightSize → (r &&& sizeMask size).toNat = y := by
    rintro rfl
    rw [toNat_masked foldable,right]
  have fits : ∀ v : UInt64, (v &&& sizeMask size).toNat < 2 ^ (8 * size.toNat) := by
    intro v
    rw [toNat_masked foldable]
    exact Nat.mod_lt _ (Nat.two_pow_pos _)
  have amount : y < 64 → ((r &&& sizeMask size) &&& 63).toNat = y := shift_amount_masked foldable foldable' right
  have leftBit : x ≤ 1 → ((l &&& sizeMask size) &&& 1).toNat = x := by
    rw [masked_bit foldable]
    exact bool_bit foldable left
  have rightBit : y ≤ 1 → ((r &&& sizeMask size) &&& 1).toNat = y := by
    rw [masked_bit foldable]
    exact bool_bit foldable' right
  have leftFits := fits l
  have rightFits := fits r
  unfold applyBinop at applied
  generalize l &&& sizeMask size = a at *
  generalize r &&& sizeMask size = b at *
  subst isLeft
  cases op with
  | add =>
    obtain ⟨sameSize,rfl⟩ := supported
    obtain rfl := isRight sameSize
    cases applied
    exact atWidth_masked foldable (intAdd_exact foldable)
  | sub =>
    obtain ⟨sameSize,rfl⟩ := supported
    obtain rfl := isRight sameSize
    cases applied
    exact atWidth_masked foldable (intSub_exact foldable)
  | mult =>
    obtain ⟨sameSize,rfl⟩ := supported
    obtain rfl := isRight sameSize
    cases applied
    exact atWidth_masked foldable (intMult_exact foldable)
  | and =>
    obtain ⟨sameSize,rfl⟩ := supported
    obtain rfl := isRight sameSize
    cases applied
    exact atWidth_masked foldable (intAnd_exact foldable)
  | or =>
    obtain ⟨sameSize,rfl⟩ := supported
    obtain rfl := isRight sameSize
    cases applied
    exact atWidth_masked foldable (intOr_exact foldable)
  | xor =>
    obtain ⟨sameSize,rfl⟩ := supported
    obtain rfl := isRight sameSize
    cases applied
    exact atWidth_masked foldable (intXor_exact foldable)
  | div =>
    obtain ⟨sameSize,rfl⟩ := supported
    obtain rfl := isRight sameSize
    simp only [Option.ite_none_left_eq_some,Option.some.injEq] at applied
    exact applied.2 ▸ div_atWidth leftFits rightFits
  | rem =>
    obtain ⟨sameSize,rfl⟩ := supported
    obtain rfl := isRight sameSize
    simp only [Option.ite_none_left_eq_some,Option.some.injEq] at applied
    exact applied.2 ▸ rem_atWidth leftFits rightFits
  | sdiv =>
    obtain ⟨sameSize,rfl⟩ := supported
    obtain rfl := isRight sameSize
    simp only [Option.ite_none_left_eq_some,Option.some.injEq] at applied
    exact applied.2 ▸ sdiv_atWidth foldable leftFits rightFits
  | srem =>
    obtain ⟨sameSize,rfl⟩ := supported
    obtain rfl := isRight sameSize
    simp only [Option.ite_none_left_eq_some,Option.some.injEq] at applied
    exact applied.2 ▸ srem_atWidth foldable leftFits rightFits
  | lsl =>
    obtain ⟨rfl,small⟩ := supported
    cases applied
    exact lsl_atWidth foldable (amount small) small
  | lsr =>
    obtain ⟨rfl,small⟩ := supported
    cases applied
    exact lsr_atWidth leftFits (amount small) small
  | asr =>
    obtain ⟨rfl,small⟩ := supported
    cases applied
    exact asr_atWidth foldable leftFits (amount small)
  | eq =>
    obtain rfl := isRight supported
    cases applied
    exact atWidth_bool (intEq_exact leftFits rightFits)
  | notEq =>
    obtain rfl := isRight supported
    cases applied
    exact atWidth_bool (intNotEq_exact leftFits rightFits)
  | less =>
    obtain rfl := isRight supported
    cases applied
    exact atWidth_bool (intLess_exact leftFits rightFits)
  | lessEq =>
    obtain rfl := isRight supported
    cases applied
    exact atWidth_bool (intLessEq_exact leftFits rightFits)
  | sless =>
    obtain rfl := isRight supported
    cases applied
    exact atWidth_bool (sless_exact foldable leftFits rightFits)
  | slessEq =>
    obtain rfl := isRight supported
    cases applied
    exact atWidth_bool (slessEq_exact foldable leftFits rightFits)
  | boolAnd =>
    obtain ⟨leftBool,rightBool⟩ := supported
    cases applied
    rw [AtWidth,UInt64.toNat_and,leftBit leftBool,rightBit rightBool]
    generalize a.toNat = x at *
    interval_cases x <;> interval_cases y <;> rfl
  | boolOr =>
    obtain ⟨leftBool,rightBool⟩ := supported
    cases applied
    rw [AtWidth,UInt64.toNat_or,leftBit leftBool,rightBit rightBool]
    generalize a.toNat = x at *
    interval_cases x <;> interval_cases y <;> rfl
  | boolXor =>
    obtain ⟨leftBool,rightBool⟩ := supported
    cases applied
    rw [AtWidth,UInt64.toNat_xor,leftBit leftBool,rightBit rightBool]
    generalize a.toNat = x at *
    interval_cases x <;> interval_cases y <;> rfl
  | _ => cases applied

theorem ofNat_masked (w n : Nat) : BitVec.ofNat w (n % 2 ^ w) = BitVec.ofNat w n :=
  BitVec.eq_of_toNat_eq (by simp)

theorem popcount_atWidth {v : UInt64} (fits : v.toNat < 2 ^ (8 * size.toNat)) (narrow : 8 * size.toNat ≤ 64) :
    AtWidth outSize (.ofBitVec v.toBitVec.cpop) (evalUnary env .popcount size outSize v.toNat) := by
  have whole : v.toBitVec = (BitVec.ofNat (8 * size.toNat) v.toNat).setWidth 64 := by
    apply BitVec.eq_of_toNat_eq
    rw [BitVec.toNat_setWidth,ofNat_fits fits]
    exact (Nat.mod_eq_of_lt v.toNat_lt).symm
  have above : (BitVec.ofNat (8 * size.toNat) v.toNat).cpopNatRec 64 0 =
      (BitVec.ofNat (8 * size.toNat) v.toNat).cpopNatRec (8 * size.toNat) 0 := by
    obtain ⟨more,full⟩ := Nat.exists_eq_add_of_le narrow
    rw [full]
    exact BitVec.cpopNatRec_of_le more _ (Nat.le_refl _)
  rw [AtWidth,UInt64.toNat_ofBitVec,whole,evalUnary,BitVec.toNat_cpop,BitVec.toNat_cpop,
    BitVec.cpopNatRec_setWidth_of_le _ (Nat.le_refl 64),above]

theorem sext_atWidth {v raw : UInt64} (foldable' : foldableWidth outSize = true)
    (extended : raw.toBitVec = (BitVec.ofNat (8 * size.toNat) v.toNat).signExtend 64) :
    AtWidth outSize raw (evalUnary env .intSext size outSize (v.toNat % 2 ^ (8 * size.toNat))) := by
  have width : 8 * outSize.toNat ≤ 64 := by have := (foldableWidth_iff.mp foldable').2; omega
  have bits : raw.toNat % 2 ^ (8 * outSize.toNat) = (raw.toBitVec.setWidth (8 * outSize.toNat)).toNat := by
    rw [BitVec.toNat_setWidth]
    rfl
  rw [AtWidth,bits,extended,setWidth_signExtend width,evalUnary,ofNat_masked,Nat.mod_eq_of_lt (BitVec.isLt _)]

theorem applyUnop_exact {x : Nat} {arg : Expr} (foldable : foldableWidth size = true) (foldable' : foldableWidth outSize = true)
    (supported : UnSupported op arg size outSize x) (value : l.toNat % 2 ^ (8 * size.toNat) = x)
    (exact : isLeaf arg = false → l.toNat = x) (applied : applyUnop op l size outSize = some raw) :
    AtWidth outSize raw (evalUnary env op.pcode size outSize x) := by
  have width : 8 * size.toNat ≤ 64 := by have := (foldableWidth_iff.mp foldable).2; omega
  have whole : size = 8 → l.toNat = x := by
    rintro rfl
    rw [← value]
    exact (Nat.mod_eq_of_lt l.toNat_lt).symm
  unfold applyUnop at applied
  cases op with
  | neg =>
    obtain rfl : size = outSize := supported
    cases applied
    refine atWidth_masked foldable ?_
    rw [← value,← UInt64.zero_sub,@intNeg_exact env size size l foldable]
    simp only [evalUnary,UnaryOpKind.pcode,ofNat_masked]
  | not =>
    obtain rfl : size = outSize := supported
    cases applied
    refine atWidth_masked foldable ?_
    rw [← value,@intNot_exact env size size l foldable]
    simp only [evalUnary,UnaryOpKind.pcode,ofNat_masked]
  | boolNot =>
    have small : x ≤ 1 := supported
    have bit := bool_bit foldable value small
    cases applied
    rw [AtWidth,UInt64.toNat_xor,bit]
    clear value exact whole bit
    interval_cases x <;> rfl
  | zext =>
    cases applied
    rw [AtWidth,toNat_masked foldable,value,← value]
    simp only [evalUnary,UnaryOpKind.pcode,BitVec.toNat_ofNat,Nat.mod_mod]
  | sext =>
    have extended := extended_toBitVec foldable l
    rw [← value]
    by_cases negative : signBit size ≠ 0 ∧ l &&& signBit size ≠ 0
    · rw [if_pos negative] at extended
      simp only [if_pos negative] at applied
      cases applied
      exact sext_atWidth foldable' extended
    · rw [if_neg negative] at extended
      simp only [if_neg negative] at applied
      cases applied
      exact sext_atWidth foldable' extended
  | trunc => exact absurd supported id
  | popcount =>
    have isValue : l.toNat = x := by
      rcases supported with full | inner
      · exact whole full
      · exact exact inner
    have fits : l.toNat < 2 ^ (8 * size.toNat) := by
      rw [isValue,← value]
      exact Nat.mod_lt _ (Nat.two_pow_pos _)
    cases applied
    rw [← isValue]
    exact popcount_atWidth fits width
  | lzcount =>
    obtain rfl : size = 8 := supported
    cases applied
    rw [← whole rfl]
    simp only [AtWidth,evalUnary,UnaryOpKind.pcode]
    have same : BitVec.ofNat (8 * (8 : UInt32).toNat) l.toNat = l.toBitVec := BitVec.eq_of_toNat_eq (by
      rw [BitVec.toNat_ofNat]
      exact Nat.mod_eq_of_lt l.toNat_lt)
    rw [same]
    rfl
  | _ => cases applied

end Operators

end Rsleigh.Decompile.OpaquePred
