import Mathlib.Tactic.IntervalCases
import Mathlib.Tactic.Ring
import Rsleigh.Pcode.Frame

namespace Rsleigh.Pcode

-- `size.saturating_mul(8)`.
def bitsForSize (sizeBytes : UInt32) : Nat := min (sizeBytes.toNat * 8) (2 ^ 32 - 1)

def allOnesMask (sizeBytes : UInt32) : UInt64 :=
  let bits := bitsForSize sizeBytes
  if 64 ≤ bits then UInt64.ofNat (2 ^ 64 - 1) else UInt64.ofNat (2 ^ 64 - 1) >>> UInt64.ofNat (64 - bits)

def maskToSize (value : UInt64) (sizeBytes : UInt32) : UInt64 := value &&& allOnesMask sizeBytes

def foldableWidth (sizeBytes : UInt32) : Bool := 1 ≤ sizeBytes && sizeBytes ≤ 8

def signedValue (value : UInt64) (sizeBytes : UInt32) : Int64 :=
  let bits := bitsForSize sizeBytes
  if 64 ≤ bits then .ofBitVec value.toBitVec
  else .ofBitVec ((value.toBitVec <<< (64 - bits)).sshiftRight (64 - bits))

def signExtendToSize (value : UInt64) (inputSize outputSize : UInt32) : UInt64 :=
  if !foldableWidth inputSize || !foldableWidth outputSize then value
  else maskToSize (signedValue value inputSize).toUInt64 outputSize

def foldUnaryConst (out input : Varnode) (f : UInt64 → UInt32 → UInt64) : Option (Varnode × UInt64) :=
  if !foldableWidth out.size || !foldableWidth input.size then none
  else some (out,maskToSize (f (maskToSize input.offset input.size) input.size) out.size)

def foldBinaryConst (out left right : Varnode) (f : UInt64 → UInt64 → UInt32 → UInt64) :
    Option (Varnode × UInt64) :=
  if !foldableWidth out.size || !foldableWidth left.size || !foldableWidth right.size then none
  else some (out,maskToSize
    (f (maskToSize left.offset left.size) (maskToSize right.offset right.size) (max left.size right.size))
    out.size)

-- The shift amount is taken from the constant as it stands, not masked to its size.
def foldShiftConst (out left right : Varnode) (f : UInt64 → Nat → UInt32 → UInt64) :
    Option (Varnode × UInt64) :=
  if !foldableWidth out.size || !foldableWidth left.size || !foldableWidth right.size then none
  else some (out,maskToSize
    (f (maskToSize left.offset left.size) (min right.offset.toNat (2 ^ 32 - 1)) left.size) out.size)

def foldCompareConst (out left right : Varnode) (f : UInt64 → UInt64 → UInt32 → Bool) :
    Option (Varnode × UInt64) :=
  if !foldableWidth out.size || !foldableWidth left.size || !foldableWidth right.size then none
  else some (out,(f (maskToSize left.offset left.size) (maskToSize right.offset right.size)
    (max left.size right.size)).toUInt64)

def foldUnary (op : UnaryOp) (out input : Varnode) : Option (Varnode × UInt64) :=
  match op with
  | .intZext => foldUnaryConst out input fun value _ => value
  | .intSext =>
    if foldableWidth input.size && foldableWidth out.size then
      some (out,signExtendToSize input.offset input.size out.size)
    else none
  | .intNeg => foldUnaryConst out input fun value size => (0 - value) &&& allOnesMask size
  | .intNot => foldUnaryConst out input fun value size => ~~~value &&& allOnesMask size
  | .boolNot => foldUnaryConst out input fun value _ => (value == 0).toUInt64
  | _ => none

def foldBinary (op : BinaryOp) (out left right : Varnode) : Option (Varnode × UInt64) :=
  match op with
  | .intAdd => foldBinaryConst out left right fun a b size => (a + b) &&& allOnesMask size
  | .intSub => foldBinaryConst out left right fun a b size => (a - b) &&& allOnesMask size
  | .intMult => foldBinaryConst out left right fun a b size => (a * b) &&& allOnesMask size
  | .intAnd => foldBinaryConst out left right fun a b size => (a &&& b) &&& allOnesMask size
  | .intOr => foldBinaryConst out left right fun a b size => (a ||| b) &&& allOnesMask size
  | .intXor => foldBinaryConst out left right fun a b size => (a ^^^ b) &&& allOnesMask size
  | .intLsl => foldShiftConst out left right fun value shift size =>
    if bitsForSize size ≤ shift then 0 else (value <<< UInt64.ofNat shift) &&& allOnesMask size
  | .intLsr => foldShiftConst out left right fun value shift size =>
    if bitsForSize size ≤ shift then 0 else (value >>> UInt64.ofNat shift) &&& allOnesMask size
  | .intAsr => foldShiftConst out left right fun value shift size =>
    if bitsForSize size ≤ shift then (decide (signedValue value size < 0)).toUInt64 * allOnesMask size
    else maskToSize (.ofBitVec ((signedValue value size).toBitVec.sshiftRight shift)) size
  | .intEq => foldCompareConst out left right fun a b _ => a == b
  | .intNotEq => foldCompareConst out left right fun a b _ => a != b
  | .intLess => foldCompareConst out left right fun a b _ => decide (a < b)
  | .intLessEq => foldCompareConst out left right fun a b _ => decide (a ≤ b)
  | .intSLess => foldCompareConst out left right fun a b size => decide (signedValue a size < signedValue b size)
  | .intSLessEq => foldCompareConst out left right fun a b size => decide (signedValue a size ≤ signedValue b size)
  | .boolAnd => foldBinaryConst out left right fun a b _ => (a != 0 && b != 0).toUInt64
  | .boolOr => foldBinaryConst out left right fun a b _ => (a != 0 || b != 0).toUInt64
  | .boolXor => foldBinaryConst out left right fun a b _ => ((a != 0) ^^ (b != 0)).toUInt64
  | _ => none

-- Every arm of the source is guarded by its operands being constants.
def constFoldOp : PcodeOp → Option (Varnode × UInt64)
  | .unary op out input => if input.space = .const then foldUnary op out input else none
  | .binary op out left right =>
    if left.space = .const ∧ right.space = .const then foldBinary op out left right else none
  | _ => none

-- Pass 0 on one op.
def foldConstants (op : PcodeOp) : PcodeOp :=
  match constFoldOp op with
  | some (out,value) => .copy out (.constant value out.size)
  | none =>
    match op with
    | .unary .intZext out input =>
      if input.space = .const then .copy out (.constant (maskToSize input.offset out.size) out.size) else op
    | .unary .intSext out input =>
      if input.space = .const then
        .copy out (.constant (signExtendToSize input.offset input.size out.size) out.size)
      else op
    | .binary .intLsr out left right | .binary .intLsl out left right | .binary .intAsr out left right =>
      if right.space = .const ∧ right.offset = 0 then .copy out left else op
    | .binary .intOr out left right =>
      if right.space = .const ∧ right.offset = 0 then .copy out left
      else if left.space = .const ∧ left.offset = 0 then .copy out right else op
    | .binary .intAnd out left right =>
      if right.space = .const ∧ right.offset = allOnesMask out.size then .copy out left else op
    | op => op

-- Pass 1.
def dropIdentitySubpiece : PcodeOp → PcodeOp
  | .subpiece out input lsb =>
    if lsb = 0 ∧ out.size = input.size then .copy out input else .subpiece out input lsb
  | op => op

-- Pass 1b.
def dropConstSubpiece : PcodeOp → PcodeOp
  | .subpiece out input lsb =>
    if lsb = 0 ∧ input.space = .const ∧ out.size < input.size then
      let mask := if 8 ≤ out.size then UInt64.ofNat (2 ^ 64 - 1) else
        UInt64.ofNat (1 <<< (out.size.toNat * 8)) - 1
      .copy out (.constant (input.offset &&& mask) out.size)
    else .subpiece out input lsb
  | op => op

-- The three passes that look at one op at a time.
def simplifyOp (op : PcodeOp) : PcodeOp := dropConstSubpiece (dropIdentitySubpiece (foldConstants op))

-- The size rules of P-code.
def wellSized : PcodeOp → Bool
  | .copy out input => out.size == input.size
  | .unary op out input =>
    match op with
    | .intNeg | .intNot | .floatNeg | .floatAbs | .floatSqrt | .floatCeil | .floatFloor | .floatRound =>
      out.size == input.size
    | .intZext | .intSext => 1 ≤ input.size && input.size ≤ out.size
    | .boolNot => out.size == 1 && input.size == 1
    | _ => true
  | .binary op out left right =>
    match op with
    | .intLsl | .intLsr | .intAsr => out.size == left.size
    | .intEq | .intNotEq | .intLess | .intLessEq | .intSLess | .intSLessEq | .intCarry | .intSCarry | .intSBorrow
    | .floatEq | .floatNotEq | .floatLess | .floatLessEq => left.size == right.size && out.size == 1
    | .boolAnd | .boolOr | .boolXor => left.size == 1 && right.size == 1 && out.size == 1
    | _ => left.size == right.size && out.size == left.size
  | .subpiece out input lsb => lsb.toNat + out.size.toNat ≤ input.size.toNat
  | _ => true

-- Where pass 0 replaces an op by one that means something else: a wide sign or
-- zero extension keeps bits above the input, a shift amount wider than its
-- constant is not truncated, and the all-ones mask of a wide IntAnd stops at 64 bits.
def foldSafe : PcodeOp → Bool
  | .unary .intZext out input =>
    input.space != .const || out.size ≤ 8 || input.offset.toNat < 256 ^ input.size.toNat
  | .unary .intSext out input =>
    input.space != .const || out.size ≤ 8 || 8 < input.size ||
      input.offset.toNat < 2 ^ (8 * input.size.toNat - 1)
  | .binary .intLsl out left right | .binary .intLsr out left right | .binary .intAsr out left right =>
    left.space != .const || right.space != .const ||
      !(foldableWidth out.size && foldableWidth left.size && foldableWidth right.size) ||
      right.offset.toNat < 256 ^ right.size.toNat
  | .binary .intAnd out _ right =>
    right.space != .const || right.offset != allOnesMask out.size || out.size ≤ 8
  | _ => true

theorem foldableWidth_iff : foldableWidth size = true ↔ 1 ≤ size.toNat ∧ size.toNat ≤ 8 := by
  simp [foldableWidth,UInt32.le_iff_toNat_le]

theorem bitsForSize_foldable (foldable : foldableWidth size = true) : bitsForSize size = 8 * size.toNat := by
  rw [foldableWidth_iff] at foldable
  rw [bitsForSize]
  omega

theorem toNat_allOnesMask (foldable : foldableWidth size = true) :
    (allOnesMask size).toNat = 2 ^ (8 * size.toNat) - 1 := by
  have bits := bitsForSize_foldable foldable
  rw [foldableWidth_iff] at foldable
  obtain ⟨low,high⟩ := foldable
  unfold allOnesMask
  rw [bits]
  generalize size.toNat = n at *
  interval_cases n <;> rfl

theorem toNat_and_allOnesMask (foldable : foldableWidth size = true) (value : UInt64) :
    (value &&& allOnesMask size).toNat = value.toNat % 2 ^ (8 * size.toNat) := by
  rw [UInt64.toNat_and,toNat_allOnesMask foldable,Nat.and_two_pow_sub_one_eq_mod]

theorem toNat_maskToSize (foldable : foldableWidth size = true) (value : UInt64) :
    (maskToSize value size).toNat = value.toNat % 2 ^ (8 * size.toNat) := toNat_and_allOnesMask foldable value

theorem maskToSize_wide (wide : 8 ≤ size.toNat) (value : UInt64) : maskToSize value size = value := by
  have bits : 64 ≤ bitsForSize size := by
    rw [bitsForSize]
    omega
  apply UInt64.toNat_inj.mp
  rw [maskToSize,allOnesMask,if_pos bits,UInt64.toNat_and,UInt64.toNat_ofNat_of_lt' (by decide),
    Nat.and_two_pow_sub_one_eq_mod,Nat.mod_eq_of_lt value.toNat_lt]

theorem toNat_toUInt64 (b : Bool) : b.toUInt64.toNat = b.toNat := by cases b <;> rfl

theorem shiftLeft_sshiftRight (v : BitVec 64) (split : w + shift = 64) (positive : 0 < w) :
    (v <<< shift).sshiftRight shift = (v.setWidth w).signExtend 64 := by
  ext i bound
  have last : 63 - shift = w - 1 := by omega
  have inside : w - 1 < w := by omega
  have inner : ¬ 63 < shift := by omega
  simp only [BitVec.getElem_signExtend,BitVec.getElem_sshiftRight,BitVec.msb_eq_getLsbD_last,
    BitVec.getElem_shiftLeft,BitVec.getLsbD_shiftLeft,BitVec.getElem_setWidth,BitVec.getLsbD_setWidth]
  by_cases low : i < w
  · have small : shift + i < 64 := by omega
    simp [low,small,BitVec.getLsbD_eq_getElem,bound]
  · have large : ¬ shift + i < 64 := by omega
    simp [low,large,last,inside,inner]

theorem toBitVec_signedValue (foldable : foldableWidth size = true) (value : UInt64) :
    (signedValue value size).toBitVec = (BitVec.ofNat (8 * size.toNat) value.toNat).signExtend 64 := by
  have bits := bitsForSize_foldable foldable
  rw [foldableWidth_iff] at foldable
  obtain ⟨low,high⟩ := foldable
  have width : BitVec.ofNat (8 * size.toNat) value.toNat = value.toBitVec.setWidth (8 * size.toNat) :=
    BitVec.eq_of_toNat_eq (by simp)
  unfold signedValue
  rw [bits,width]
  by_cases full : 64 ≤ 8 * size.toNat
  · have exact : 8 * size.toNat = 64 := by omega
    rw [if_pos full,exact]
    simp
  · have split : 8 * size.toNat + (64 - 8 * size.toNat) = 64 := by omega
    rw [if_neg full,← shiftLeft_sshiftRight value.toBitVec split (by omega)]
    rfl

theorem toInt_signedValue (foldable : foldableWidth size = true) (value : UInt64) :
    (signedValue value size).toInt = (BitVec.ofNat (8 * size.toNat) value.toNat).toInt := by
  have width := (foldableWidth_iff.mp foldable).2
  change (signedValue value size).toBitVec.toInt = _
  rw [toBitVec_signedValue foldable,BitVec.toInt_signExtend_of_le (by omega)]

theorem setWidth_signExtend {a : BitVec w} (narrow : v ≤ 64) :
    (a.signExtend 64).setWidth v = a.signExtend v := by
  ext i bound
  have small : i < 64 := by omega
  simp [BitVec.getElem_signExtend,small]

theorem msb_signExtend_wider {a : BitVec w} (wider : w ≤ 64) : (a.signExtend 64).msb = a.msb := by
  rw [BitVec.msb_signExtend]
  by_cases full : w ≥ 64
  · have exact : w - 64 = 0 := by omega
    simp [full,exact,BitVec.msb]
  · simp [full]

theorem setWidth_sshiftRight {a : BitVec w} (wider : w ≤ 64) :
    ((a.signExtend 64).sshiftRight shift).setWidth w = a.sshiftRight shift := by
  ext i bound
  have inside : ¬ 64 ≤ i := by omega
  simp only [BitVec.getElem_setWidth,BitVec.getElem_sshiftRight,BitVec.getLsbD_sshiftRight,
    BitVec.getLsbD_signExtend,msb_signExtend_wider wider]
  by_cases low : shift + i < w
  · have small : shift + i < 64 := by omega
    simp [low,small,inside]
  · by_cases small : shift + i < 64 <;> simp [low,inside,small]

theorem sub_mod_pow {a b : Nat} (narrow : w ≤ 64) (small : b < 2 ^ 64) :
    (2 ^ 64 - b + a) % 2 ^ w = (2 ^ w - b % 2 ^ w + a) % 2 ^ w := by
  obtain ⟨k,whole⟩ : 2 ^ w ∣ 2 ^ 64 := Nat.pow_dvd_pow 2 narrow
  have positive : 0 < 2 ^ w := by positivity
  have parts := Nat.div_add_mod b (2 ^ w)
  have rest := Nat.mod_lt b positive
  have quotient : b / 2 ^ w < k := Nat.div_lt_of_lt_mul (whole ▸ small)
  obtain ⟨d,rfl⟩ : ∃ d, k = b / 2 ^ w + d + 1 := ⟨k - b / 2 ^ w - 1,by omega⟩
  have split : 2 ^ 64 - b + a = 2 ^ w * d + (2 ^ w - b % 2 ^ w + a) := by
    rw [whole]
    have expand : 2 ^ w * (b / 2 ^ w + d + 1) = 2 ^ w * (b / 2 ^ w) + 2 ^ w * d + 2 ^ w := by ring
    omega
  rw [split,Nat.mul_add_mod]

def constValue (v : Varnode) : Nat := v.offset.toNat % 256 ^ v.size.toNat

theorem pow_bytes (n : Nat) : 256 ^ n = 2 ^ (8 * n) := by rw [Nat.pow_mul]

theorem constValue_mask {v : Varnode} (foldable : foldableWidth v.size = true) :
    constValue v = (maskToSize v.offset v.size).toNat := by
  rw [constValue,pow_bytes,toNat_maskToSize foldable]

theorem toNat_mask_lt (foldable : foldableWidth size = true) (value : UInt64) :
    (maskToSize value size).toNat < 2 ^ (8 * size.toNat) := by
  rw [toNat_maskToSize foldable]
  exact Nat.mod_lt _ (by positivity)

section Exact

-- Two constants that fit the width of the operation.
variable {env : Env} {size outSize : UInt32} {a b : UInt64}

attribute [local simp] evalBinary evalUnary

theorem intAdd_exact (foldable : foldableWidth size = true) :
    ((a + b) &&& allOnesMask size).toNat = evalBinary env .intAdd size outSize a.toNat b.toNat := by
  have width := (foldableWidth_iff.mp foldable).2
  have divides : 2 ^ (8 * size.toNat) ∣ 2 ^ 64 := Nat.pow_dvd_pow 2 (by omega)
  rw [toNat_and_allOnesMask foldable,UInt64.toNat_add,Nat.mod_mod_of_dvd _ divides]
  simp

theorem intMult_exact (foldable : foldableWidth size = true) :
    ((a * b) &&& allOnesMask size).toNat = evalBinary env .intMult size outSize a.toNat b.toNat := by
  have width := (foldableWidth_iff.mp foldable).2
  have divides : 2 ^ (8 * size.toNat) ∣ 2 ^ 64 := Nat.pow_dvd_pow 2 (by omega)
  rw [toNat_and_allOnesMask foldable,UInt64.toNat_mul,Nat.mod_mod_of_dvd _ divides]
  simp

theorem intSub_exact (foldable : foldableWidth size = true) :
    ((a - b) &&& allOnesMask size).toNat = evalBinary env .intSub size outSize a.toNat b.toNat := by
  have width : 8 * size.toNat ≤ 64 := by have := (foldableWidth_iff.mp foldable).2; omega
  have divides : 2 ^ (8 * size.toNat) ∣ 2 ^ 64 := Nat.pow_dvd_pow 2 width
  rw [toNat_and_allOnesMask foldable,UInt64.toNat_sub,Nat.mod_mod_of_dvd _ divides]
  rw [evalBinary,BitVec.toNat_sub,BitVec.toNat_ofNat,BitVec.toNat_ofNat,sub_mod_pow width b.toNat_lt]
  simp

theorem intAnd_exact (foldable : foldableWidth size = true) :
    ((a &&& b) &&& allOnesMask size).toNat = evalBinary env .intAnd size outSize a.toNat b.toNat := by
  rw [toNat_and_allOnesMask foldable,UInt64.toNat_and,Nat.and_mod_two_pow]
  simp

theorem intOr_exact (foldable : foldableWidth size = true) :
    ((a ||| b) &&& allOnesMask size).toNat = evalBinary env .intOr size outSize a.toNat b.toNat := by
  rw [toNat_and_allOnesMask foldable,UInt64.toNat_or,Nat.or_mod_two_pow]
  simp

theorem intXor_exact (foldable : foldableWidth size = true) :
    ((a ^^^ b) &&& allOnesMask size).toNat = evalBinary env .intXor size outSize a.toNat b.toNat := by
  rw [toNat_and_allOnesMask foldable,UInt64.toNat_xor,Nat.xor_mod_two_pow]
  simp

theorem intLsl_exact (foldable : foldableWidth size = true) (shift : Nat) :
    (if bitsForSize size ≤ min shift (2 ^ 32 - 1) then 0
      else (a <<< UInt64.ofNat (min shift (2 ^ 32 - 1))) &&& allOnesMask size).toNat =
    evalBinary env .intLsl size outSize a.toNat shift := by
  have width : 8 * size.toNat ≤ 64 := by have := (foldableWidth_iff.mp foldable).2; omega
  have divides : 2 ^ (8 * size.toNat) ∣ 2 ^ 64 := Nat.pow_dvd_pow 2 width
  rw [bitsForSize_foldable foldable,evalBinary]
  by_cases far : 8 * size.toNat ≤ shift
  · rw [if_pos far,if_pos (by omega)]
    rfl
  · have near : min shift (2 ^ 32 - 1) = shift := by omega
    have amount : (UInt64.ofNat shift).toNat % 64 = shift := by
      rw [UInt64.toNat_ofNat_of_lt' (by simp only [UInt64.size]; omega)]
      omega
    rw [near,if_neg far,if_neg far,toNat_and_allOnesMask foldable,UInt64.toNat_shiftLeft,amount,
      Nat.mod_mod_of_dvd _ divides]
    simp [Nat.shiftLeft_eq]

theorem intLsr_exact (foldable : foldableWidth size = true) (fits : a.toNat < 2 ^ (8 * size.toNat)) (shift : Nat) :
    (if bitsForSize size ≤ min shift (2 ^ 32 - 1) then 0
      else (a >>> UInt64.ofNat (min shift (2 ^ 32 - 1))) &&& allOnesMask size).toNat =
    evalBinary env .intLsr size outSize a.toNat shift := by
  have width : 8 * size.toNat ≤ 64 := by have := (foldableWidth_iff.mp foldable).2; omega
  rw [bitsForSize_foldable foldable,evalBinary]
  by_cases far : 8 * size.toNat ≤ shift
  · rw [if_pos far,if_pos (by omega)]
    rfl
  · have near : min shift (2 ^ 32 - 1) = shift := by omega
    have amount : (UInt64.ofNat shift).toNat % 64 = shift := by
      rw [UInt64.toNat_ofNat_of_lt' (by simp only [UInt64.size]; omega)]
      omega
    have bounded : a.toNat >>> shift < 2 ^ (8 * size.toNat) :=
      lt_of_le_of_lt (Nat.shiftRight_le _ _) fits
    rw [near,if_neg far,if_neg far,toNat_and_allOnesMask foldable,UInt64.toNat_shiftRight,amount,
      Nat.mod_eq_of_lt bounded]
    simp [Nat.mod_eq_of_lt fits]

theorem intAsr_exact (foldable : foldableWidth size = true) (fits : a.toNat < 2 ^ (8 * size.toNat)) (shift : Nat) :
    (if bitsForSize size ≤ min shift (2 ^ 32 - 1) then
        (decide (signedValue a size < 0)).toUInt64 * allOnesMask size
      else maskToSize (.ofBitVec ((signedValue a size).toBitVec.sshiftRight (min shift (2 ^ 32 - 1)))) size).toNat =
    evalBinary env .intAsr size outSize a.toNat shift := by
  have width : 8 * size.toNat ≤ 64 := by have := (foldableWidth_iff.mp foldable).2; omega
  have value : (BitVec.ofNat (8 * size.toNat) a.toNat).toNat = a.toNat := by
    rw [BitVec.toNat_ofNat,Nat.mod_eq_of_lt fits]
  rw [bitsForSize_foldable foldable,evalBinary]
  by_cases far : 8 * size.toNat ≤ shift
  · have negative : (signedValue a size < 0) ↔ (BitVec.ofNat (8 * size.toNat) a.toNat).msb = true := by
      rw [Int64.lt_iff_toInt_lt,toInt_signedValue foldable,BitVec.msb_eq_toInt]
      simp
    have gone : a.toNat >>> (8 * size.toNat) = 0 := by
      rw [Nat.shiftRight_eq_div_pow,Nat.div_eq_of_lt fits]
    have gone' : (2 ^ (8 * size.toNat) - 1 - a.toNat) >>> (8 * size.toNat) = 0 := by
      rw [Nat.shiftRight_eq_div_pow,Nat.div_eq_of_lt (by omega)]
    rw [if_pos (by omega),Nat.min_eq_right far,BitVec.toNat_sshiftRight,value,gone,gone']
    by_cases sign : (BitVec.ofNat (8 * size.toNat) a.toNat).msb = true
    · have minus := negative.mpr sign
      rw [if_pos sign,decide_eq_true minus,UInt64.toNat_mul,toNat_toUInt64,toNat_allOnesMask foldable]
      have bound : 2 ^ (8 * size.toNat) - 1 < 2 ^ 64 := by
        have := Nat.pow_le_pow_right (n := 2) (by decide) width
        omega
      simpa using Nat.mod_eq_of_lt bound
    · have plus := mt negative.mp sign
      rw [if_neg sign,decide_eq_false plus,UInt64.toNat_mul,toNat_toUInt64]
      simp
  · have near : min shift (2 ^ 32 - 1) = shift := by omega
    rw [near,if_neg far,toNat_maskToSize foldable,Nat.min_eq_left (by omega),toBitVec_signedValue foldable,
      ← setWidth_sshiftRight width]
    simp

theorem ofNat_inj_iff (fits : a.toNat < 2 ^ w) (fits' : b.toNat < 2 ^ w) :
    (BitVec.ofNat w a.toNat = BitVec.ofNat w b.toNat) ↔ a = b := by
  rw [← BitVec.toNat_inj,← UInt64.toNat_inj]
  simp [Nat.mod_eq_of_lt fits,Nat.mod_eq_of_lt fits']

theorem intEq_exact (fits : a.toNat < 2 ^ (8 * size.toNat)) (fits' : b.toNat < 2 ^ (8 * size.toNat)) :
    (a == b).toNat = evalBinary env .intEq size outSize a.toNat b.toNat := by
  rw [evalBinary,Bool.beq_eq_decide_eq,Bool.beq_eq_decide_eq]
  simp only [ofNat_inj_iff fits fits']

theorem intNotEq_exact (fits : a.toNat < 2 ^ (8 * size.toNat)) (fits' : b.toNat < 2 ^ (8 * size.toNat)) :
    (a != b).toNat = evalBinary env .intNotEq size outSize a.toNat b.toNat := by
  rw [evalBinary,bne,bne,Bool.beq_eq_decide_eq,Bool.beq_eq_decide_eq]
  simp only [ofNat_inj_iff fits fits']

theorem intLess_exact (fits : a.toNat < 2 ^ (8 * size.toNat)) (fits' : b.toNat < 2 ^ (8 * size.toNat)) :
    (decide (a < b)).toNat = evalBinary env .intLess size outSize a.toNat b.toNat := by
  simp [BitVec.ult,UInt64.lt_iff_toNat_lt,Nat.mod_eq_of_lt fits,Nat.mod_eq_of_lt fits']

theorem intLessEq_exact (fits : a.toNat < 2 ^ (8 * size.toNat)) (fits' : b.toNat < 2 ^ (8 * size.toNat)) :
    (decide (a ≤ b)).toNat = evalBinary env .intLessEq size outSize a.toNat b.toNat := by
  simp [BitVec.ule,UInt64.le_iff_toNat_le,Nat.mod_eq_of_lt fits,Nat.mod_eq_of_lt fits']

theorem intSLess_exact (foldable : foldableWidth size = true) :
    (decide (signedValue a size < signedValue b size)).toNat =
    evalBinary env .intSLess size outSize a.toNat b.toNat := by
  simp [BitVec.slt,Int64.lt_iff_toInt_lt,toInt_signedValue foldable]

theorem intSLessEq_exact (foldable : foldableWidth size = true) :
    (decide (signedValue a size ≤ signedValue b size)).toNat =
    evalBinary env .intSLessEq size outSize a.toNat b.toNat := by
  simp [BitVec.sle,Int64.le_iff_toInt_le,toInt_signedValue foldable]

theorem ne_zero_iff : (a != 0) = (a.toNat != 0) := by
  rw [Bool.eq_iff_iff]
  simp [← UInt64.toNat_inj]

theorem intNeg_exact (foldable : foldableWidth size = true) :
    ((0 - a) &&& allOnesMask size).toNat = evalUnary env .intNeg size outSize a.toNat := by
  have width : 8 * size.toNat ≤ 64 := by have := (foldableWidth_iff.mp foldable).2; omega
  have divides : 2 ^ (8 * size.toNat) ∣ 2 ^ 64 := Nat.pow_dvd_pow 2 width
  rw [toNat_and_allOnesMask foldable,UInt64.toNat_sub,Nat.mod_mod_of_dvd _ divides,sub_mod_pow width a.toNat_lt]
  simp

theorem intNot_exact (foldable : foldableWidth size = true) :
    (~~~a &&& allOnesMask size).toNat = evalUnary env .intNot size outSize a.toNat := by
  have width : 8 * size.toNat ≤ 64 := by have := (foldableWidth_iff.mp foldable).2; omega
  have complement : ((~~~a).toBitVec.setWidth (8 * size.toNat)) = ~~~(a.toBitVec.setWidth (8 * size.toNat)) := by
    ext i bound
    have small : i < 64 := by omega
    simp [small]
  have value : (~~~a).toNat % 2 ^ (8 * size.toNat) = ((~~~a).toBitVec.setWidth (8 * size.toNat)).toNat := by
    rw [BitVec.toNat_setWidth,UInt64.toNat_toBitVec]
  rw [toNat_and_allOnesMask foldable,value,complement]
  simp

end Exact

-- What folding promises: the output is kept, and the constant is the value the
-- op would have left there.
def FoldsTo (out : Varnode) (expected : Nat) (folded : Varnode × UInt64) : Prop :=
  folded.1 = out ∧ folded.2.toNat % 256 ^ out.size.toNat = expected % 256 ^ out.size.toNat

theorem max_size (size : UInt32) : max size size = size := ite_self _

theorem foldsTo_mask (foldable : foldableWidth out.size = true) (equal : value.toNat = expected) :
    FoldsTo out expected (out,maskToSize value out.size) := by
  refine ⟨rfl,?_⟩
  rw [toNat_maskToSize foldable,equal,pow_bytes,Nat.mod_mod]

theorem foldUnaryConst_sound {out input : Varnode} {f : UInt64 → UInt32 → UInt64}
    (folded : foldUnaryConst out input f = some value)
    (exact : ∀ a : UInt64, foldableWidth input.size = true → a.toNat < 2 ^ (8 * input.size.toNat) →
      (f a input.size).toNat = evalUnary env op input.size out.size a.toNat) :
    FoldsTo out (evalUnary env op input.size out.size (constValue input)) value := by
  unfold foldUnaryConst at folded
  split at folded
  · cases folded
  · rename_i widths
    obtain ⟨outWidth,inWidth⟩ : foldableWidth out.size = true ∧ foldableWidth input.size = true := by
      simpa using widths
    obtain rfl := Option.some.inj folded
    rw [constValue_mask inWidth]
    exact foldsTo_mask outWidth (exact _ inWidth (toNat_mask_lt inWidth _))

theorem foldBinaryConst_sound {out left right : Varnode} {f : UInt64 → UInt64 → UInt32 → UInt64}
    (folded : foldBinaryConst out left right f = some value)
    (same : left.size = right.size)
    (exact : ∀ a b : UInt64, foldableWidth left.size = true →
      (f a b left.size).toNat = evalBinary env op left.size out.size a.toNat b.toNat) :
    FoldsTo out (evalBinary env op left.size out.size (constValue left) (constValue right)) value := by
  unfold foldBinaryConst at folded
  split at folded
  · cases folded
  · rename_i widths
    obtain ⟨⟨outWidth,leftWidth⟩,rightWidth⟩ : (foldableWidth out.size = true ∧
        foldableWidth left.size = true) ∧ foldableWidth right.size = true := by
      simpa using widths
    obtain rfl := Option.some.inj folded
    rw [constValue_mask leftWidth,constValue_mask rightWidth,← same,max_size]
    exact foldsTo_mask outWidth (exact _ _ leftWidth)

theorem foldShiftConst_offset {out left right : Varnode} {f : UInt64 → Nat → UInt32 → UInt64}
    (outWidth : foldableWidth out.size = true) (leftWidth : foldableWidth left.size = true)
    (rightWidth : foldableWidth right.size = true)
    (exact : ∀ (a : UInt64) (shift : Nat), foldableWidth left.size = true → a.toNat < 2 ^ (8 * left.size.toNat) →
      (f a (min shift (2 ^ 32 - 1)) left.size).toNat = evalBinary env op left.size out.size a.toNat shift) :
    ∃ value, foldShiftConst out left right f = some value ∧
      FoldsTo out (evalBinary env op left.size out.size (constValue left) right.offset.toNat) value := by
  refine ⟨_,by rw [foldShiftConst,outWidth,leftWidth,rightWidth]; rfl,?_⟩
  rw [constValue_mask leftWidth]
  exact foldsTo_mask outWidth (exact _ _ leftWidth (toNat_mask_lt leftWidth _))

theorem foldShiftConst_sound {out left right : Varnode} {f : UInt64 → Nat → UInt32 → UInt64}
    (folded : foldShiftConst out left right f = some value)
    (amount : foldableWidth out.size = true → foldableWidth left.size = true → foldableWidth right.size = true →
      right.offset.toNat < 256 ^ right.size.toNat)
    (exact : ∀ (a : UInt64) (shift : Nat), foldableWidth left.size = true → a.toNat < 2 ^ (8 * left.size.toNat) →
      (f a (min shift (2 ^ 32 - 1)) left.size).toNat = evalBinary env op left.size out.size a.toNat shift) :
    FoldsTo out (evalBinary env op left.size out.size (constValue left) (constValue right)) value := by
  obtain ⟨⟨outWidth,leftWidth⟩,rightWidth⟩ : (foldableWidth out.size = true ∧
      foldableWidth left.size = true) ∧ foldableWidth right.size = true := by
    unfold foldShiftConst at folded
    split at folded
    · cases folded
    · rename_i widths
      simpa using widths
  obtain ⟨value',folded',sound⟩ := @foldShiftConst_offset env op _ _ _ _ outWidth leftWidth rightWidth exact
  obtain rfl := Option.some.inj (folded.symm.trans folded')
  have whole : constValue right = right.offset.toNat := Nat.mod_eq_of_lt (amount outWidth leftWidth rightWidth)
  rw [whole]
  exact sound

theorem foldCompareConst_sound {out left right : Varnode} {f : UInt64 → UInt64 → UInt32 → Bool}
    (folded : foldCompareConst out left right f = some value)
    (same : left.size = right.size)
    (exact : ∀ a b : UInt64, foldableWidth left.size = true → a.toNat < 2 ^ (8 * left.size.toNat) →
      b.toNat < 2 ^ (8 * left.size.toNat) →
      (f a b left.size).toNat = evalBinary env op left.size out.size a.toNat b.toNat) :
    FoldsTo out (evalBinary env op left.size out.size (constValue left) (constValue right)) value := by
  unfold foldCompareConst at folded
  split at folded
  · cases folded
  · rename_i widths
    obtain ⟨⟨outWidth,leftWidth⟩,rightWidth⟩ : (foldableWidth out.size = true ∧
        foldableWidth left.size = true) ∧ foldableWidth right.size = true := by
      simpa using widths
    obtain rfl := Option.some.inj folded
    refine ⟨rfl,?_⟩
    rw [constValue_mask leftWidth,constValue_mask rightWidth,← same,max_size,toNat_toUInt64,
      exact _ _ leftWidth (toNat_mask_lt leftWidth _) (same ▸ toNat_mask_lt rightWidth _)]

theorem foldUnary_sound (env : Env) (folded : foldUnary op out input = some value) :
    FoldsTo out (evalUnary env op input.size out.size (constValue input)) value := by
  cases op <;> simp only [foldUnary] at folded <;> try cases folded
  case intZext =>
    refine foldUnaryConst_sound folded (fun a _ fits => ?_)
    simp [evalUnary,Nat.mod_eq_of_lt fits]
  case intNeg => exact foldUnaryConst_sound folded (fun _ foldable _ => intNeg_exact foldable)
  case intNot => exact foldUnaryConst_sound folded (fun _ foldable _ => intNot_exact foldable)
  case boolNot =>
    refine foldUnaryConst_sound folded (fun a _ _ => ?_)
    rw [toNat_toUInt64,evalUnary,Bool.beq_eq_decide_eq,Bool.beq_eq_decide_eq]
    simp [← UInt64.toNat_inj]
  case intSext =>
    split at folded
    · rename_i widths
      obtain ⟨inWidth,outWidth⟩ := Bool.and_eq_true_iff.mp widths
      obtain rfl := Option.some.inj folded
      have narrow : 8 * out.size.toNat ≤ 64 := by have := (foldableWidth_iff.mp outWidth).2; omega
      have value : (signedValue input.offset input.size).toUInt64.toNat =
          ((BitVec.ofNat (8 * input.size.toNat) input.offset.toNat).signExtend 64).toNat :=
        congrArg BitVec.toNat (toBitVec_signedValue inWidth input.offset)
      have whole : BitVec.ofNat (8 * input.size.toNat) (constValue input) =
          BitVec.ofNat (8 * input.size.toNat) input.offset.toNat := by
        apply BitVec.eq_of_toNat_eq
        simp [constValue,pow_bytes]
      have masked : signExtendToSize input.offset input.size out.size =
          maskToSize (signedValue input.offset input.size).toUInt64 out.size := by
        simp [signExtendToSize,inWidth,outWidth]
      rw [masked]
      refine ⟨rfl,?_⟩
      rw [toNat_maskToSize outWidth,value,evalUnary,whole,← setWidth_signExtend narrow,pow_bytes]
      simp
    · cases folded

theorem shift_amount (shift : op = .intLsl ∨ op = .intLsr ∨ op = .intAsr)
    (safe : foldSafe (.binary op out left right) = true) (located : left.space = .const ∧ right.space = .const)
    (outWidth : foldableWidth out.size = true) (leftWidth : foldableWidth left.size = true)
    (rightWidth : foldableWidth right.size = true) : right.offset.toNat < 256 ^ right.size.toNat := by
  rcases shift with rfl | rfl | rfl <;> simpa [foldSafe,located,outWidth,leftWidth,rightWidth] using safe

theorem foldBinary_sound (env : Env) (sized : wellSized (.binary op out left right) = true)
    (safe : foldSafe (.binary op out left right) = true) (located : left.space = .const ∧ right.space = .const)
    (folded : foldBinary op out left right = some value) :
    FoldsTo out (evalBinary env op left.size out.size (constValue left) (constValue right)) value := by
  cases op <;> simp only [foldBinary] at folded <;> try cases folded
  case intAdd =>
    exact foldBinaryConst_sound folded (by simp_all [wellSized]) (fun _ _ foldable => intAdd_exact foldable)
  case intSub =>
    exact foldBinaryConst_sound folded (by simp_all [wellSized]) (fun _ _ foldable => intSub_exact foldable)
  case intMult =>
    exact foldBinaryConst_sound folded (by simp_all [wellSized]) (fun _ _ foldable => intMult_exact foldable)
  case intAnd =>
    exact foldBinaryConst_sound folded (by simp_all [wellSized]) (fun _ _ foldable => intAnd_exact foldable)
  case intOr =>
    exact foldBinaryConst_sound folded (by simp_all [wellSized]) (fun _ _ foldable => intOr_exact foldable)
  case intXor =>
    exact foldBinaryConst_sound folded (by simp_all [wellSized]) (fun _ _ foldable => intXor_exact foldable)
  case intLsl =>
    exact foldShiftConst_sound folded (shift_amount (by simp) safe located)
      (fun _ shift foldable _ => intLsl_exact foldable shift)
  case intLsr =>
    exact foldShiftConst_sound folded (shift_amount (by simp) safe located)
      (fun _ shift foldable fits => intLsr_exact foldable fits shift)
  case intAsr =>
    exact foldShiftConst_sound folded (shift_amount (by simp) safe located)
      (fun _ shift foldable fits => intAsr_exact foldable fits shift)
  case intEq =>
    exact foldCompareConst_sound folded (by simp_all [wellSized]) (fun _ _ _ fits fits' => intEq_exact fits fits')
  case intNotEq =>
    exact foldCompareConst_sound folded (by simp_all [wellSized]) (fun _ _ _ fits fits' => intNotEq_exact fits fits')
  case intLess =>
    exact foldCompareConst_sound folded (by simp_all [wellSized]) (fun _ _ _ fits fits' => intLess_exact fits fits')
  case intLessEq =>
    exact foldCompareConst_sound folded (by simp_all [wellSized]) (fun _ _ _ fits fits' => intLessEq_exact fits fits')
  case intSLess =>
    exact foldCompareConst_sound folded (by simp_all [wellSized]) (fun _ _ foldable _ _ => intSLess_exact foldable)
  case intSLessEq =>
    exact foldCompareConst_sound folded (by simp_all [wellSized]) (fun _ _ foldable _ _ => intSLessEq_exact foldable)
  case boolAnd =>
    refine foldBinaryConst_sound folded (by simp_all [wellSized]) (fun a b _ => ?_)
    rw [toNat_toUInt64,evalBinary,ne_zero_iff,ne_zero_iff]
  case boolOr =>
    refine foldBinaryConst_sound folded (by simp_all [wellSized]) (fun a b _ => ?_)
    rw [toNat_toUInt64,evalBinary,ne_zero_iff,ne_zero_iff]
  case boolXor =>
    refine foldBinaryConst_sound folded (by simp_all [wellSized]) (fun a b _ => ?_)
    rw [toNat_toUInt64,evalBinary,ne_zero_iff,ne_zero_iff]

theorem read_const {v : Varnode} (located : v.space = .const) (s : Machine) : s.read env v = constValue v :=
  if_pos located

theorem step_output (output : getOutput op = some out) (running : s.left = false) :
    step env s op = s.write env out (compute env s op) := by
  have direct : written env s op = some out := by
    cases op <;> simp_all [getOutput,written,writes]
  have value : writtenValue env s op = compute env s op := by
    cases op <;> simp_all [getOutput,writtenValue]
  have quiet : emitted env s op = [] := by
    cases op <;> simp_all [getOutput,emitted]
  have stays : leaves env s op = false := by
    cases op <;> simp_all [getOutput,leaves]
  simp [step,Machine.write,running,direct,value,quiet,stays]

theorem step_congr (output : getOutput op = some out) (output' : getOutput op' = some out)
    (same : compute env s op % 256 ^ out.size.toNat = compute env s op' % 256 ^ out.size.toNat) :
    step env s op = step env s op' := by
  cases stopped : s.left with
  | true => rw [step_left stopped,step_left stopped]
  | false =>
    rw [step_output output stopped,step_output output' stopped,Machine.write,Machine.write,
      ← ByteStore.store_mod _ _ (compute env s op),← ByteStore.store_mod _ _ (compute env s op'),
      length_cells,same]

-- What the passes over single ops may do to an op.
structure Simplifies (op op' : PcodeOp) : Prop where
  sized : wellSized op' = true
  output : getOutput op' = getOutput op
  writes : writes op' = writes op
  reads : ∀ v ∈ reads op', v ∈ reads op ∨ v.space = .const
  load : loadSpace op' = some space → loadSpace op = some space
  store : storeSpace op' = storeSpace op
  step : ∀ env s, step env s op' = step env s op

theorem Simplifies.refl (sized : wellSized op = true) : Simplifies op op :=
  ⟨sized,rfl,rfl,fun _ member => .inl member,id,rfl,fun _ _ => rfl⟩

theorem Simplifies.trans (first : Simplifies op op') (second : Simplifies op' op'') : Simplifies op op'' where
  sized := second.sized
  output := second.output.trans first.output
  writes := second.writes.trans first.writes
  reads v member := (second.reads v member).elim (first.reads v) .inr
  load equal := first.load (second.load equal)
  store := second.store.trans first.store
  step env s := (second.step env s).trans (first.step env s)

theorem Simplifies.of_copy (output : getOutput op = some out) (size : out.size = input.size)
    (source : input ∈ Pcode.reads op ∨ input.space = .const)
    (same : ∀ env s, s.read env input % 256 ^ out.size.toNat = compute env s op % 256 ^ out.size.toNat) :
    Simplifies op (.copy out input) where
  sized := by simp [wellSized,size]
  output := output.symm
  writes := (writes_of_output output).symm
  reads v member := by
    obtain rfl := List.mem_singleton.mp member
    exact source
  load equal := by cases equal
  store := by cases op <;> simp_all [getOutput,storeSpace]
  step env s := step_congr rfl output (same env s)

theorem Simplifies.of_const (output : getOutput op = some out)
    (same : ∀ env s, value.toNat % 256 ^ out.size.toNat = compute env s op % 256 ^ out.size.toNat) :
    Simplifies op (.copy out (.constant value out.size)) := by
  refine .of_copy output rfl (.inr rfl) fun env s => ?_
  rw [read_const rfl,← same env s]
  exact Nat.mod_mod _ _

theorem constFoldOp_sound (sized : wellSized op = true) (safe : foldSafe op = true)
    (folded : constFoldOp op = some (out,value)) :
    getOutput op = some out ∧
      ∀ env s, value.toNat % 256 ^ out.size.toNat = compute env s op % 256 ^ out.size.toNat := by
  unfold constFoldOp at folded
  split at folded
  · split at folded
    · rename_i located
      have sound := fun env => foldUnary_sound env folded
      obtain rfl := (sound plainEnv).1
      refine ⟨rfl,fun env s => ?_⟩
      rw [compute,read_const located]
      exact (sound env).2
    · cases folded
  · split at folded
    · rename_i located
      have sound := fun env => foldBinary_sound env sized safe located folded
      obtain rfl := (sound plainEnv).1
      refine ⟨rfl,fun env s => ?_⟩
      rw [compute,read_const located.1,read_const located.2]
      exact (sound env).2
    · cases folded
  · cases folded

theorem intZext_const {out input : Varnode} (sized : wellSized (.unary .intZext out input) = true)
    (safe : foldSafe (.unary .intZext out input) = true) (located : input.space = .const)
    (unfolded : constFoldOp (.unary .intZext out input) = none) :
    (maskToSize input.offset out.size).toNat = constValue input := by
  simp only [wellSized,Bool.and_eq_true,decide_eq_true_eq,UInt32.le_iff_toNat_le] at sized
  have low : 1 ≤ input.size.toNat := sized.1
  have wide : 8 < out.size.toNat := by
    by_contra narrow
    have outWidth : foldableWidth out.size = true := foldableWidth_iff.mpr (by omega)
    have inWidth : foldableWidth input.size = true := foldableWidth_iff.mpr (by omega)
    simp [constFoldOp,foldUnary,foldUnaryConst,located,outWidth,inWidth] at unfolded
  have beyond : ¬ out.size ≤ 8 := by
    rw [UInt32.le_iff_toNat_le]
    exact Nat.not_le.mpr wide
  have fits : input.offset.toNat < 256 ^ input.size.toNat := by
    simpa [foldSafe,located,beyond] using safe
  rw [maskToSize_wide (Nat.le_of_lt wide),constValue,Nat.mod_eq_of_lt fits]

theorem intSext_const {out input : Varnode} (sized : wellSized (.unary .intSext out input) = true)
    (safe : foldSafe (.unary .intSext out input) = true) (located : input.space = .const)
    (unfolded : constFoldOp (.unary .intSext out input) = none) (env : Env) :
    (signExtendToSize input.offset input.size out.size).toNat =
      evalUnary env .intSext input.size out.size (constValue input) := by
  simp only [wellSized,Bool.and_eq_true,decide_eq_true_eq,UInt32.le_iff_toNat_le] at sized
  have low : 1 ≤ input.size.toNat := sized.1
  have narrower : input.size.toNat ≤ out.size.toNat := sized.2
  have wide : 8 < out.size.toNat := by
    by_contra narrow
    have outWidth : foldableWidth out.size = true := foldableWidth_iff.mpr (by omega)
    have inWidth : foldableWidth input.size = true := foldableWidth_iff.mpr (by omega)
    simp [constFoldOp,foldUnary,located,outWidth,inWidth] at unfolded
  have beyond : ¬ out.size ≤ 8 := by
    rw [UInt32.le_iff_toNat_le]
    exact Nat.not_le.mpr wide
  have outWidth : foldableWidth out.size = false := by
    rw [Bool.eq_false_iff]
    intro foldable
    have := (foldableWidth_iff.mp foldable).2
    omega
  have positive : input.offset.toNat < 2 ^ (8 * input.size.toNat - 1) := by
    simp only [foldSafe,located,beyond,bne_self_eq_false,decide_false,Bool.or_eq_true,decide_eq_true_eq,
      Bool.false_eq_true,false_or] at safe
    rcases safe with large | positive
    · have large : 8 < input.size.toNat := UInt32.lt_iff_toNat_lt.mp large
      exact lt_of_lt_of_le input.offset.toNat_lt (Nat.pow_le_pow_right (by decide) (by omega))
    · exact positive
  have half : 2 ^ (8 * input.size.toNat - 1) < 2 ^ (8 * input.size.toNat) :=
    Nat.pow_lt_pow_right (by decide) (by omega)
  have fits : input.offset.toNat < 2 ^ (8 * input.size.toNat) := lt_trans positive half
  have whole : constValue input = input.offset.toNat := by
    rw [constValue,pow_bytes,Nat.mod_eq_of_lt fits]
  have sign : (BitVec.ofNat (8 * input.size.toNat) input.offset.toNat).msb = false := by
    rw [BitVec.msb_eq_decide,decide_eq_false_iff_not,BitVec.toNat_ofNat,Nat.mod_eq_of_lt fits]
    omega
  have inside : input.offset.toNat < 2 ^ (8 * out.size.toNat) :=
    lt_of_lt_of_le fits (Nat.pow_le_pow_right (by decide) (by omega))
  rw [signExtendToSize,outWidth,evalUnary,whole,BitVec.toNat_signExtend,sign]
  simp [Nat.mod_eq_of_lt fits,Nat.mod_eq_of_lt inside]

theorem shift_zero (env : Env) (shift : op = .intLsr ∨ op = .intLsl ∨ op = .intAsr)
    (fits : x < 256 ^ size.toNat) : evalBinary env op size size x 0 % 256 ^ size.toNat = x := by
  rw [pow_bytes] at fits
  by_cases empty : 8 * size.toNat = 0
  · rw [empty] at fits
    have zero : x = 0 := by omega
    have none : size.toNat = 0 := by omega
    rw [none,zero]
    exact Nat.mod_one _
  · have some : ¬ size.toNat = 0 := by omega
    rcases shift with rfl | rfl | rfl <;> simp [evalBinary,some,pow_bytes,Nat.mod_eq_of_lt fits]

theorem and_allOnes (env : Env) {size : UInt32} (narrow : size ≤ 8) (fits : x < 256 ^ size.toNat) :
    evalBinary env .intAnd size size x ((allOnesMask size).toNat % 256 ^ size.toNat) = x := by
  by_cases empty : size.toNat = 0
  · rw [empty] at fits
    have zero : x = 0 := by omega
    rw [zero]
    simp [evalBinary]
  · have narrow : size.toNat ≤ 8 := UInt32.le_iff_toNat_le.mp narrow
    have foldable : foldableWidth size = true := foldableWidth_iff.mpr (by omega)
    rw [pow_bytes] at fits ⊢
    have smaller : 2 ^ (8 * size.toNat) - 1 < 2 ^ (8 * size.toNat) := by
      have : 0 < 2 ^ (8 * size.toNat) := by positivity
      omega
    rw [toNat_allOnesMask foldable,evalBinary,BitVec.toNat_and,BitVec.toNat_ofNat,BitVec.toNat_ofNat,Nat.mod_mod,
      Nat.mod_eq_of_lt smaller,Nat.and_two_pow_sub_one_eq_mod,Nat.mod_mod,Nat.mod_eq_of_lt fits]

theorem dropShift {out left right : Varnode} (shift : op = .intLsr ∨ op = .intLsl ∨ op = .intAsr)
    (sized : wellSized (.binary op out left right) = true) (located : right.space = .const)
    (zero : right.offset = 0) : Simplifies (.binary op out left right) (.copy out left) := by
  have size : out.size = left.size := by rcases shift with rfl | rfl | rfl <;> simpa [wellSized] using sized
  refine .of_copy rfl size (.inl (by simp [reads])) fun env s => ?_
  have value : constValue right = 0 := by simp [constValue,zero]
  rw [compute,read_const located,value,size,shift_zero env shift (s.read_lt env left),
    Nat.mod_eq_of_lt (s.read_lt env left)]

theorem or_zero (env : Env) (fits : x < 256 ^ size.toNat) :
    evalBinary env .intOr size outSize x 0 = x ∧ evalBinary env .intOr size outSize 0 x = x := by
  rw [pow_bytes] at fits
  simp [evalBinary,Nat.mod_eq_of_lt fits]

theorem dropOrRight {out left right : Varnode} (sized : wellSized (.binary .intOr out left right) = true)
    (located : right.space = .const) (zero : right.offset = 0) :
    Simplifies (.binary .intOr out left right) (.copy out left) := by
  have sizes : left.size = right.size ∧ out.size = left.size := by simpa [wellSized] using sized
  refine .of_copy rfl sizes.2 (.inl (by simp [reads])) fun env s => ?_
  have value : constValue right = 0 := by simp [constValue,zero]
  rw [compute,read_const located,value,(or_zero env (s.read_lt env left)).1]

theorem dropOrLeft {out left right : Varnode} (sized : wellSized (.binary .intOr out left right) = true)
    (located : left.space = .const) (zero : left.offset = 0) :
    Simplifies (.binary .intOr out left right) (.copy out right) := by
  have sizes : left.size = right.size ∧ out.size = left.size := by simpa [wellSized] using sized
  refine .of_copy rfl (sizes.2.trans sizes.1) (.inl (by simp [reads])) fun env s => ?_
  have value : constValue left = 0 := by simp [constValue,zero]
  rw [compute,read_const located,value,sizes.1,(or_zero env (s.read_lt env right)).2]

theorem dropAnd {out left right : Varnode} (sized : wellSized (.binary .intAnd out left right) = true)
    (narrow : out.size ≤ 8) (located : right.space = .const) (ones : right.offset = allOnesMask out.size) :
    Simplifies (.binary .intAnd out left right) (.copy out left) := by
  have sizes : left.size = right.size ∧ out.size = left.size := by simpa [wellSized] using sized
  refine .of_copy rfl sizes.2 (.inl (by simp [reads])) fun env s => ?_
  have value : constValue right = (allOnesMask left.size).toNat % 256 ^ left.size.toNat := by
    rw [constValue,ones,← sizes.1,sizes.2]
  rw [compute,read_const located,value,sizes.2,and_allOnes env (sizes.2 ▸ narrow) (s.read_lt env left)]

theorem foldConstants_simplifies (sized : wellSized op = true) (safe : foldSafe op = true) :
    Simplifies op (foldConstants op) := by
  unfold foldConstants
  split
  · rename_i out value folded
    obtain ⟨output,same⟩ := constFoldOp_sound sized safe folded
    exact .of_const output same
  · rename_i unfolded
    split
    · split
      · rename_i out input located
        refine .of_const rfl fun env s => ?_
        rw [intZext_const sized safe located unfolded,compute,read_const located]
        have fits : constValue input < 2 ^ (8 * input.size.toNat) := by
          rw [← pow_bytes]
          exact Nat.mod_lt _ (by positivity)
        simp [evalUnary,Nat.mod_eq_of_lt fits]
      · exact .refl sized
    · split
      · rename_i out input located
        refine .of_const rfl fun env s => ?_
        rw [intSext_const sized safe located unfolded env,compute,read_const located]
      · exact .refl sized
    · split
      · rename_i located
        exact dropShift (.inl rfl) sized located.1 located.2
      · exact .refl sized
    · split
      · rename_i located
        exact dropShift (.inr (.inl rfl)) sized located.1 located.2
      · exact .refl sized
    · split
      · rename_i located
        exact dropShift (.inr (.inr rfl)) sized located.1 located.2
      · exact .refl sized
    · rename_i out left right
      split
      · rename_i located
        exact dropOrRight sized located.1 located.2
      · split
        · rename_i located
          exact dropOrLeft sized located.1 located.2
        · exact .refl sized
    · rename_i out left right
      split
      · rename_i located
        have narrow : out.size ≤ 8 := by simpa [foldSafe,located.1,located.2] using safe
        exact dropAnd sized narrow located.1 located.2
      · exact .refl sized
    · exact .refl sized

theorem dropIdentitySubpiece_simplifies (sized : wellSized op = true) : Simplifies op (dropIdentitySubpiece op) := by
  unfold dropIdentitySubpiece
  split
  · split
    · rename_i out input lsb identity
      refine .of_copy rfl identity.2 (.inl (by simp [reads])) fun env s => ?_
      simp [compute,identity.1]
    · exact .refl sized
  · exact .refl sized

theorem dropConstSubpiece_simplifies (sized : wellSized op = true) : Simplifies op (dropConstSubpiece op) := by
  unfold dropConstSubpiece
  split
  · split
    · rename_i out input lsb constant
      obtain ⟨zero,located,narrower⟩ := constant
      refine .of_const rfl fun env s => ?_
      have divides : 256 ^ out.size.toNat ∣ 256 ^ input.size.toNat :=
        Nat.pow_dvd_pow 256 (Nat.le_of_lt (UInt32.lt_iff_toNat_lt.mp narrower))
      rw [compute,read_const located,constValue,zero]
      simp only [UInt32.toNat_zero,pow_zero,Nat.div_one,Nat.mod_mod_of_dvd _ divides]
      split
      · rw [UInt64.toNat_and,UInt64.toNat_ofNat_of_lt' (by decide),Nat.and_two_pow_sub_one_eq_mod,
          Nat.mod_eq_of_lt input.offset.toNat_lt]
      · rename_i narrow
        have narrow : out.size.toNat < 8 := by
          rw [UInt32.le_iff_toNat_le] at narrow
          exact Nat.lt_of_not_le narrow
        have mask : (UInt64.ofNat (1 <<< (out.size.toNat * 8)) - 1).toNat = 2 ^ (8 * out.size.toNat) - 1 := by
          generalize out.size.toNat = n at *
          interval_cases n <;> rfl
        rw [UInt64.toNat_and,mask,Nat.and_two_pow_sub_one_eq_mod,pow_bytes,Nat.mod_mod]
    · exact .refl sized
  · exact .refl sized

theorem simplifyOp_simplifies (sized : wellSized op = true) (safe : foldSafe op = true) :
    Simplifies op (simplifyOp op) := by
  have folded := foldConstants_simplifies sized safe
  have identity := dropIdentitySubpiece_simplifies folded.sized
  exact folded.trans (identity.trans (dropConstSubpiece_simplifies identity.sized))

end Rsleigh.Pcode
