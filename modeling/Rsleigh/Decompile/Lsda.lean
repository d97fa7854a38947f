import Rsleigh.Lib.PrefixParser
import Mathlib.Data.BitVec
import Mathlib.Tactic.Positivity

namespace Rsleigh.Decompile.Lsda

open Parsing

-- eh_frame.rs. The cursor is the bytes that are left.
abbrev Cursor := Parser UInt8

structure TryRegion where
  start : BitVec 64
  stop : BitVec 64
  landingPad : BitVec 64
  deriving DecidableEq

def readUlebFrom (shift : Nat) (result : BitVec 64) : Cursor (BitVec 64)
  | [] => none
  | byte :: rest =>
    let result := result ||| (byte.toBitVec &&& 0x7F#8).setWidth 64 <<< shift
    if byte.toBitVec &&& 0x80#8 = 0#8 then some (result, rest)
    else if 64 ≤ shift + 7 then none
    else readUlebFrom (shift + 7) result rest

def readUleb : Cursor (BitVec 64) := readUlebFrom 0 0#64

def readSlebFrom (shift : Nat) (result : BitVec 64) : Cursor (BitVec 64)
  | [] => none
  | byte :: rest =>
    let result := result ||| (byte.toBitVec &&& 0x7F#8).setWidth 64 <<< shift
    let shift := shift + 7
    if byte.toBitVec &&& 0x80#8 = 0#8 then
      if shift < 64 && byte.toBitVec &&& 0x40#8 != 0#8 then some (result ||| BitVec.allOnes 64 <<< shift, rest)
      else some (result, rest)
    else if 64 ≤ shift then none
    else readSlebFrom shift result rest

def readSleb : Cursor (BitVec 64) := readSlebFrom 0 0#64

def fromLeBytes : List UInt8 → BitVec 64
  | [] => 0#64
  | byte :: rest => byte.toBitVec.setWidth 64 ||| fromLeBytes rest <<< 8

-- u16, u32 and u64, i16, i32 and i64, as 64 bits.
def readFixed (size : Nat) (signed : Bool) : Cursor (BitVec 64) := fun input =>
  if input.length < size then none
  else
    let value := fromLeBytes (input.take size)
    some (if signed then (value.setWidth (8 * size)).signExtend 64 else value, input.drop size)

-- The DW_EH_PE encodings that are read.
inductive Format where
  | absptr
  | uleb128
  | udata2
  | udata4
  | udata8
  | sleb128
  | sdata2
  | sdata4
  | sdata8
  deriving DecidableEq

def Format.code : Format → UInt8
  | .absptr => 0x00
  | .uleb128 => 0x01
  | .udata2 => 0x02
  | .udata4 => 0x03
  | .udata8 => 0x04
  | .sleb128 => 0x09
  | .sdata2 => 0x0A
  | .sdata4 => 0x0B
  | .sdata8 => 0x0C

def Format.ofCode (code : UInt8) : Option Format :=
  [.absptr, .uleb128, .udata2, .udata4, .udata8, .sleb128, .sdata2, .sdata4, .sdata8].find? fun format =>
    format.code = code

def Format.read : Format → Cursor (BitVec 64)
  | .absptr => readFixed 8 false
  | .uleb128 => readUleb
  | .udata2 => readFixed 2 false
  | .udata4 => readFixed 4 false
  | .udata8 => readFixed 8 false
  | .sleb128 => readSleb
  | .sdata2 => readFixed 2 true
  | .sdata4 => readFixed 4 true
  | .sdata8 => readFixed 8 true

-- Only pcrel is applied.
def applied (enc : UInt8) (base value : BitVec 64) : BitVec 64 :=
  if enc &&& 0x70 = 0x10 then value + base else value

def readEncoded (enc : UInt8) (base : BitVec 64) : Cursor (BitVec 64) := fun input =>
  match Format.ofCode (enc &&& 0x0F) with
  | none => none
  | some format => (format.read input).map fun taken => (applied enc base taken.1, taken.2)

def dwEhPeOmit : UInt8 := 0xFF

structure CallSite where
  start : BitVec 64
  length : BitVec 64
  landingPad : BitVec 64
  action : BitVec 64
  deriving DecidableEq

def readCallSite (enc : UInt8) : Cursor CallSite := fun input => do
  let (start, input) ← readEncoded enc 0#64 input
  let (length, input) ← readEncoded enc 0#64 input
  let (landingPad, input) ← readEncoded enc 0#64 input
  let (action, input) ← readUleb input
  return (⟨start, length, landingPad, action⟩, input)

-- A record without a length or a landing pad is skipped.
def region (funcStart lpStart : BitVec 64) (site : CallSite) : Option TryRegion :=
  if site.length = 0#64 then none
  else if site.landingPad = 0#64 then none
  else some ⟨funcStart + site.start, funcStart + site.start + site.length, lpStart + site.landingPad⟩

structure Header where
  lpStart : BitVec 64
  csEnc : UInt8
  csLen : BitVec 64
  deriving DecidableEq

def readByte : Cursor UInt8
  | [] => none
  | byte :: rest => some (byte, rest)

def readLpStart (funcStart : BitVec 64) : Cursor (BitVec 64) := fun input => do
  let (enc, input) ← readByte input
  if enc = dwEhPeOmit then return (funcStart, input) else readEncoded enc funcStart input

def skipTtype : Cursor Unit := fun input => do
  let (enc, input) ← readByte input
  if enc = dwEhPeOmit then return ((), input) else (readUleb input).map fun taken => ((), taken.2)

def readHeader (funcStart : BitVec 64) : Cursor Header := fun input => do
  let (lpStart, input) ← readLpStart funcStart input
  let (_, input) ← skipTtype input
  let (csEnc, input) ← readByte input
  let (csLen, input) ← readUleb input
  return (⟨lpStart, csEnc, csLen⟩, input)

-- The records that are read, each with the bytes that are left behind it: the end of the table is not looked at
-- within a record. `none` where the end of the table overflows.
def callSites (data : List UInt8) (funcStart : BitVec 64) : Option (List (CallSite × Nat) × BitVec 64) :=
  match readHeader funcStart data with
  | none => some ([], funcStart)
  | some (header, rest) =>
    let cursor := data.length - rest.length
    if 2 ^ 64 ≤ cursor + header.csLen.toNat then none
    else if data.length < cursor + header.csLen.toNat then some ([], header.lpStart)
    else some (scanTo (readCallSite header.csEnc) (rest.length - header.csLen.toNat) rest.length rest, header.lpStart)

def parseLsda (data : List UInt8) (funcStart : BitVec 64) : Option (List TryRegion) :=
  (callSites data funcStart).map fun (sites, lpStart) => sites.filterMap fun site => region funcStart lpStart site.1

-- What the encodings mean.

-- The digits of base 128 of a number, the lowest first, all but the last with the bit that says that more follow.
def lebBytes : Nat → Int → List UInt8
  | 0, value => [UInt8.ofNat (value % 128).toNat]
  | more + 1, value => UInt8.ofNat ((value % 128).toNat + 128) :: lebBytes more (value / 128)

-- The digits of base 256, the lowest first.
def leBytes : Nat → Int → List UInt8
  | 0, _ => []
  | size + 1, value => UInt8.ofNat (value % 256).toNat :: leBytes size (value / 256)

-- A number as it stands in a table, with the bytes that follow the first one where their number is free.
structure Field where
  value : Int
  more : Nat
  deriving DecidableEq

def Format.leb : Format → Bool
  | .uleb128 | .sleb128 => true
  | _ => false

def Format.size : Format → Nat
  | .udata2 | .sdata2 => 2
  | .udata4 | .sdata4 => 4
  | _ => 8

def Format.signed : Format → Bool
  | .sleb128 | .sdata2 | .sdata4 | .sdata8 => true
  | _ => false

def Format.bytes (format : Format) (field : Field) : List UInt8 :=
  if format.leb then lebBytes field.more field.value else leBytes format.size field.value

-- The numbers of an encoding, of 64 bits at most, and no digit is left out.
def Format.Holds (format : Format) (field : Field) : Prop :=
  let bits := 8 * format.size
  let digits := 7 * (field.more + 1)
  if format.signed then
    (-2 ^ (bits - 1) ≤ field.value ∧ field.value < 2 ^ (bits - 1)) ∧
      (format.leb → -2 ^ (digits - 1) ≤ field.value ∧ field.value < 2 ^ (digits - 1))
  else (0 ≤ field.value ∧ field.value < 2 ^ bits) ∧ (format.leb → field.value < 2 ^ digits)

instance (format : Format) (field : Field) : Decidable (format.Holds field) := by
  unfold Format.Holds
  exact inferInstance

-- Eleven digits are refused whatever they are.
def Format.long (format : Format) (field : Field) : Bool := format.leb && 10 ≤ field.more

def word (value : Int) : BitVec 64 := BitVec.ofInt 64 value

theorem or_and_shift (low : BitVec 64) (high : BitVec 64) (shift : Nat) (small : low.toNat < 2 ^ shift) :
    low + high <<< shift = low ||| high <<< shift := by
  refine BitVec.add_eq_or_of_and_eq_zero _ _ ?_
  ext position inside
  simp only [BitVec.getElem_and,BitVec.getElem_shiftLeft,BitVec.getElem_zero]
  by_cases under : position < shift
  · simp [under]
  · rw [BitVec.getElem_eq_testBit_toNat]
    rw [Nat.testBit_lt_two_pow (lt_of_lt_of_le small (Nat.pow_le_pow_right (by decide) (Nat.le_of_not_lt under)))]
    rfl

theorem word_add (low high : Int) : word (low + high) = word low + word high := by
  exact BitVec.ofInt_add low high

theorem word_mul (value : Int) (shift : Nat) : word (value * 2 ^ shift) = word value <<< shift := by
  unfold word
  rw [BitVec.ofInt_mul,BitVec.shiftLeft_eq_mul_twoPow]
  congr 1
  apply BitVec.eq_of_toNat_eq
  rw [BitVec.toNat_twoPow,BitVec.toNat_ofInt]
  have cast : ((2 : Int) ^ shift) = ((2 ^ shift : Nat) : Int) := by push_cast; rfl
  rw [cast,← Int.natCast_emod,Int.toNat_natCast]

theorem word_digit (value : Int) (bits : Nat) (fits : bits ≤ 64) :
    word value = word (value % 2 ^ bits) ||| word (value / 2 ^ bits) <<< bits := by
  have positive : (0 : Int) < 2 ^ bits := pow_pos (by decide) bits
  rw [← or_and_shift]
  · rw [← word_mul,← word_add]
    congr 1
    have split := Int.emod_add_mul_ediv value (2 ^ bits)
    rw [Int.mul_comm]
    exact split.symm
  · unfold word
    rw [BitVec.toNat_ofInt]
    have nonneg := Int.emod_nonneg value positive.ne'
    have below := Int.emod_lt_of_pos value positive
    have most : (2 : Int) ^ bits ≤ 2 ^ 64 := pow_le_pow_right₀ (by decide) fits
    have same : value % 2 ^ bits % ((2 ^ 64 : Nat) : Int) = value % 2 ^ bits :=
      Int.emod_eq_of_lt nonneg (by push_cast; omega)
    rw [same]
    have cast : ((2 : Int) ^ bits) = ((2 ^ bits : Nat) : Int) := by push_cast; rfl
    omega

theorem last_digit (digit : Fin 128) :
    (UInt8.ofNat digit).toBitVec &&& 0x80#8 = 0#8 ∧
    ((UInt8.ofNat digit).toBitVec &&& 0x7F#8).setWidth 64 = BitVec.ofNat 64 digit ∧
    (((UInt8.ofNat digit).toBitVec &&& 0x40#8 != 0#8) = decide (64 ≤ digit.val)) := by
  revert digit
  decide +kernel

theorem other_digit (digit : Fin 128) :
    (UInt8.ofNat (digit + 128)).toBitVec &&& 0x80#8 ≠ 0#8 ∧
    ((UInt8.ofNat (digit + 128)).toBitVec &&& 0x7F#8).setWidth 64 = BitVec.ofNat 64 digit := by
  revert digit
  decide +kernel

-- The lowest digit as the readers take it.
def digit (value : Int) : Fin 128 := ⟨(value % 128).toNat,by omega⟩

theorem digit_word (value : Int) : BitVec.ofNat 64 (digit value) = word (value % 128) := by
  unfold word
  have nonneg := Int.emod_nonneg value (by decide : (128 : Int) ≠ 0)
  rw [show value % 128 = ((digit value : Nat) : Int) from (Int.toNat_of_nonneg nonneg).symm]
  exact (BitVec.ofInt_natCast 64 (digit value)).symm

theorem word_shift (value : Int) (shift : Nat) :
    word (value % 128) <<< shift ||| word (value / 128) <<< (shift + 7) = word value <<< shift := by
  rw [word_digit value 7 (by decide),BitVec.shiftLeft_or_distrib,Nat.add_comm shift 7,BitVec.shiftLeft_add]
  rfl

theorem readUlebFrom_bytes (more : Nat) (value : Int) (place : Nat) (result : BitVec 64) (rest : List UInt8)
    (nonneg : 0 ≤ value) (fits : value < 2 ^ (7 * (more + 1))) (short : place + more ≤ 9) :
    readUlebFrom (7 * place) result (lebBytes more value ++ rest) = some (result ||| word value <<< (7 * place), rest) := by
  induction more generalizing value place result with
  | zero =>
    have isDigit := last_digit (digit value)
    have only : value % 128 = value := Int.emod_eq_of_lt nonneg fits
    have isWord := digit_word value
    rw [only] at isWord
    change readUlebFrom (7 * place) result (UInt8.ofNat (digit value) :: rest) = _
    rw [readUlebFrom]
    rw [if_pos isDigit.1,isDigit.2.1,isWord]
  | succ more ih =>
    have isDigit := other_digit (digit value)
    change readUlebFrom (7 * place) result (UInt8.ofNat (digit value + 128) :: (lebBytes more (value / 128) ++ rest)) = _
    rw [readUlebFrom]
    rw [if_neg isDigit.1,if_neg (by omega),isDigit.2,digit_word]
    have higher : value / 128 < 2 ^ (7 * (more + 1)) := by
      refine Int.ediv_lt_of_lt_mul (by decide) ?_
      rw [show 7 * (more + 1 + 1) = 7 * (more + 1) + 7 from rfl,pow_add] at fits
      exact fits
    have next := ih (value / 128) (place + 1) (result ||| word (value % 128) <<< (7 * place))
      (Int.ediv_nonneg nonneg (by decide)) higher (by omega)
    rw [Nat.mul_add] at next
    rw [next,BitVec.or_assoc,word_shift]

theorem readUlebFrom_long (more : Nat) (value : Int) (place : Nat) (result : BitVec 64) (rest : List UInt8)
    (early : place ≤ 9) (long : 10 ≤ place + more) :
    readUlebFrom (7 * place) result (lebBytes more value ++ rest) = none := by
  induction more generalizing value place result with
  | zero => omega
  | succ more ih =>
    have isDigit := other_digit (digit value)
    change readUlebFrom (7 * place) result (UInt8.ofNat (digit value + 128) :: (lebBytes more (value / 128) ++ rest)) = _
    rw [readUlebFrom]
    rw [if_neg isDigit.1]
    split
    · rfl
    · exact ih (value / 128) (place + 1) _ (by omega) (by omega)

theorem readSlebFrom_bytes (more : Nat) (value : Int) (place : Nat) (result : BitVec 64) (rest : List UInt8)
    (least : -2 ^ (7 * (more + 1) - 1) ≤ value) (most : value < 2 ^ (7 * (more + 1) - 1)) (short : place + more ≤ 9) :
    readSlebFrom (7 * place) result (lebBytes more value ++ rest) = some (result ||| word value <<< (7 * place), rest) := by
  induction more generalizing value place result with
  | zero =>
    have isDigit := last_digit (digit value)
    change readSlebFrom (7 * place) result (UInt8.ofNat (digit value) :: rest) = _
    rw [readSlebFrom]
    rw [if_pos isDigit.1,isDigit.2.1,isDigit.2.2,digit_word]
    have least' : -64 ≤ value := least
    have most' : value < 64 := most
    rw [← word_shift value (7 * place),← BitVec.or_assoc]
    by_cases negative : value < 0
    · have isAll : word (value / 128) = BitVec.allOnes 64 := by
        rw [show value / 128 = -1 by omega]
        rfl
      have isLast : 64 ≤ (digit value).val := by
        unfold digit
        dsimp only
        omega
      rw [isAll]
      by_cases inside : 7 * place + 7 < 64
      · rw [if_pos (by rw [decide_eq_true inside,decide_eq_true isLast]; rfl)]
      · rw [if_neg (by rw [decide_eq_false inside]; exact Bool.false_ne_true)]
        have gone : BitVec.allOnes 64 <<< (7 * place + 7) = 0#64 := BitVec.shiftLeft_eq_zero (by omega)
        rw [gone,BitVec.or_zero]
    · have isZero : word (value / 128) = 0#64 := by
        rw [show value / 128 = 0 by omega]
        rfl
      have isFirst : ¬ 64 ≤ (digit value).val := by
        unfold digit
        dsimp only
        omega
      rw [isZero,BitVec.zero_shiftLeft,BitVec.or_zero]
      rw [if_neg (by rw [decide_eq_false isFirst,Bool.and_false]; exact Bool.false_ne_true)]
  | succ more ih =>
    have isDigit := other_digit (digit value)
    change readSlebFrom (7 * place) result (UInt8.ofNat (digit value + 128) :: (lebBytes more (value / 128) ++ rest)) = _
    rw [readSlebFrom]
    rw [if_neg isDigit.1,if_neg (by omega),isDigit.2,digit_word]
    rw [show 7 * (more + 1 + 1) - 1 = 7 * (more + 1) - 1 + 7 by omega,pow_add] at least most
    have lower : -2 ^ (7 * (more + 1) - 1) ≤ value / 128 := by
      refine Int.le_ediv_of_mul_le (by decide) ?_
      rw [Int.neg_mul]
      exact least
    have higher : value / 128 < 2 ^ (7 * (more + 1) - 1) := Int.ediv_lt_of_lt_mul (by decide) most
    have next := ih (value / 128) (place + 1) (result ||| word (value % 128) <<< (7 * place))
      lower higher (by omega)
    rw [Nat.mul_add] at next
    rw [next,BitVec.or_assoc,word_shift]

theorem readSlebFrom_long (more : Nat) (value : Int) (place : Nat) (result : BitVec 64) (rest : List UInt8)
    (early : place ≤ 9) (long : 10 ≤ place + more) :
    readSlebFrom (7 * place) result (lebBytes more value ++ rest) = none := by
  induction more generalizing value place result with
  | zero => omega
  | succ more ih =>
    have isDigit := other_digit (digit value)
    change readSlebFrom (7 * place) result (UInt8.ofNat (digit value + 128) :: (lebBytes more (value / 128) ++ rest)) = _
    rw [readSlebFrom]
    rw [if_neg isDigit.1]
    split
    · rfl
    · exact ih (value / 128) (place + 1) _ (by omega) (by omega)

theorem byte_word (value : Int) : (UInt8.ofNat (value % 256).toNat).toBitVec.setWidth 64 = word (value % 256) := by
  apply BitVec.eq_of_toNat_eq
  unfold word
  rw [BitVec.toNat_setWidth,BitVec.toNat_ofInt]
  have isNat : (UInt8.ofNat (value % 256).toNat).toBitVec.toNat = (value % 256).toNat % 256 := UInt8.toNat_ofNat'
  rw [isNat]
  have nonneg := Int.emod_nonneg value (by decide : (256 : Int) ≠ 0)
  have below := Int.emod_lt_of_pos value (by decide : (0 : Int) < 256)
  omega

theorem leBytes_length (size : Nat) (value : Int) : (leBytes size value).length = size := by
  induction size generalizing value with
  | zero => rfl
  | succ size ih => exact congrArg (· + 1) (ih _)

theorem lebBytes_length (more : Nat) (value : Int) : (lebBytes more value).length = more + 1 := by
  induction more generalizing value with
  | zero => rfl
  | succ more ih => exact congrArg (· + 1) (ih _)

theorem word_bytes (size : Nat) (value : Int) :
    word value = fromLeBytes (leBytes size value) ||| word (value / 2 ^ (8 * size)) <<< (8 * size) := by
  induction size generalizing value with
  | zero =>
    change _ = 0#64 ||| word (value / 1) <<< 0
    rw [Int.ediv_one,BitVec.shiftLeft_zero,BitVec.zero_or]
  | succ size ih =>
    change _ = ((UInt8.ofNat (value % 256).toNat).toBitVec.setWidth 64 ||| fromLeBytes (leBytes size (value / 256)) <<< 8) ||| _
    rw [byte_word,word_digit value 8 (by decide)]
    rw [show value / 2 ^ 8 = value / 256 from rfl,ih (value / 256),Int.ediv_ediv_of_nonneg (by decide)]
    rw [BitVec.shiftLeft_or_distrib,← BitVec.or_assoc,← BitVec.shiftLeft_add,Nat.mul_add,pow_add,Int.mul_comm]
    rfl

theorem fromLeBytes_unsigned (size : Nat) (value : Int) (nonneg : 0 ≤ value) (fits : value < 2 ^ (8 * size)) :
    fromLeBytes (leBytes size value) = word value := by
  have isZero : word 0 = 0#64 := rfl
  rw [word_bytes size value,Int.ediv_eq_zero_of_lt nonneg fits,isZero,BitVec.zero_shiftLeft,BitVec.or_zero]

theorem setWidth_word (value : Int) (width : Nat) (narrow : width ≤ 64) :
    (word value).setWidth width = BitVec.ofInt width value := by
  apply BitVec.eq_of_toNat_eq
  unfold word
  rw [BitVec.toNat_setWidth,BitVec.toNat_ofInt,BitVec.toNat_ofInt]
  have divides : (((2 ^ width : Nat) : Int)) ∣ ((2 ^ 64 : Nat) : Int) :=
    Int.natCast_dvd_natCast.mpr (Nat.pow_dvd_pow 2 narrow)
  have nonneg := Int.emod_nonneg value (by positivity : ((2 ^ 64 : Nat) : Int) ≠ 0)
  have nonneg' := Int.emod_nonneg value (by positivity : ((2 ^ width : Nat) : Int) ≠ 0)
  apply Int.natCast_inj.mp
  rw [Int.natCast_emod,Int.toNat_of_nonneg nonneg,Int.toNat_of_nonneg nonneg',Int.emod_emod_of_dvd _ divides]

theorem fromLeBytes_signed (size : Nat) (value : Int) (some_ : 0 < size) (short : size ≤ 8)
    (least : -2 ^ (8 * size - 1) ≤ value) (most : value < 2 ^ (8 * size - 1)) :
    ((fromLeBytes (leBytes size value)).setWidth (8 * size)).signExtend 64 = word value := by
  have low : (fromLeBytes (leBytes size value)).setWidth (8 * size) = BitVec.ofInt (8 * size) value := by
    rw [← setWidth_word value (8 * size) (by omega),word_bytes size value]
    ext position inside
    simp [inside]
  rw [low]
  apply BitVec.eq_of_toInt_eq
  rw [BitVec.toInt_signExtend_of_le (by omega),BitVec.toInt_ofInt_eq_self (by omega) least most]
  have wider : (2 : Int) ^ (8 * size - 1) ≤ 2 ^ 63 := pow_le_pow_right₀ (by decide) (by omega)
  exact (BitVec.toInt_ofInt_eq_self (by decide) (by omega) (by omega)).symm

theorem readFixed_bytes (size : Nat) (signed : Bool) (value : Int) (rest : List UInt8) :
    readFixed size signed (leBytes size value ++ rest) =
      some (if signed then ((fromLeBytes (leBytes size value)).setWidth (8 * size)).signExtend 64
        else fromLeBytes (leBytes size value),rest) := by
  have isLength := leBytes_length size value
  rw [readFixed,if_neg (by rw [List.length_append]; omega)]
  rw [List.take_append_of_le_length (by omega),List.take_of_length_le (by omega)]
  rw [List.drop_append_of_le_length (by omega),List.drop_of_length_le (by omega)]
  rfl

theorem Format.read_bytes (format : Format) (field : Field) (holds : format.Holds field) (short : format.long field = false)
    (rest : List UInt8) : format.read (format.bytes field ++ rest) = some (word field.value,rest) := by
  cases format with
  | uleb128 =>
    have few : field.more < 10 := by simpa [Format.long,Format.leb] using short
    have same := readUlebFrom_bytes field.more field.value 0 0#64 rest holds.1.1 (holds.2 rfl) (by omega)
    rwa [BitVec.zero_or,BitVec.shiftLeft_zero] at same
  | sleb128 =>
    have few : field.more < 10 := by simpa [Format.long,Format.leb] using short
    have same := readSlebFrom_bytes field.more field.value 0 0#64 rest (holds.2 rfl).1 (holds.2 rfl).2 (by omega)
    rwa [BitVec.zero_or,BitVec.shiftLeft_zero] at same
  | absptr | udata2 | udata4 | udata8 =>
    refine (readFixed_bytes _ false field.value rest).trans ?_
    rw [if_neg Bool.false_ne_true,fromLeBytes_unsigned _ field.value holds.1.1 holds.1.2]
  | sdata2 | sdata4 | sdata8 =>
    refine (readFixed_bytes _ true field.value rest).trans ?_
    rw [if_pos rfl,fromLeBytes_signed _ field.value (by decide) (by decide) holds.1.1 holds.1.2]

theorem Format.read_long (format : Format) (field : Field) (long : format.long field = true) (rest : List UInt8) :
    format.read (format.bytes field ++ rest) = none := by
  obtain ⟨isLeb,many⟩ := Bool.and_eq_true_iff.mp long
  have many : 10 ≤ field.more := of_decide_eq_true many
  cases format with
  | uleb128 => exact readUlebFrom_long field.more field.value 0 0#64 rest (by decide) (by omega)
  | sleb128 => exact readSlebFrom_long field.more field.value 0 0#64 rest (by decide) (by omega)
  | absptr | udata2 | udata4 | udata8 | sdata2 | sdata4 | sdata8 => cases isLeb

theorem Format.bytes_ne_nil (format : Format) (field : Field) : format.bytes field ≠ [] := by
  intro isNil
  have isLength := congrArg List.length isNil
  unfold Format.bytes at isLength
  split at isLength
  · rw [lebBytes_length] at isLength
    cases isLength
  · rw [leBytes_length] at isLength
    cases format <;> cases isLength

theorem readUlebFrom_prefixed (shift : Nat) (result : BitVec 64) : Prefixed (readUlebFrom shift result) := by
  intro input
  induction input generalizing shift result with
  | nil =>
    intro value rest accepted
    cases accepted
  | cons byte input ih =>
    intro value rest accepted
    rw [readUlebFrom] at accepted
    split at accepted
    · rename_i isLast
      cases accepted
      refine ⟨[byte],List.cons_ne_nil _ _,rfl,fun more => ?_⟩
      rw [List.singleton_append,readUlebFrom,if_pos isLast]
    · rename_i isOther
      split at accepted
      · cases accepted
      · rename_i inside
        obtain ⟨used,_,rfl,same⟩ := ih _ _ value rest accepted
        refine ⟨byte :: used,List.cons_ne_nil _ _,rfl,fun more => ?_⟩
        rw [List.cons_append,readUlebFrom,if_neg isOther,if_neg inside]
        exact same more

theorem readSlebFrom_prefixed (shift : Nat) (result : BitVec 64) : Prefixed (readSlebFrom shift result) := by
  intro input
  induction input generalizing shift result with
  | nil =>
    intro value rest accepted
    cases accepted
  | cons byte input ih =>
    intro value rest accepted
    rw [readSlebFrom] at accepted
    split at accepted
    · rename_i isLast
      refine ⟨[byte],List.cons_ne_nil _ _,?_,fun more => ?_⟩
      · split at accepted <;> cases accepted <;> rfl
      · rw [List.singleton_append,readSlebFrom,if_pos isLast]
        split at accepted <;> cases accepted <;> rename_i signed
        · rw [if_pos signed]
        · rw [if_neg signed]
    · rename_i isOther
      split at accepted
      · cases accepted
      · rename_i inside
        obtain ⟨used,_,rfl,same⟩ := ih _ _ value rest accepted
        refine ⟨byte :: used,List.cons_ne_nil _ _,rfl,fun more => ?_⟩
        rw [List.cons_append,readSlebFrom,if_neg isOther,if_neg inside]
        exact same more

theorem readFixed_prefixed (size : Nat) (signed : Bool) (some_ : 0 < size) : Prefixed (readFixed size signed) := by
  intro input value rest accepted
  rw [readFixed] at accepted
  split at accepted
  · cases accepted
  · rename_i enough
    have isLength : (input.take size).length = size := List.length_take_of_le (by omega)
    cases accepted
    refine ⟨input.take size,fun isNil => ?_,(List.take_append_drop size input).symm,fun more => ?_⟩
    · rw [isNil] at isLength
      exact some_.ne isLength
    · rw [readFixed,if_neg (by rw [List.length_append]; omega)]
      rw [List.take_append_of_le_length (by omega),List.take_of_length_le (l := input.take size) (by omega)]
      rw [List.drop_append_of_le_length (by omega),List.drop_of_length_le (l := input.take size) (by omega)]
      rfl

theorem Format.read_prefixed (format : Format) : Prefixed format.read := by
  cases format with
  | uleb128 => exact readUlebFrom_prefixed 0 0#64
  | sleb128 => exact readSlebFrom_prefixed 0 0#64
  | absptr | udata2 | udata4 | udata8 => exact readFixed_prefixed _ false (by decide)
  | sdata2 | sdata4 | sdata8 => exact readFixed_prefixed _ true (by decide)

theorem readEncoded_prefixed (enc : UInt8) (base : BitVec 64) : Prefixed (readEncoded enc base) := by
  cases isFormat : Format.ofCode (enc &&& 0x0F) with
  | none =>
    intro input value rest accepted
    rw [readEncoded,isFormat] at accepted
    cases accepted
  | some format =>
    have same : readEncoded enc base = fun input => (format.read input).map fun taken => (applied enc base taken.1,taken.2) := by
      funext input
      rw [readEncoded,isFormat]
    rw [same]
    exact format.read_prefixed.map (applied enc base)

theorem readCallSite_prefixed (enc : UInt8) : Prefixed (readCallSite enc) := by
  intro input value rest accepted
  obtain ⟨⟨start,afterStart⟩,isStart,accepted⟩ := Option.bind_eq_some_iff.mp accepted
  obtain ⟨⟨length,afterLength⟩,isLength,accepted⟩ := Option.bind_eq_some_iff.mp accepted
  obtain ⟨⟨landingPad,afterPad⟩,isPad,accepted⟩ := Option.bind_eq_some_iff.mp accepted
  obtain ⟨⟨action,afterAction⟩,isAction,accepted⟩ := Option.bind_eq_some_iff.mp accepted
  cases accepted
  obtain ⟨starts,some,rfl,sameStart⟩ := readEncoded_prefixed enc 0#64 _ _ _ isStart
  obtain ⟨lengths,_,rfl,sameLength⟩ := readEncoded_prefixed enc 0#64 _ _ _ isLength
  obtain ⟨pads,_,rfl,samePad⟩ := readEncoded_prefixed enc 0#64 _ _ _ isPad
  obtain ⟨actions,_,rfl,sameAction⟩ := readUlebFrom_prefixed 0 0#64 _ _ _ isAction
  refine ⟨starts ++ (lengths ++ (pads ++ actions)),List.append_ne_nil_of_left_ne_nil some _,?_,fun more => ?_⟩
  · simp only [List.append_assoc]
  · have sameAction : readUleb (actions ++ more) = Option.some (action,more) := sameAction more
    simp [readCallSite,sameStart,sameLength,samePad,sameAction]

end Rsleigh.Decompile.Lsda
