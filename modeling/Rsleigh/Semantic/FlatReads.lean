import Rsleigh.Semantic.FlatMasks
import Rsleigh.Semantic.FlatParser

namespace Rsleigh.Semantic.Variants

open Decode Fallible

theorem fromLeBytes_testBit (bytes : List UInt8) :
    ∀ index, (fromLeBytes bytes).testBit index = (bytes.getD (index / 8) 0).toNat.testBit (index % 8) := by
  induction bytes with
  | nil =>
    intro index
    simp [fromLeBytes]
  | cons byte rest ih =>
    intro index
    have small : byte.toNat < 2 ^ 8 := byte.toNat_lt
    rw [fromLeBytes,Nat.add_comm,show (256 : Nat) = 2 ^ 8 by rfl,Nat.testBit_two_pow_mul_add _ small]
    split
    · rename_i first
      rw [Nat.div_eq_of_lt first,Nat.mod_eq_of_lt first]
      rfl
    · rename_i later
      have isByte : index / 8 = (index - 8) / 8 + 1 := by omega
      have isIndex : index % 8 = (index - 8) % 8 := by omega
      rw [ih,isByte,isIndex,List.getD_cons_succ]

theorem getD_take_drop {tokens : List UInt8} {offset count index : Nat} (inside : index < count) :
    ((tokens.drop offset).take count).getD index 0 = tokens.getD (offset + index) 0 := by
  rw [List.getD_eq_getElem?_getD,List.getD_eq_getElem?_getD,List.getElem?_take_of_lt inside,List.getElem?_drop]

section Token

variable {field : TokenField} {tokens : List UInt8} {offset raw : Nat} {context : BitVec width}

theorem token_bit {index : Nat} (enough : field.tokenLen ≤ (tokens.drop offset).length)
    (inside : index < 8 * field.tokenLen) :
    (fromLeBytes (if field.bigEndian then ((tokens.drop offset).take field.tokenLen).reverse
      else (tokens.drop offset).take field.tokenLen)).testBit index =
      inputBit tokens context (.token (8 * offset + tokenOrder field index (8 * field.tokenLen))) := by
  have byteInside : index / 8 < field.tokenLen := by omega
  rw [fromLeBytes_testBit]
  unfold tokenOrder
  split
  · have length : ((tokens.drop offset).take field.tokenLen).length = field.tokenLen := by
      rw [List.length_take,Nat.min_eq_left enough]
    have isByte : (8 * offset + fieldInBe index (8 * field.tokenLen)) / 8 = offset + (field.tokenLen - 1 - index / 8) := by
      unfold fieldInBe
      omega
    have isIndex : (8 * offset + fieldInBe index (8 * field.tokenLen)) % 8 = index % 8 := by
      unfold fieldInBe
      omega
    simp only [inputBit,isByte,isIndex]
    rw [List.getD_eq_getElem?_getD,List.getElem?_reverse (by omega),length,← List.getD_eq_getElem?_getD,
      getD_take_drop (by omega)]
  · have isByte : (8 * offset + fieldInLe index (8 * field.tokenLen)) / 8 = offset + index / 8 := by
      unfold fieldInLe
      omega
    have isIndex : (8 * offset + fieldInLe index (8 * field.tokenLen)) % 8 = index % 8 := by
      unfold fieldInLe
      omega
    simp only [inputBit,isByte,isIndex]
    rw [getD_take_drop byteInside]

theorem read_parts (found : field.read (tokens.drop offset) = .ok raw) :
    field.tokenLen ≤ (tokens.drop offset).length ∧
      raw = fromLeBytes (if field.bigEndian then ((tokens.drop offset).take field.tokenLen).reverse
        else (tokens.drop offset).take field.tokenLen) / 2 ^ field.start % 2 ^ field.len := by
  unfold TokenField.read at found
  split at found
  · cases found
  · rename_i enough
    cases found
    exact ⟨Nat.le_of_not_lt enough,rfl⟩

theorem read_bit {i : Nat} (found : field.read (tokens.drop offset) = .ok raw) (isBit : i < field.len)
    (inside : field.start + i < 8 * field.tokenLen) :
    raw.testBit i =
      inputBit tokens context (.token (8 * offset + tokenOrder field (field.start + i) (8 * field.tokenLen))) := by
  obtain ⟨enough,rfl⟩ := read_parts found
  rw [Nat.testBit_mod_two_pow,Nat.testBit_div_two_pow]
  simp only [isBit,decide_true,Bool.true_and]
  rw [Nat.add_comm i]
  exact token_bit enough inside

end Token

theorem ContextMemory.raw_bit {memory : ContextMemory} {id i : Nat} {context : BitVec memory.width}
    (isBit : i < (memory.field id).len) :
    (memory.raw id context).testBit ((memory.field id).len - 1 - i) = context.getLsbD ((memory.field id).start + i) := by
  have inside := memory.inside id
  have isIndex : memory.width - 1 - (memory.width - ((memory.field id).start + (memory.field id).len) +
      ((memory.field id).len - 1 - i)) = (memory.field id).start + i := by
    omega
  have small : (memory.field id).len - 1 - i < (memory.field id).len := by omega
  have within : memory.width - ((memory.field id).start + (memory.field id).len) + ((memory.field id).len - 1 - i) <
      memory.width := by
    omega
  unfold raw
  rw [Nat.testBit_mod_two_pow,Nat.testBit_shiftRight,BitVec.testBit_toNat,BitVec.getLsbD_reverse]
  unfold BitVec.getMsbD
  rw [isIndex]
  simp only [small,within,decide_true,Bool.true_and]

theorem intTypeBits_le {bits : Nat} (small : bits ≤ 128) : bits ≤ intTypeBits bits ∧ 0 < intTypeBits bits := by
  unfold intTypeBits
  repeat' split
  all_goals omega

theorem ContextField.value_bit {field : ContextField} {raw i : Nat} (narrow : field.len ≤ 128) (isBit : i < field.len) :
    (field.value raw).getLsbD i = raw.testBit i := by
  have inside : i < 128 := Nat.lt_of_lt_of_le isBit narrow
  obtain ⟨holds,positive⟩ := intTypeBits_le narrow
  unfold value
  split
  · rw [castSigned_bit positive inside,if_pos (Nat.lt_of_lt_of_le isBit holds)]
  · rw [BitVec.getLsbD_ofNat]
    simp only [inside,decide_true,Bool.true_and]

theorem ContextMemory.len_narrow (memory : ContextMemory) (id : Nat) : (memory.field id).len ≤ 128 :=
  Nat.le_trans (Nat.le_trans (Nat.le_add_left _ _) (memory.inside id)) memory.narrow

-- The literal is a value of the field.
def Equality.Fits (layout : Layout) : Equality → Prop
  | .context id word => ∃ raw < 2 ^ (layout.memory.field id).len, word = (layout.memory.field id).value raw
  | .token _ id word => ∃ raw < 2 ^ (layout.tokenField id).len, word = BitVec.ofNat 128 raw

theorem eq_of_bits {x y len : Nat} (xFits : x < 2 ^ len) (yFits : y < 2 ^ len)
    (same : ∀ i < len, x.testBit i = y.testBit i) : x = y := by
  apply Nat.eq_of_testBit_eq
  intro i
  by_cases inside : i < len
  · exact same i inside
  · rw [raw_bit xFits (Nat.le_of_not_lt inside),raw_bit yFits (Nat.le_of_not_lt inside)]

section Literals

variable {layout : Layout} {tokens : List UInt8} {context : layout.Context} {id offset : Nat} {word : Word}

theorem context_holds (isValue : layout.memory.read id context = word) :
    (Equality.context id word).Holds layout (inputBit tokens context) := by
  intro place bit asks
  obtain ⟨i,less,rfl,rfl⟩ := asks
  have small : (layout.memory.field id).len - 1 - i < (layout.memory.field id).len := by omega
  rw [← isValue,ContextMemory.read,ContextField.value_bit (layout.memory.len_narrow id) small,
    ContextMemory.raw_bit less]
  rfl

theorem context_value (fits : (Equality.context id word).Fits layout)
    (holds : (Equality.context id word).Holds layout (inputBit tokens context)) :
    layout.memory.read id context = word := by
  obtain ⟨raw,small,rfl⟩ := fits
  have narrow := layout.memory.len_narrow id
  have same : layout.memory.raw id context = raw := by
    have rawSmall : layout.memory.raw id context < 2 ^ (layout.memory.field id).len := Nat.mod_lt _ (Nat.two_pow_pos _)
    apply eq_of_bits rawSmall small
    intro i less
    have isBit : (layout.memory.field id).len - 1 - i < (layout.memory.field id).len := by omega
    have isIndex : (layout.memory.field id).len - 1 - ((layout.memory.field id).len - 1 - i) = i := by omega
    have asked := holds _ _ ⟨(layout.memory.field id).len - 1 - i,isBit,rfl,rfl⟩
    have isRaw := @ContextMemory.raw_bit layout.memory id _ context isBit
    rw [isIndex] at asked isRaw
    rw [isRaw,← ContextField.value_bit narrow less]
    exact asked
  rw [ContextMemory.read,same]

theorem token_holds {raw : Nat} (found : (layout.tokenField id).read (tokens.drop offset) = .ok raw)
    (isValue : BitVec.ofNat 128 raw = word) :
    (Equality.token offset id word).Holds layout (inputBit tokens context) := by
  intro place bit asks
  obtain ⟨i,less,inside,rfl,rfl⟩ := asks
  have small : i < 128 := by
    have short := (layout.tokenField id).short
    omega
  rw [← isValue,BitVec.getLsbD_ofNat,← read_bit found less inside]
  simp only [small,decide_true,Bool.true_and]

theorem token_value {bits : ConstraintBits} (fits : (Equality.token offset id word).Fits layout)
    (inside : (Equality.token offset id word).Inside layout bits) (enough : bits.token.length ≤ 8 * tokens.length)
    (holds : (Equality.token offset id word).Holds layout (inputBit tokens context)) :
    ∃ raw, (layout.tokenField id).read (tokens.drop offset) = .ok raw ∧ BitVec.ofNat 128 raw = word := by
  obtain ⟨own,small,rfl⟩ := fits
  obtain ⟨within,slice⟩ := inside
  have long : (layout.tokenField id).tokenLen ≤ (tokens.drop offset).length := by
    rw [List.length_drop]
    omega
  obtain ⟨raw,found⟩ := (layout.tokenField id).read_ok long
  refine ⟨raw,found,?_⟩
  have same : raw = own := by
    apply eq_of_bits ((layout.tokenField id).read_fits found) small
    intro i less
    have narrow : i < 128 := by
      have short := (layout.tokenField id).short
      omega
    have asked := holds _ _ ⟨i,less,slice i less,rfl,rfl⟩
    rw [BitVec.getLsbD_ofNat] at asked
    simp only [narrow,decide_true,Bool.true_and] at asked
    have isRaw : raw.testBit i = inputBit tokens context _ := read_bit found less (slice i less)
    exact isRaw.trans asked
  rw [same]

end Literals

end Rsleigh.Semantic.Variants
