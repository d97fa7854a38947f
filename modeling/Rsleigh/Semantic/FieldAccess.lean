import Rsleigh.Semantic.FlatReads

namespace Rsleigh.Semantic.Variants

open Decode

-- The context fields of a specification, each in its range of the memory.
structure ContextFields (bits : Nat) where
  field : Nat → ContextField
  nonempty : ∀ id, 0 < (field id).len
  inside : ∀ id, (field id).start + (field id).len ≤ bits

theorem intTypeBits_narrow (bits : Nat) : intTypeBits bits ≤ 128 := by
  unfold intTypeBits
  repeat' split
  all_goals omega

-- The memory of the accessors. A memory of more than 128 bits has none: the casts to its type do not compile.
def ContextFields.memory {bits : Nat} (fields : ContextFields bits) (narrow : bits ≤ 128) : ContextMemory where
  memoryBits := bits
  width := intTypeBits bits
  field := fields.field
  inside id := Nat.le_trans (fields.inside id) (intTypeBits_le narrow).1
  narrow := intTypeBits_narrow bits

-- A value that a field can have.
structure ContextField.Value (field : ContextField) where
  value : Int
  fits : if field.signed then -2 ^ (field.len - 1) ≤ value ∧ value < 2 ^ (field.len - 1)
    else 0 ≤ value ∧ value < 2 ^ field.len

def ContextField.Value.word {field : ContextField} (value : field.Value) : Word :=
  BitVec.ofInt 128 value.value

-- codegen/builder/disassembler/table.rs: the masks of the bytes as one number, and in the same way their values.
def foldBytes (byteNum : Nat) : List Nat → Nat → Nat
  | [], acc => acc
  | byte :: rest, acc => foldBytes (byteNum + 1) rest (acc ||| byte <<< (8 * byteNum))

def contextTest (bits : List BitConstraint) (context : BitVec width) : Bool :=
  let bytes := patternBytes bits
  context.toNat &&& foldBytes 0 (bytes.map Prod.fst) 0 == foldBytes 0 (bytes.map Prod.snd) 0

-- The constraint `field = value` on a memory that nothing else restrains.
def ContextMemory.fieldConstraint (memory : ContextMemory) (id : Nat) (value : Word) :
    Except Failure (Bool × List BitConstraint) :=
  applyValue 0 memory.memoryBits (memory.field id).start (memory.field id).len fieldInLe valueInContext (some value)
    (List.range (memory.field id).len) (List.replicate memory.memoryBits .unrestrained)

-- The accessors of a field and the test of the matcher agree on a value.
structure Agree (memory : ContextMemory) (id : Nat) (value : (memory.field id).Value) : Prop where
  readsBack : ∀ context, memory.read id (memory.write id value.word context) = value.word
  keeps : ∀ context bit, bit < (memory.field id).start ∨ (memory.field id).start + (memory.field id).len ≤ bit →
    (memory.write id value.word context).getLsbD bit = context.getLsbD bit
  tests : ∃ bits, memory.fieldConstraint id value.word = .ok (true,bits) ∧
    ∀ context : BitVec memory.width, contextTest bits context = true ↔ memory.read id context = value.word

-- There are accessors, and they agree with the matcher.
def AccessorsAgree {bits : Nat} (fields : ContextFields bits) (id : Nat) (value : (fields.field id).Value) : Prop :=
  ∃ narrow, Agree (fields.memory narrow) id value

section Masks

variable {bits : List BitConstraint}

theorem foldBytes_testBit {bytes : List Nat} :
    ∀ {byteNum acc : Nat}, (∀ byte ∈ bytes, byte < 2 ^ 8) → ∀ i,
      (foldBytes byteNum bytes acc).testBit i =
        (acc.testBit i || (decide (8 * byteNum ≤ i) && (bytes.getD (i / 8 - byteNum) 0).testBit (i % 8))) := by
  induction bytes with
  | nil => simp [foldBytes]
  | cons byte rest ih =>
    intro byteNum acc small i
    have smallHead := small byte (List.mem_cons_self ..)
    unfold foldBytes
    rw [ih (fun other member => small other (List.mem_cons_of_mem _ member))]
    simp only [Nat.testBit_or,Nat.testBit_shiftLeft,Bool.or_assoc]
    congr 1
    by_cases before : i < 8 * byteNum
    · have later : ¬8 * (byteNum + 1) ≤ i := by omega
      simp [later,Nat.not_le_of_lt before]
    · by_cases here : i < 8 * byteNum + 8
      · have later : ¬8 * (byteNum + 1) ≤ i := by omega
        have isByte : i / 8 - byteNum = 0 := by omega
        have isIndex : i - 8 * byteNum = i % 8 := by omega
        simp [later,Nat.le_of_not_lt before,isByte,isIndex]
      · have later : 8 * (byteNum + 1) ≤ i := by omega
        have isByte : i / 8 - byteNum = i / 8 - (byteNum + 1) + 1 := by omega
        have none : byte.testBit (i - 8 * byteNum) = false :=
          Nat.testBit_lt_two_pow (Nat.lt_of_lt_of_le smallHead (Nat.pow_le_pow_right (by decide) (by omega)))
        rw [isByte,List.getD_cons_succ]
        simp [later,Nat.le_of_not_lt before,none]

theorem maskOf_small : ∀ {bits : List BitConstraint}, maskOf bits < 2 ^ bits.length
  | [] => by decide
  | first :: rest => by
    have small := @maskOf_small rest
    cases first <;> simp only [maskOf,List.length_cons,Nat.pow_succ] <;> omega

theorem valueOf_small : ∀ {bits : List BitConstraint}, valueOf bits < 2 ^ bits.length
  | [] => by decide
  | first :: rest => by
    have small := @valueOf_small rest
    cases first with
    | unrestrained => simp only [valueOf,List.length_cons,Nat.pow_succ]; omega
    | restrained => simp only [valueOf,List.length_cons,Nat.pow_succ]; omega
    | defined bit => cases bit <;> simp only [valueOf,List.length_cons,Nat.pow_succ] <;> omega

theorem patternByte_small {byte : Nat} :
    maskOf ((bits.drop (8 * byte)).take 8) < 2 ^ 8 ∧ valueOf ((bits.drop (8 * byte)).take 8) < 2 ^ 8 := by
  have short : ((bits.drop (8 * byte)).take 8).length ≤ 8 := List.length_take_le ..
  have bound : 2 ^ ((bits.drop (8 * byte)).take 8).length ≤ 2 ^ 8 := Nat.pow_le_pow_right (by decide) short
  exact ⟨Nat.lt_of_lt_of_le maskOf_small bound,Nat.lt_of_lt_of_le valueOf_small bound⟩

theorem foldBytes_of {own : List BitConstraint → Nat} {part : Nat × Nat → Nat} (empty : own [] = 0)
    (isPart : ∀ byte, part (maskOf ((bits.drop (8 * byte)).take 8),valueOf ((bits.drop (8 * byte)).take 8)) =
      own ((bits.drop (8 * byte)).take 8))
    (small : ∀ byte, own ((bits.drop (8 * byte)).take 8) < 2 ^ 8)
    (whole : ∀ i, (own ((bits.drop (8 * (i / 8))).take 8)).testBit (i % 8) = (own bits).testBit i) :
    foldBytes 0 ((patternBytes bits).map part) 0 = own bits := by
  apply Nat.eq_of_testBit_eq
  intro i
  rw [foldBytes_testBit]
  · rw [← whole i,List.getD_eq_getElem?_getD,List.getElem?_map,Nat.sub_zero]
    by_cases inside : i / 8 < (bits.length + 7) / 8
    · simp [patternBytes_get inside,isPart]
    · have beyond : bits.length ≤ 8 * (i / 8) := by omega
      simp [patternBytes,List.drop_eq_nil_of_le beyond,empty,inside]
  · intro byte member
    unfold patternBytes at member
    rw [List.map_map] at member
    obtain ⟨index,_,rfl⟩ := List.mem_map.mp member
    simp only [Function.comp_apply,isPart]
    exact small index

theorem definedAt_own {i : Nat} {bit : Bool} :
    DefinedAt ((bits.drop (8 * (i / 8))).take 8) (i % 8) bit ↔ DefinedAt bits i bit := by
  rw [definedAt_byte,Nat.div_add_mod]
  exact and_iff_right (Nat.mod_lt _ (by decide))

theorem contextTest_iff (context : BitVec width) :
    contextTest bits context = true ↔ ∀ index bit, DefinedAt bits index bit → context.getLsbD index = bit := by
  have mask : foldBytes 0 ((patternBytes bits).map Prod.fst) 0 = maskOf bits := by
    apply foldBytes_of rfl (fun _ => rfl) (fun _ => patternByte_small.1)
    intro i
    apply Bool.eq_iff_iff.mpr
    simp only [maskOf_testBit,definedAt_own]
  have value : foldBytes 0 ((patternBytes bits).map Prod.snd) 0 = valueOf bits := by
    apply foldBytes_of rfl (fun _ => rfl) (fun _ => patternByte_small.2)
    intro i
    apply Bool.eq_iff_iff.mpr
    simp only [valueOf_testBit,definedAt_own]
  unfold contextTest
  simp only [mask,value,beq_iff_eq]
  exact masked_iff context.toNat

end Masks

section ApplyValue

variable {offset sliceLen start len : Nat} {fieldOrder valueOrder : Nat → Nat → Nat}

theorem applyValue_total {value : Option Word} {values : List Nat} :
    ∀ {bits : List BitConstraint},
      (∀ i ∈ values, start + i < sliceLen ∧ offset + fieldOrder (start + i) sliceLen < bits.length) →
      ∃ result, applyValue offset sliceLen start len fieldOrder valueOrder value values bits = .ok result := by
  induction values with
  | nil => exact fun _ => ⟨_,rfl⟩
  | cons i rest ih =>
    intro bits inside
    obtain ⟨inSlice,inBits⟩ := inside i (List.mem_cons_self ..)
    have later : ∀ new, ∀ j ∈ rest, start + j < sliceLen ∧ offset + fieldOrder (start + j) sliceLen <
        (bits.set (offset + fieldOrder (start + i) sliceLen) new).length := by
      intro new j member
      rw [List.length_set]
      exact inside j (List.mem_cons_of_mem _ member)
    unfold applyValue
    simp only [Nat.not_le_of_lt inSlice,if_false,List.getElem?_eq_getElem inBits]
    cases value with
    | none =>
      cases bits[offset + fieldOrder (start + i) sliceLen] with
      | unrestrained => exact ih (later _)
      | restrained => exact ih (later _)
      | defined bit => exact ih (later _)
    | some literal =>
      cases defined : (bits[offset + fieldOrder (start + i) sliceLen]).define (literal.getLsbD (valueOrder i len)) with
      | none => exact ⟨(false,bits),by simp [defined]⟩
      | some new =>
        obtain ⟨result,run⟩ := ih (later new)
        exact ⟨result,by simp [defined,run]⟩

theorem applyValue_fresh {literal : Word} {values : List Nat} {count : Nat}
    (inside : ∀ i ∈ values, start + i < sliceLen ∧ offset + fieldOrder (start + i) sliceLen < count)
    (apart : ∀ i j, start + i < sliceLen → start + j < sliceLen →
      fieldOrder (start + i) sliceLen = fieldOrder (start + j) sliceLen → i = j) :
    ∃ bits, applyValue offset sliceLen start len fieldOrder valueOrder (some literal) values
        (List.replicate count .unrestrained) = .ok (true,bits) ∧ bits.length = count ∧
      ∀ index bit, DefinedAt bits index bit ↔
        Asked offset sliceLen start len fieldOrder valueOrder (some literal) values index bit := by
  have fresh : ∀ index bit, ¬DefinedAt (List.replicate count .unrestrained) index bit := by
    intro index bit defined
    unfold DefinedAt at defined
    rw [List.getElem?_replicate] at defined
    split at defined <;> cases defined
  obtain ⟨⟨met,bits⟩,run⟩ := @applyValue_total offset sliceLen start len fieldOrder valueOrder (some literal) values
    (List.replicate count .unrestrained) (by simpa using inside)
  have isMet := @applyValue_met _ _ _ _ _ _ _ (fun _ _ => False) _ apart [] _ _ _ run
    (fun index bit defined => absurd defined (fresh index bit)) (fun _ _ _ _ => False.elim)
  subst isMet
  obtain ⟨length,_,only,all⟩ := applyValue_bits run
  refine ⟨bits,run,by simpa using length,fun index bit => ⟨?_,(all rfl).2 index bit⟩⟩
  intro defined
  exact (only index bit defined).resolve_left (fresh index bit)

end ApplyValue

section Accessors

variable {memory : ContextMemory} {id : Nat}

theorem reverse_bit {x : BitVec width} {bit : Nat} (within : bit < width) :
    x.reverse.getLsbD bit = x.getLsbD (width - 1 - bit) := by
  rw [BitVec.getLsbD_reverse,BitVec.getMsbD_eq_getLsbD]
  simp [within]

theorem ContextMemory.write_bit {value : Word} {context : BitVec memory.width} {bit : Nat} :
    (memory.write id value context).getLsbD bit =
      if (memory.field id).start ≤ bit ∧ bit < (memory.field id).start + (memory.field id).len then
        value.getLsbD ((memory.field id).start + (memory.field id).len - 1 - bit)
      else context.getLsbD bit := by
  have inside := memory.inside id
  have narrow := memory.narrow
  by_cases within : bit < memory.width
  · have small : memory.width - 1 - bit < memory.width := by omega
    have isBit : memory.width - 1 - (memory.width - 1 - bit) = bit := by omega
    unfold write
    rw [reverse_bit within]
    simp only [BitVec.getLsbD_or,BitVec.getLsbD_and,BitVec.getLsbD_not,BitVec.getLsbD_shiftLeft,BitVec.getLsbD_ofNat,
      Nat.testBit_two_pow_sub_one,BitVec.testBit_toNat,reverse_bit small,isBit,small,decide_true,Bool.true_and]
    split
    · rename_i own
      have reaches : ¬memory.width - 1 - bit < memory.width - ((memory.field id).start + (memory.field id).len) := by omega
      have isIndex : memory.width - 1 - bit - (memory.width - ((memory.field id).start + (memory.field id).len)) =
          (memory.field id).start + (memory.field id).len - 1 - bit := by omega
      have isOwn : (memory.field id).start + (memory.field id).len - 1 - bit < (memory.field id).len := by omega
      have inWidth : (memory.field id).start + (memory.field id).len - 1 - bit < memory.width := by omega
      simp [reaches,isIndex,isOwn,inWidth]
    · rename_i other
      by_cases below : memory.width - 1 - bit < memory.width - ((memory.field id).start + (memory.field id).len)
      · simp [below]
      · have above : ¬memory.width - 1 - bit - (memory.width - ((memory.field id).start + (memory.field id).len)) <
          (memory.field id).len := by omega
        simp [above]
  · rw [if_neg (by omega),BitVec.getLsbD_of_ge _ _ (Nat.le_of_not_lt within),
      BitVec.getLsbD_of_ge _ _ (Nat.le_of_not_lt within)]

theorem ContextMemory.raw_write {value : Word} {context : BitVec memory.width} :
    memory.raw id (memory.write id value context) = value.toNat % 2 ^ (memory.field id).len := by
  apply eq_of_bits (Nat.mod_lt _ (Nat.two_pow_pos _)) (Nat.mod_lt _ (Nat.two_pow_pos _))
  intro i less
  have isBit : (memory.field id).len - 1 - i < (memory.field id).len := by omega
  have isIndex : (memory.field id).len - 1 - ((memory.field id).len - 1 - i) = i := by omega
  have isRaw := @ContextMemory.raw_bit memory id _ (memory.write id value context) isBit
  have isValue : (memory.field id).start + (memory.field id).len - 1 -
      ((memory.field id).start + ((memory.field id).len - 1 - i)) = i := by omega
  have own : (memory.field id).start ≤ (memory.field id).start + ((memory.field id).len - 1 - i) ∧
      (memory.field id).start + ((memory.field id).len - 1 - i) < (memory.field id).start + (memory.field id).len := by
    omega
  rw [isIndex,write_bit,if_pos own,isValue] at isRaw
  refine isRaw.trans ?_
  rw [Nat.testBit_mod_two_pow,BitVec.testBit_toNat]
  simp [less]

end Accessors

section Values

variable {field : ContextField}

theorem bmod_fits {value : Int} {bits : Nat} (positive : 0 < bits) (least : -2 ^ (bits - 1) ≤ value)
    (most : value < 2 ^ (bits - 1)) : value.bmod (2 ^ bits) = value := by
  rw [← BitVec.toInt_ofInt]
  exact BitVec.toInt_ofInt_eq_self positive least most

theorem toNat_ofInt_mod {value : Int} {bits : Nat} (narrow : bits ≤ 128) :
    (((BitVec.ofInt 128 value).toNat % 2 ^ bits : Nat) : Int) = value % 2 ^ bits := by
  have divides : (2 ^ bits : Int) ∣ 2 ^ 128 := pow_dvd_pow 2 narrow
  have isNat : ((BitVec.ofInt 128 value).toNat : Int) = value % 2 ^ 128 := by
    rw [BitVec.toNat_ofInt]
    exact Int.toNat_of_nonneg (Int.emod_nonneg _ (by decide))
  rw [Int.natCast_mod,isNat]
  exact Int.emod_emod_of_dvd _ (by simpa using divides)

theorem castSigned_word {value : Int} {bits raw : Nat} (narrow : bits ≤ 128) (positive : 0 < bits)
    (least : -2 ^ (bits - 1) ≤ value) (most : value < 2 ^ (bits - 1)) :
    castSigned bits raw = BitVec.ofInt 128 value ↔ (raw : Int).bmod (2 ^ bits) = value := by
  have wide : (2 : Int) ^ (bits - 1) ≤ 2 ^ (128 - 1) := pow_le_pow_right₀ (by decide) (by omega)
  rw [← BitVec.toInt_inj,castSigned,BitVec.toInt_signExtend_of_le narrow,BitVec.toInt_ofNat',BitVec.toInt_ofInt,
    @bmod_fits value 128 (by decide) (by omega) (by omega)]

-- What the accessor makes of the lowest bits of a value.
theorem ContextField.value_fits (narrow : field.len ≤ 128) (nonempty : 0 < field.len) (value : field.Value) :
    field.value (value.word.toNat % 2 ^ field.len) = value.word ↔
      field.signed = false ∨ 0 ≤ value.value ∨ field.len = intTypeBits field.len := by
  obtain ⟨holds,positive⟩ := intTypeBits_le narrow
  have raw := @toNat_ofInt_mod value.value field.len narrow
  have fits := value.fits
  unfold ContextField.value ContextField.Value.word
  cases isSigned : field.signed with
  | false =>
    simp only [isSigned,Bool.false_eq_true,if_false] at fits ⊢
    rw [Int.emod_eq_of_lt fits.1 fits.2] at raw
    simp only [true_or,iff_true]
    rw [← BitVec.ofInt_natCast,raw]
  | true =>
    simp only [isSigned,if_true] at fits ⊢
    have wide : (2 : Int) ^ (field.len - 1) ≤ 2 ^ (intTypeBits field.len - 1) := pow_le_pow_right₀ (by decide) (by omega)
    rw [castSigned_word (intTypeBits_narrow _) positive (by omega) (by omega),raw]
    simp only [Bool.true_eq_false,false_or]
    by_cases negative : value.value < 0
    · rw [or_iff_right (Int.not_le.mpr negative)]
      by_cases exactly : field.len = intTypeBits field.len
      · rw [← exactly]
        simp only [iff_true]
        have mod := @Int.emod_bmod value.value (2 ^ field.len)
        push_cast at mod
        rw [mod]
        exact bmod_fits nonempty fits.1 fits.2
      · simp only [exactly,iff_false]
        have least : 0 ≤ value.value % 2 ^ field.len := Int.emod_nonneg _ (by positivity)
        have most : value.value % 2 ^ field.len < 2 ^ field.len := Int.emod_lt_of_pos _ (by positivity)
        have room : (2 : Int) ^ field.len ≤ 2 ^ (intTypeBits field.len - 1) :=
          pow_le_pow_right₀ (by decide) (by omega)
        rw [bmod_fits positive (by omega) (by omega)]
        omega
    · have small : value.value < 2 ^ field.len :=
        Int.lt_of_lt_of_le fits.2 (pow_le_pow_right₀ (by decide) (by omega))
      simp only [Int.le_of_not_gt negative,true_or,iff_true]
      rw [Int.emod_eq_of_lt (Int.le_of_not_gt negative) small]
      exact bmod_fits positive (by omega) (by omega)

theorem ContextField.value_inj {raw raw' : Nat} (narrow : field.len ≤ 128) (small : raw < 2 ^ field.len)
    (small' : raw' < 2 ^ field.len) (same : field.value raw = field.value raw') : raw = raw' := by
  apply eq_of_bits small small'
  intro i less
  rw [← value_bit narrow less,same,value_bit narrow less]

end Values

section Agreement

variable {memory : ContextMemory} {id : Nat}

theorem ContextMemory.readsBack_iff (nonempty : 0 < (memory.field id).len) (value : (memory.field id).Value)
    (context : BitVec memory.width) : memory.read id (memory.write id value.word context) = value.word ↔
      (memory.field id).signed = false ∨ 0 ≤ value.value ∨ (memory.field id).len = intTypeBits (memory.field id).len := by
  rw [read,raw_write]
  exact ContextField.value_fits (memory.len_narrow id) nonempty value

-- The constraint asks for the lowest bits of the value.
theorem ContextMemory.constraint_tests (inside : (memory.field id).start + (memory.field id).len ≤ memory.memoryBits)
    (value : Word) : ∃ bits, memory.fieldConstraint id value = .ok (true,bits) ∧
      ∀ context : BitVec memory.width, contextTest bits context = true ↔
        memory.raw id context = value.toNat % 2 ^ (memory.field id).len := by
  obtain ⟨bits,run,_,defines⟩ := @applyValue_fresh 0 memory.memoryBits (memory.field id).start (memory.field id).len
    fieldInLe valueInContext value (List.range (memory.field id).len) memory.memoryBits
    (by intro i member; have := List.mem_range.mp member; unfold fieldInLe; omega)
    (by intro i j _ _ same; unfold fieldInLe at same; omega)
  refine ⟨bits,run,?_⟩
  intro context
  rw [contextTest_iff]
  constructor
  · intro agrees
    apply eq_of_bits (Nat.mod_lt _ (Nat.two_pow_pos _)) (Nat.mod_lt _ (Nat.two_pow_pos _))
    intro i less
    have isBit : (memory.field id).len - 1 - i < (memory.field id).len := by omega
    have isIndex : (memory.field id).len - 1 - ((memory.field id).len - 1 - i) = i := by omega
    have isRaw := @raw_bit memory id _ context isBit
    have asked := agrees _ _ ((defines _ _).mpr ⟨value,rfl,_,List.mem_range.mpr isBit,by omega,rfl,rfl⟩)
    simp only [fieldInLe,valueInContext,Nat.zero_add,isIndex] at asked isRaw
    refine isRaw.trans (asked.trans ?_)
    rw [Nat.testBit_mod_two_pow,BitVec.testBit_toNat]
    simp [less]
  · intro same index bit defined
    obtain ⟨_,isSome,i,member,_,rfl,rfl⟩ := (defines index bit).mp defined
    cases isSome
    have less := List.mem_range.mp member
    have isBit : (memory.field id).len - 1 - i < (memory.field id).len := by omega
    simp only [fieldInLe,valueInContext,Nat.zero_add]
    rw [← raw_bit less,same,Nat.testBit_mod_two_pow,BitVec.testBit_toNat]
    simp [isBit]

-- The accessors agree with the matcher on a value unless it is negative and its type is wider than the field.
theorem accessorsAgree_iff {bits : Nat} (fields : ContextFields bits) (id : Nat) (value : (fields.field id).Value) :
    AccessorsAgree fields id value ↔ bits ≤ 128 ∧
      ((fields.field id).signed = false ∨ 0 ≤ value.value ∨
        (fields.field id).len = intTypeBits (fields.field id).len) := by
  constructor
  · rintro ⟨narrow,agree⟩
    exact ⟨narrow,((fields.memory narrow).readsBack_iff (fields.nonempty id) value 0).mp (agree.readsBack 0)⟩
  · rintro ⟨narrow,fits⟩
    refine ⟨narrow,?_⟩
    have reads := ContextField.value_fits ((fields.memory narrow).len_narrow id) (fields.nonempty id) value |>.mpr fits
    refine ⟨?_,?_,?_⟩
    · intro context
      exact ((fields.memory narrow).readsBack_iff (fields.nonempty id) value context).mpr fits
    · intro context bit outside
      rw [ContextMemory.write_bit,if_neg (by omega)]
    · obtain ⟨constraints,run,tests⟩ := (fields.memory narrow).constraint_tests (fields.inside id) value.word
      refine ⟨constraints,run,?_⟩
      intro context
      rw [tests,← reads]
      exact ⟨congrArg _,ContextField.value_inj ((fields.memory narrow).len_narrow id) (Nat.mod_lt _ (Nat.two_pow_pos _))
        (Nat.mod_lt _ (Nat.two_pow_pos _))⟩

-- A signed field of three bits: the accessor reads 7 after -1 is written.
def signedField : ContextFields 8 where
  field _ := ⟨0,3,true⟩
  nonempty _ := by decide
  inside _ := by decide

def minusOne : (signedField.field 0).Value := ⟨-1,by decide⟩

theorem signedField_disagrees : ¬AccessorsAgree signedField 0 minusOne ∧
    (signedField.memory (by decide)).read 0 ((signedField.memory (by decide)).write 0 minusOne.word 0) = 7 := by
  refine ⟨?_,by decide⟩
  rintro ⟨narrow,agree⟩
  have reads := ((signedField.memory narrow).readsBack_iff (signedField.nonempty 0) minusOne 0).mp (agree.readsBack 0)
  revert reads
  show ¬(true = false ∨ (0 : Int) ≤ -1 ∨ 3 = intTypeBits 3)
  decide

end Agreement

end Rsleigh.Semantic.Variants
