import Rsleigh.Fid.Mask

namespace Rsleigh.Fid

-- Where the instructions whose operand is an address have it.
structure Encoding where
  mask : BitVec 32
  code : BitVec 32
  displacement : BitVec 32

def Encoding.is (encoding : Encoding) (word : BitVec 32) : Bool := word &&& encoding.mask = encoding.code

-- B and BL, B.cond, CBZ and CBNZ, TBZ and TBNZ, ADR and ADRP.
def aarch64Encodings : List Encoding :=
  [⟨0x7C000000#32, 0x14000000#32, 0x03FFFFFF#32⟩, ⟨0xFF000000#32, 0x54000000#32, 0x00FFFFE0#32⟩,
    ⟨0x7E000000#32, 0x34000000#32, 0x00FFFFE0#32⟩, ⟨0x7E000000#32, 0x36000000#32, 0x0007FFE0#32⟩,
    ⟨0x1F000000#32, 0x10000000#32, 0x60FFFFE0#32⟩]

-- B and BL.
def arm32Encodings : List Encoding := [⟨0x0E000000#32, 0x0A000000#32, 0x00FFFFFF#32⟩]

-- J and JAL, the branches on registers and their likely forms, those of REGIMM, and those on a coprocessor's flag.
def mipsEncodings : List Encoding :=
  [⟨0xF8000000#32, 0x08000000#32, 0x03FFFFFF#32⟩, ⟨0xF0000000#32, 0x10000000#32, 0x0000FFFF#32⟩,
    ⟨0xF0000000#32, 0x50000000#32, 0x0000FFFF#32⟩, ⟨0xFC0C0000#32, 0x04000000#32, 0x0000FFFF#32⟩,
    ⟨0xFFE00000#32, 0x45000000#32, 0x0000FFFF#32⟩, ⟨0xFFE00000#32, 0x49000000#32, 0x0000FFFF#32⟩]

-- JAL, the branches, and AUIPC.
def riscvEncodings : List Encoding :=
  [⟨0x0000007F#32, 0x0000006F#32, 0xFFFFF000#32⟩, ⟨0x0000007F#32, 0x00000063#32, 0xFE000F80#32⟩,
    ⟨0x0000007F#32, 0x00000017#32, 0xFFFFF000#32⟩]

def encodings : Architecture → List Encoding
  | .x86_64 | .x86_32 => []
  | .aarch64 => aarch64Encodings
  | .arm32 => arm32Encodings
  | .mips32 => mipsEncodings
  | .riscV64 => riscvEncodings

-- MIPS32 is big-endian.
def instructionWord (arch : Architecture) (first second third fourth : UInt8) : BitVec 32 :=
  if arch = .mips32 then fromLeBytes fourth third second first else fromLeBytes first second third fourth

def compressedWord (first second : UInt8) : BitVec 16 := second.toBitVec ++ first.toBitVec

-- C.J, and C.BEQZ and C.BNEZ.
def compressedEncodings : List (BitVec 16 × BitVec 16 × BitVec 16) :=
  [(0xE003#16, 0xA001#16, 0x1FFC#16), (0xC003#16, 0xC001#16, 0x1C7C#16)]

-- Jcc, LOOPcc and JCXZ, CALL, JMP, and the near Jcc.
def relativeOpcode : List UInt8 → Bool
  | [opcode] => 0x70 ≤ opcode && opcode ≤ 0x7F || 0xE0 ≤ opcode && opcode ≤ 0xE3 || opcode ∈ [0xE8, 0xE9, 0xEB]
  | [0x0F, opcode] => 0x80 ≤ opcode && opcode ≤ 0x8F
  | _ => false

-- The same instruction, but for its displacement.
inductive SameBut (arch : Architecture) : List UInt8 → List UInt8 → Prop where
  | same (raw : List UInt8) : SameBut arch raw raw
  | relative {prefixes opcode one other : List UInt8} (isX86 : arch = .x86_64 ∨ arch = .x86_32)
      (arePrefixes : ∀ byte ∈ prefixes, isPrefixByte byte = true) (isRelative : relativeOpcode opcode = true)
      (sameLength : one.length = other.length) :
      SameBut arch (prefixes ++ (opcode ++ one)) (prefixes ++ (opcode ++ other))
  | word {first second third fourth first' second' third' fourth' : UInt8} {rest : List UInt8} {encoding : Encoding}
      (isEncoding : encoding ∈ encodings arch)
      (isOne : encoding.is (instructionWord arch first second third fourth) = true)
      (sameRest : instructionWord arch first second third fourth &&& ~~~encoding.displacement =
        instructionWord arch first' second' third' fourth' &&& ~~~encoding.displacement) :
      SameBut arch (first :: second :: third :: fourth :: rest) (first' :: second' :: third' :: fourth' :: rest)
  | compressed {first second first' second' : UInt8} {mask code displacement : BitVec 16} (isRiscv : arch = .riscV64)
      (isEncoding : (mask, code, displacement) ∈ compressedEncodings)
      (isOne : compressedWord first second &&& mask = code)
      (sameRest : compressedWord first second &&& ~~~displacement = compressedWord first' second' &&& ~~~displacement) :
      SameBut arch [first, second] [first', second']

-- The bits of the displacement that the masks keep. On MIPS32 they are told by the low byte, since the word is taken
-- the wrong way round.
def kept (arch : Architecture) (word : BitVec 32) : BitVec 32 :=
  match arch with
  | .x86_64 | .x86_32 | .riscV64 => 0#32
  | .aarch64 => if word &&& 0x1F000000#32 = 0x10000000#32 then 0x60800000#32 else 0#32
  | .arm32 => if word &&& 0x0E000000#32 = 0x0A000000#32 then 0x00F00000#32 else 0#32
  | .mips32 =>
    0x000000FC#32 |||
      if word &&& 0xFC#32 = 0x00#32 ∨ word &&& 0xFC#32 = 0x70#32 then 0x03000000#32
      else if word &&& 0xFC#32 = 0x04#32 then 0x00001F00#32
      else 0#32

-- The displacements agree where the masks keep them: on x86 the two bytes behind the opcode.
def Agrees (arch : Architecture) (raw raw' : List UInt8) : Prop :=
  match arch with
  | .x86_64 | .x86_32 => (raw.drop (opcodeEnd raw)).take 2 = (raw'.drop (opcodeEnd raw)).take 2
  | arch =>
    match raw, raw' with
    | first :: second :: third :: fourth :: _, first' :: second' :: third' :: fourth' :: _ =>
      let word := instructionWord arch first second third fourth
      word &&& kept arch word = instructionWord arch first' second' third' fourth' &&& kept arch word
    | _, _ => True

section Words

variable {word other field mask : BitVec w}

theorem and_eq_iff (same : word &&& ~~~field = other &&& ~~~field) (bits : BitVec w) (isKept : mask &&& field = bits &&& field) :
    word &&& mask = other &&& mask ↔ word &&& bits = other &&& bits := by
  have each : ∀ {one two : BitVec w}, one &&& field = two &&& field → word &&& one = other &&& one →
      word &&& two = other &&& two := by
    intro one two isField isOne
    ext i inside
    have atField := congrArg (fun bits => bits[i]) isField
    have atOne := congrArg (fun bits => bits[i]) isOne
    have atSame := congrArg (fun bits => bits[i]) same
    simp only [BitVec.getElem_and,BitVec.getElem_not] at atField atOne atSame ⊢
    cases isInside : field[i] with
    | true =>
      rw [isInside,Bool.and_true,Bool.and_true] at atField
      rw [← atField]
      exact atOne
    | false =>
      rw [isInside,Bool.not_false,Bool.and_true,Bool.and_true] at atSame
      rw [atSame]
  exact ⟨each isKept,each isKept.symm⟩

theorem encoding_bits {encoding : BitVec w} (mask : BitVec w) (narrow : encoding &&& mask = mask) (isWord : word &&& encoding = code) :
    word &&& mask = code &&& mask := by
  rw [← isWord,BitVec.and_assoc,narrow]

end Words

theorem toLeBytes_inj {one other : BitVec 32} : toLeBytes one = toLeBytes other ↔ one = other := by
  refine ⟨fun same => ?_,congrArg toLeBytes⟩
  unfold toLeBytes at same
  simp only [List.cons.injEq,UInt8.ofBitVec.injEq,and_true] at same
  obtain ⟨first,second,third,fourth⟩ := same
  ext i inside
  have bit (start : Nat) (fits : start ≤ i ∧ i < start + 8) (bytes : one.extractLsb' start 8 = other.extractLsb' start 8) :
      one[i] = other[i] := by
    have atBit := congrArg (fun bits => bits.getLsbD (i - start)) bytes
    simp only [BitVec.getLsbD_extractLsb'] at atBit
    rw [decide_eq_true (by omega : i - start < 8),Bool.true_and,Bool.true_and,Nat.add_sub_cancel' fits.1] at atBit
    simpa only [BitVec.getLsbD_eq_getElem inside] using atBit
  by_cases isFirst : i < 8
  · exact bit 0 ⟨Nat.zero_le _,isFirst⟩ (by simpa using first)
  · by_cases isSecond : i < 16
    · exact bit 8 ⟨by omega,isSecond⟩ (by simpa using second)
    · by_cases isThird : i < 24
      · exact bit 16 ⟨by omega,isThird⟩ (by simpa using third)
      · exact bit 24 ⟨by omega,by omega⟩ (by simpa using fourth)

theorem and_one (x : BitVec 32) : x &&& 1#32 = 0#32 ∨ x &&& 1#32 = 1#32 := by
  have isMod : (x &&& 1#32).toNat = x.toNat % 2 := by
    rw [BitVec.toNat_and]
    exact Nat.and_one_is_mod x.toNat
  rcases Nat.mod_two_eq_zero_or_one x.toNat with isZero | isOne
  · exact .inl (BitVec.eq_of_toNat_eq (isMod.trans isZero))
  · exact .inr (BitVec.eq_of_toNat_eq (isMod.trans isOne))

theorem shift_and (w mask : BitVec 32) (n : Nat) (isBits : w &&& mask = bits) :
    (w >>> n) &&& (mask >>> n) = bits >>> n := by
  rw [← BitVec.ushiftRight_and_distrib,isBits]

theorem aarch64Mask_branch (w : BitVec 32) (isBranch : w &&& 0x1C000000#32 = 0x14000000#32) : aarch64Mask w = 0xFC000000#32 := by
  have high : (w >>> 25) &&& 0xE#32 = 0xA#32 := shift_and w 0x1C000000#32 25 isBranch
  have split : (w >>> 25) &&& 0xF#32 = 0xA#32 ||| ((w >>> 25) &&& 1#32) := by
    rw [← high,← BitVec.and_or_distrib_left]
    rfl
  unfold aarch64Mask
  rcases and_one (w >>> 25) with isZero | isOne
  · rw [split,isZero]
    rfl
  · rw [split,isOne]
    rfl

theorem aarch64Mask_adr (w : BitVec 32) (isAdr : w &&& 0x1F000000#32 = 0x10000000#32) : aarch64Mask w = 0xFF800000#32 := by
  have isTop : w &&& 0x1E000000#32 = 0x10000000#32 := by
    rw [encoding_bits 0x1E000000#32 (by decide) isAdr]
    rfl
  have top : (w >>> 25) &&& 0xF#32 = 0x8#32 := shift_and w 0x1E000000#32 25 isTop
  unfold aarch64Mask
  rw [top]
  rfl

theorem encoding_other {word other : BitVec w} {mask code displacement : BitVec w} (apart : mask &&& displacement = 0#w)
    (isOne : word &&& mask = code) (same : word &&& ~~~displacement = other &&& ~~~displacement) : other &&& mask = code := by
  have under := (and_eq_iff same 0#w (by rw [apart,BitVec.zero_and])).mpr (by rw [BitVec.and_zero,BitVec.and_zero])
  rw [← under]
  exact isOne

theorem aarch64_branch {word other displacement : BitVec 32} (isOne : word &&& 0x1C000000#32 = 0x14000000#32)
    (isOther : other &&& 0x1C000000#32 = 0x14000000#32) (inside : 0xFC000000#32 &&& displacement = 0#32)
    (same : word &&& ~~~displacement = other &&& ~~~displacement) :
    word &&& aarch64Mask word = other &&& aarch64Mask other ↔ word &&& kept .aarch64 word = other &&& kept .aarch64 word := by
  have notAdr : ¬ word &&& 0x1F000000#32 = 0x10000000#32 := by
    intro isAdr
    have isBits := encoding_bits 0x1C000000#32 (by decide) isAdr
    rw [isOne] at isBits
    exact absurd isBits (by decide)
  unfold kept
  dsimp only
  rw [if_neg notAdr,aarch64Mask_branch word isOne,aarch64Mask_branch other isOther]
  exact and_eq_iff same _ (by rw [inside,BitVec.zero_and])

theorem aarch64_agrees {word other : BitVec 32} (isEncoding : encoding ∈ aarch64Encodings) (isOne : encoding.is word = true)
    (same : word &&& ~~~encoding.displacement = other &&& ~~~encoding.displacement) :
    word &&& aarch64Mask word = other &&& aarch64Mask other ↔ word &&& kept .aarch64 word = other &&& kept .aarch64 word := by
  have isOne : word &&& encoding.mask = encoding.code := of_decide_eq_true isOne
  simp only [aarch64Encodings,List.mem_cons,List.not_mem_nil,or_false] at isEncoding
  rcases isEncoding with rfl | rfl | rfl | rfl | rfl
  · have isOther := encoding_other (by decide) isOne same
    exact aarch64_branch (encoding_bits _ (by decide) isOne) (encoding_bits _ (by decide) isOther) (by decide) same
  · have isOther := encoding_other (by decide) isOne same
    exact aarch64_branch (encoding_bits _ (by decide) isOne) (encoding_bits _ (by decide) isOther) (by decide) same
  · have isOther := encoding_other (by decide) isOne same
    exact aarch64_branch (encoding_bits _ (by decide) isOne) (encoding_bits _ (by decide) isOther) (by decide) same
  · have isOther := encoding_other (by decide) isOne same
    exact aarch64_branch (encoding_bits _ (by decide) isOne) (encoding_bits _ (by decide) isOther) (by decide) same
  · have isOther := encoding_other (by decide) isOne same
    unfold kept
    dsimp only
    rw [if_pos isOne,aarch64Mask_adr word isOne,aarch64Mask_adr other isOther]
    exact and_eq_iff same _ (by decide)

theorem arm32_agrees {word other : BitVec 32} (isEncoding : encoding ∈ arm32Encodings) (isOne : encoding.is word = true)
    (same : word &&& ~~~encoding.displacement = other &&& ~~~encoding.displacement) :
    word &&& arm32Mask word = other &&& arm32Mask other ↔ word &&& kept .arm32 word = other &&& kept .arm32 word := by
  have isOne : word &&& encoding.mask = encoding.code := of_decide_eq_true isOne
  obtain rfl := List.mem_singleton.mp isEncoding
  unfold kept arm32Mask
  dsimp only
  rw [if_pos isOne]
  exact and_eq_iff same _ (by decide)

theorem riscv_agrees {word other : BitVec 32} (isEncoding : encoding ∈ riscvEncodings) (isOne : encoding.is word = true)
    (same : word &&& ~~~encoding.displacement = other &&& ~~~encoding.displacement) :
    word &&& riscvMask word = other &&& riscvMask other := by
  have isOne : word &&& encoding.mask = encoding.code := of_decide_eq_true isOne
  simp only [riscvEncodings,List.mem_cons,List.not_mem_nil,or_false] at isEncoding
  rcases isEncoding with rfl | rfl | rfl
  · have isOther := encoding_other (by decide) isOne same
    have isMask : riscvMask word = 0x7F#32 := by
      unfold riscvMask
      rw [isOne]
      rfl
    have isMask' : riscvMask other = 0x7F#32 := by
      unfold riscvMask
      rw [isOther]
      rfl
    rw [isMask,isMask',isOne,isOther]
  · have isOther := encoding_other (by decide) isOne same
    have isMask : riscvMask word = 0x707F#32 := by
      unfold riscvMask
      rw [isOne]
      rfl
    have isMask' : riscvMask other = 0x707F#32 := by
      unfold riscvMask
      rw [isOther]
      rfl
    rw [isMask,isMask']
    exact (and_eq_iff same 0#32 (by decide)).mpr (by rw [BitVec.and_zero,BitVec.and_zero])
  · have isOther := encoding_other (by decide) isOne same
    have isMask : riscvMask word = 0x7F#32 := by
      unfold riscvMask
      rw [isOne]
      rfl
    have isMask' : riscvMask other = 0x7F#32 := by
      unfold riscvMask
      rw [isOther]
      rfl
    rw [isMask,isMask',isOne,isOther]

-- The word the other way round.
def swap (w : BitVec 32) : BitVec 32 :=
  w.extractLsb' 0 8 ++ w.extractLsb' 8 8 ++ w.extractLsb' 16 8 ++ w.extractLsb' 24 8

theorem append_bit (first second third fourth : BitVec 8) (i : Nat) (inside : i < 32) :
    (first ++ second ++ third ++ fourth).getLsbD i =
      if i < 8 then fourth.getLsbD i else if i < 16 then third.getLsbD (i - 8)
      else if i < 24 then second.getLsbD (i - 16) else first.getLsbD (i - 24) := by
  rw [BitVec.getLsbD_append,BitVec.getLsbD_append,BitVec.getLsbD_append,Nat.sub_sub,Nat.sub_sub]
  by_cases isFirst : i < 8
  · rw [if_pos isFirst,if_pos isFirst]
  · rw [if_neg isFirst,if_neg isFirst]
    by_cases isSecond : i < 16
    · rw [if_pos (by omega),if_pos isSecond]
    · rw [if_neg (by omega),if_neg isSecond]
      by_cases isThird : i < 24
      · rw [if_pos (by omega),if_pos isThird]
      · rw [if_neg (by omega),if_neg isThird]

theorem swap_bit (w : BitVec 32) (i : Nat) (inside : i < 32) : (swap w).getLsbD i = w.getLsbD (24 - 8 * (i / 8) + i % 8) := by
  unfold swap
  rw [append_bit _ _ _ _ i inside]
  simp only [BitVec.getLsbD_extractLsb']
  by_cases isFirst : i < 8
  · rw [if_pos isFirst,decide_eq_true isFirst,Bool.true_and]
    congr 1
    omega
  · rw [if_neg isFirst]
    by_cases isSecond : i < 16
    · rw [if_pos isSecond,decide_eq_true (by omega),Bool.true_and]
      congr 1
      omega
    · rw [if_neg isSecond]
      by_cases isThird : i < 24
      · rw [if_pos isThird,decide_eq_true (by omega),Bool.true_and]
        congr 1
        omega
      · rw [if_neg isThird,decide_eq_true (by omega),Bool.true_and]
        congr 1
        omega

theorem swap_and (one other : BitVec 32) : swap (one &&& other) = swap one &&& swap other := by
  apply BitVec.eq_of_getLsbD_eq
  intro i inside
  rw [BitVec.getLsbD_and,swap_bit _ i inside,swap_bit _ i inside,swap_bit _ i inside,BitVec.getLsbD_and]

theorem swap_swap (w : BitVec 32) : swap (swap w) = w := by
  apply BitVec.eq_of_getLsbD_eq
  intro i inside
  rw [swap_bit _ i inside,swap_bit _ _ (by omega)]
  congr 1
  omega

theorem swap_bytes (first second third fourth : UInt8) :
    swap (fromLeBytes fourth third second first) = fromLeBytes first second third fourth := by
  unfold fromLeBytes
  apply BitVec.eq_of_getLsbD_eq
  intro i inside
  rw [swap_bit _ i inside,append_bit _ _ _ _ _ (by omega),append_bit _ _ _ _ i inside]
  by_cases isFirst : i < 8
  · rw [if_pos isFirst,if_neg (by omega),if_neg (by omega),if_neg (by omega)]
    congr 1
    omega
  · rw [if_neg isFirst]
    by_cases isSecond : i < 16
    · rw [if_pos isSecond,if_neg (by omega),if_neg (by omega),if_pos (by omega)]
      congr 1
      omega
    · rw [if_neg isSecond]
      by_cases isThird : i < 24
      · rw [if_pos isThird,if_neg (by omega),if_pos (by omega)]
        congr 1
        omega
      · rw [if_neg isThird,if_pos (by omega)]
        congr 1
        omega

-- The masks of the word as it stands in memory.
def mipsBits (word : BitVec 32) : BitVec 32 :=
  if word &&& 0xFC#32 = 0x00#32 ∨ word &&& 0xFC#32 = 0x70#32 then 0x3F0000FC#32
  else if word &&& 0xFC#32 = 0x04#32 then 0x00001FFC#32
  else 0x000000FC#32

theorem swap_op (word : BitVec 32) : (swap word >>> 26) &&& 0x3F#32 = (word &&& 0xFC#32) >>> 2 := by
  apply BitVec.eq_of_getLsbD_eq
  intro i inside
  rw [BitVec.getLsbD_and,BitVec.getLsbD_ushiftRight,BitVec.getLsbD_ushiftRight,BitVec.getLsbD_and]
  have isMask : (0x3F#32).getLsbD i = decide (i < 6) := by
    revert inside
    exact fun inside => (by decide : ∀ i < 32, (0x3F#32).getLsbD i = decide (i < 6)) i inside
  have isMask' : (0xFC#32).getLsbD (2 + i) = decide (i < 6) := by
    exact (by decide : ∀ i < 32, (0xFC#32).getLsbD (2 + i) = decide (i < 6)) i inside
  rw [isMask,isMask']
  by_cases low : i < 6
  · rw [swap_bit _ _ (by omega)]
    congr 2
    omega
  · rw [decide_eq_false low,Bool.and_false,Bool.and_false]

theorem shifted_eq {word bits : BitVec 32} (isBits : bits &&& 0xFC#32 = bits) : (word &&& 0xFC#32) >>> 2 = bits >>> 2 ↔ word &&& 0xFC#32 = bits := by
  refine ⟨fun same => ?_,fun same => by rw [same]⟩
  rw [← isBits]
  apply BitVec.eq_of_getLsbD_eq
  intro i inside
  rw [BitVec.getLsbD_and,BitVec.getLsbD_and]
  by_cases low : i < 2
  · have isMask : (0xFC#32).getLsbD i = false := (by decide : ∀ i < 2, (0xFC#32).getLsbD i = false) i low
    rw [isMask,Bool.and_false,Bool.and_false]
  · have atBit := congrArg (fun word => word.getLsbD (i - 2)) same
    simp only [BitVec.getLsbD_ushiftRight] at atBit
    rw [Nat.add_sub_cancel' (by omega)] at atBit
    rw [← isBits,BitVec.getLsbD_and,BitVec.getLsbD_and] at atBit
    exact atBit

theorem mipsMask_swap (word : BitVec 32) : mipsMask (swap word) = swap (mipsBits word) := by
  unfold mipsMask mipsBits
  rw [swap_op]
  have zero := @shifted_eq word 0x00#32 (by decide)
  have special := @shifted_eq word 0x70#32 (by decide)
  have regimm := @shifted_eq word 0x04#32 (by decide)
  rw [show (0x00#32 : BitVec 32) >>> 2 = 0x00#32 from rfl] at zero
  rw [show (0x70#32 : BitVec 32) >>> 2 = 0x1C#32 from rfl] at special
  rw [show (0x04#32 : BitVec 32) >>> 2 = 0x01#32 from rfl] at regimm
  simp only [List.mem_cons,List.not_mem_nil,or_false,zero,special,regimm]
  split
  · rfl
  · split
    · rfl
    · rfl

end Rsleigh.Fid
