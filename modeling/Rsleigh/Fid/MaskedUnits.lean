import Rsleigh.Fid.Displacement

namespace Rsleigh.Fid

theorem mips_kept (word : BitVec 32) (isField : field = 0x03FFFFFF#32 ∨ field = 0x0000FFFF#32) :
    mipsBits word &&& field = kept .mips32 word &&& field := by
  unfold mipsBits kept
  dsimp only
  rcases isField with rfl | rfl
  · split
    · rfl
    · split
      · rfl
      · rfl
  · split
    · rfl
    · split
      · rfl
      · rfl

theorem mips_low (word : BitVec 32) : mipsBits word &&& 0xFC#32 = 0xFC#32 ∧ kept .mips32 word &&& 0xFC#32 = 0xFC#32 := by
  unfold mipsBits kept
  dsimp only
  split
  · exact ⟨rfl,rfl⟩
  · split
    · exact ⟨rfl,rfl⟩
    · exact ⟨rfl,rfl⟩

theorem mipsBits_low {word other : BitVec 32} (same : word &&& 0xFC#32 = other &&& 0xFC#32) : mipsBits word = mipsBits other := by
  unfold mipsBits
  rw [same]

theorem mips_agrees {word other : BitVec 32} (isEncoding : encoding ∈ mipsEncodings)
    (same : word &&& ~~~encoding.displacement = other &&& ~~~encoding.displacement) :
    swap word &&& mipsMask (swap word) = swap other &&& mipsMask (swap other) ↔
      word &&& kept .mips32 word = other &&& kept .mips32 word := by
  have isField : encoding.displacement = 0x03FFFFFF#32 ∨ encoding.displacement = 0x0000FFFF#32 := by
    simp only [mipsEncodings,List.mem_cons,List.not_mem_nil,or_false] at isEncoding
    rcases isEncoding with rfl | rfl | rfl | rfl | rfl | rfl
    · exact .inl rfl
    all_goals exact .inr rfl
  have low {one two : BitVec 32} (isOne : one &&& 0xFC#32 = 0xFC#32) (isTwo : two &&& 0xFC#32 = 0xFC#32)
      (equal : word &&& one = other &&& two) : word &&& 0xFC#32 = other &&& 0xFC#32 := by
    have under := congrArg (· &&& 0xFC#32) equal
    rwa [BitVec.and_assoc,BitVec.and_assoc,isOne,isTwo] at under
  have iff_ := and_eq_iff same _ (mips_kept word isField)
  rw [mipsMask_swap,mipsMask_swap,← swap_and,← swap_and]
  constructor
  · intro equal
    have equal := congrArg swap equal
    rw [swap_swap,swap_swap] at equal
    rw [← mipsBits_low (low (mips_low word).1 (mips_low other).1 equal)] at equal
    exact iff_.mp equal
  · intro equal
    rw [← mipsBits_low (low (mips_low word).2 (mips_low word).2 equal)]
    exact congrArg swap (iff_.mpr equal)

theorem compressed_agrees (isEncoding : (mask, code, displacement) ∈ compressedEncodings)
    (same : word &&& ~~~displacement = other &&& ~~~displacement) : word &&& 0xE003#16 = other &&& 0xE003#16 := by
  simp only [compressedEncodings,List.mem_cons,List.not_mem_nil,or_false] at isEncoding
  rcases isEncoding with isIt | isIt
  · cases isIt
    exact (and_eq_iff same 0#16 (by decide)).mpr (by rw [BitVec.and_zero,BitVec.and_zero])
  · cases isIt
    exact (and_eq_iff same 0#16 (by decide)).mpr (by rw [BitVec.and_zero,BitVec.and_zero])

theorem opcodeIndex_append {prefixes rest : List UInt8} (arePrefixes : ∀ byte ∈ prefixes, isPrefixByte byte = true)
    (isOther : rest.head?.all (fun byte => !isPrefixByte byte) = true) : opcodeIndex (prefixes ++ rest) = prefixes.length := by
  unfold opcodeIndex
  rw [List.takeWhile_append_of_pos arePrefixes,List.length_append]
  cases rest with
  | nil => rfl
  | cons byte rest =>
    have notPrefix : ¬ isPrefixByte byte = true := by simpa using isOther
    rw [List.takeWhile_cons_of_neg notPrefix]
    rfl

theorem every_byte {P : UInt8 → Bool} (each : ∀ n : Fin 256, P (UInt8.ofNat n) = true) (byte : UInt8) : P byte = true := by
  have isByte := each ⟨byte.toNat,byte.toNat_lt⟩
  rwa [UInt8.ofNat_toNat] at isByte

theorem relative_first (byte : UInt8) (isRelative : relativeOpcode [byte] = true) :
    isPrefixByte byte = false ∧ byte ≠ 0x0F := by
  have each := @every_byte (fun byte => !relativeOpcode [byte] || !isPrefixByte byte && byte != 0x0F) (by decide +kernel) byte
  simpa [isRelative] using each

theorem relative_second (byte : UInt8) (isRelative : relativeOpcode [0x0F, byte] = true) : byte ≠ 0x38 ∧ byte ≠ 0x3A := by
  have each := @every_byte (fun byte => !relativeOpcode [0x0F, byte] || byte != 0x38 && byte != 0x3A) (by decide +kernel) byte
  simpa [isRelative] using each

theorem relative_cases {opcode : List UInt8} (isRelative : relativeOpcode opcode = true) :
    (∃ byte, opcode = [byte]) ∨ ∃ byte, opcode = [0x0F, byte] := by
  unfold relativeOpcode at isRelative
  split at isRelative
  · exact .inl ⟨_,rfl⟩
  · exact .inr ⟨_,rfl⟩
  · cases isRelative

theorem opcodeEnd_relative {prefixes opcode tail : List UInt8} (arePrefixes : ∀ byte ∈ prefixes, isPrefixByte byte = true)
    (isRelative : relativeOpcode opcode = true) :
    opcodeEnd (prefixes ++ (opcode ++ tail)) = (prefixes ++ opcode).length := by
  rcases relative_cases isRelative with ⟨byte,rfl⟩ | ⟨byte,rfl⟩
  · obtain ⟨notPrefix,notEscape⟩ := relative_first byte isRelative
    have isIndex := @opcodeIndex_append prefixes (byte :: tail) arePrefixes (by simp [notPrefix])
    simp [opcodeEnd,isIndex,notEscape]
  · obtain ⟨not38,not3A⟩ := relative_second byte isRelative
    have isIndex := @opcodeIndex_append prefixes (0x0F :: byte :: tail) arePrefixes rfl
    simp [opcodeEnd,isIndex,not38,not3A]

theorem x86_agrees {start one other : List UInt8} (isEnd : opcodeEnd (start ++ one) = start.length)
    (isEnd' : opcodeEnd (start ++ other) = start.length) (sameLength : one.length = other.length) :
    maskX86 (start ++ one).length (start ++ one) = maskX86 (start ++ other).length (start ++ other) ↔
      one.take 2 = other.take 2 := by
  have masked {tail : List UInt8} (isEnd : opcodeEnd (start ++ tail) = start.length) :
      maskX86 (start ++ tail).length (start ++ tail) = some (start ++ (tail.take 2 ++ List.replicate (tail.length - 2) 0)) := by
    unfold maskX86
    rw [Nat.min_self,List.take_length]
    dsimp only
    rw [isEnd,List.length_append,Nat.add_sub_cancel_left,if_neg (by omega)]
    have isTake : tail.take (min 2 tail.length) = tail.take 2 := by rw [List.take_eq_take_iff]; omega
    have isRest : start.length + tail.length - (start.length + min 2 tail.length) = tail.length - 2 := by omega
    rw [List.take_append,List.take_of_length_le (by omega),Nat.add_sub_cancel_left,isTake,isRest,List.append_assoc]
  rw [masked isEnd,masked isEnd',Option.some_inj,List.append_cancel_left_eq,sameLength]
  exact Iff.of_eq (List.append_cancel_right_eq ..)

def maskUnit (arch : Architecture) (raw : List UInt8) : Option (List UInt8) := maskInstruction arch raw.length raw

theorem riscv_first {first second third fourth : UInt8} {encoding : Encoding}
    (isEncoding : encoding ∈ riscvEncodings)
    (isWord : fromLeBytes first second third fourth &&& encoding.mask = encoding.code) : first &&& 0x3 = 0x3 := by
  have isLow : fromLeBytes first second third fourth &&& 0x3#32 = 0x3#32 := by
    simp only [riscvEncodings,List.mem_cons,List.not_mem_nil,or_false] at isEncoding
    rcases isEncoding with rfl | rfl | rfl
    all_goals
      rw [encoding_bits 0x3#32 (by decide) isWord]
      rfl
  have isByte : (fromLeBytes first second third fourth).setWidth 8 = first.toBitVec := by
    apply BitVec.eq_of_getLsbD_eq
    intro i inside
    unfold fromLeBytes
    rw [BitVec.getLsbD_setWidth,append_bit _ _ _ _ i (by omega),if_pos inside,decide_eq_true inside,Bool.true_and]
  have narrow := congrArg (BitVec.setWidth 8) isLow
  rw [BitVec.setWidth_and,isByte] at narrow
  exact UInt8.toBitVec_inj.mp narrow

theorem riscv_apart {encoding : Encoding} (isEncoding : encoding ∈ riscvEncodings) : encoding.mask &&& encoding.displacement = 0#32 := by
  simp only [riscvEncodings,List.mem_cons,List.not_mem_nil,or_false] at isEncoding
  rcases isEncoding with rfl | rfl | rfl
  all_goals rfl

theorem riscv_masked {first second third fourth : UInt8} {rest : List UInt8} (isFirst : first &&& 0x3 = 0x3) :
    maskUnit .riscV64 (first :: second :: third :: fourth :: rest) =
      some (toLeBytes (fromLeBytes first second third fourth &&& riscvMask (fromLeBytes first second third fourth))) := by
  unfold maskUnit maskInstruction maskRiscv
  have isWide : (4 ≤ (first :: second :: third :: fourth :: rest).length &&
      (first :: second :: third :: fourth :: rest).head?.any fun byte => byte &&& 0x3 = 0x3) = true := by
    rw [List.head?_cons,Option.any_some,decide_eq_true isFirst,Bool.and_true]
    exact decide_eq_true (Nat.le_add_left 4 _)
  dsimp only
  rw [if_pos isWide]
  rfl

theorem mask_agrees (sameBut : SameBut arch raw raw') : maskUnit arch raw = maskUnit arch raw' ↔ Agrees arch raw raw' := by
  cases sameBut with
  | same =>
    refine iff_of_true rfl ?_
    unfold Agrees
    split
    · rfl
    · rfl
    · split
      · rfl
      · trivial
  | @relative prefixes opcode one other isX86 arePrefixes isRelative sameLength =>
    have isEnd := @opcodeEnd_relative prefixes opcode one arePrefixes isRelative
    have isEnd' := @opcodeEnd_relative prefixes opcode other arePrefixes isRelative
    rw [← List.append_assoc] at isEnd isEnd'
    have agrees := x86_agrees isEnd isEnd' sameLength
    have isAgrees : Agrees arch (prefixes ++ opcode ++ one) (prefixes ++ opcode ++ other) ↔ one.take 2 = other.take 2 := by
      unfold Agrees
      rcases isX86 with rfl | rfl
      · dsimp only
        rw [isEnd,List.drop_left,List.drop_left]
      · dsimp only
        rw [isEnd,List.drop_left,List.drop_left]
    rw [← List.append_assoc,← List.append_assoc,isAgrees]
    rcases isX86 with rfl | rfl
    · exact agrees
    · exact agrees
  | @word first second third fourth first' second' third' fourth' rest encoding isEncoding isOne sameRest =>
    cases arch with
    | x86_64 => cases isEncoding
    | x86_32 => cases isEncoding
    | aarch64 =>
      change some (toLeBytes _) = some (toLeBytes _) ↔ _
      rw [Option.some_inj,toLeBytes_inj]
      exact aarch64_agrees isEncoding isOne sameRest
    | arm32 =>
      change some (toLeBytes _) = some (toLeBytes _) ↔ _
      rw [Option.some_inj,toLeBytes_inj]
      exact arm32_agrees isEncoding isOne sameRest
    | mips32 =>
      change some (toLeBytes _) = some (toLeBytes _) ↔ _
      rw [Option.some_inj,toLeBytes_inj]
      have isWord {a b c d : UInt8} : instructionWord .mips32 a b c d = fromLeBytes d c b a := if_pos rfl
      rw [isWord,isWord] at sameRest
      have agrees := mips_agrees isEncoding sameRest
      rw [swap_bytes,swap_bytes] at agrees
      refine agrees.trans (Iff.of_eq ?_)
      unfold Agrees
      dsimp only
      rw [isWord,isWord]
    | riscV64 =>
      have isWord : fromLeBytes first second third fourth &&& encoding.mask = encoding.code := of_decide_eq_true isOne
      have isOther : fromLeBytes first' second' third' fourth' &&& encoding.mask = encoding.code :=
        encoding_other (riscv_apart isEncoding) isWord sameRest
      rw [riscv_masked (riscv_first isEncoding isWord),riscv_masked (riscv_first isEncoding isOther),Option.some_inj,toLeBytes_inj]
      refine iff_of_true (riscv_agrees isEncoding isOne sameRest) ?_
      change _ &&& 0#32 = _ &&& 0#32
      rw [BitVec.and_zero,BitVec.and_zero]
  | @compressed first second first' second' mask code displacement isRiscv isEncoding isOne sameRest =>
    subst isRiscv
    refine iff_of_true ?_ trivial
    have agrees : (second.toBitVec ++ first.toBitVec : BitVec 16) &&& 0xE003#16 =
        (second'.toBitVec ++ first'.toBitVec : BitVec 16) &&& 0xE003#16 := compressed_agrees isEncoding sameRest
    change some _ = some _
    unfold maskRiscv
    rw [if_neg (by simp),if_neg (by simp)]
    dsimp only
    rw [agrees]

end Rsleigh.Fid
