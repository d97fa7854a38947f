import Rsleigh.Semantic.FieldAccess

namespace Rsleigh.Semantic.Variants

open Decode Fallible

inductive Endian where
  | little
  | big
  deriving DecidableEq

-- codegen/builder/token.rs: what a reader is made of.
structure TokenFieldKey where
  tokenBytes : Nat
  tokenEndian : Endian
  start : Nat
  len : Nat
  nonempty : 0 < len
  inside : start + len ≤ 8 * tokenBytes
  small : tokenBytes ≤ 16

-- `WorkType::unsigned_from_bytes`, in bytes.
def typeBytes (bytes : Nat) : Nat :=
  if bytes ≤ 1 then 1 else if bytes ≤ 2 then 2 else if bytes ≤ 4 then 4 else if bytes ≤ 8 then 8 else 16

def bytesFromValue (endian : Endian) (typeBytes valueBytes : Nat) : Nat × Nat :=
  match endian with
  | .little => (0,valueBytes)
  | .big => (typeBytes - 1,typeBytes - 1 - valueBytes)

-- `bytes[range].copy_from_slice(source)`.
def copyFromSlice (bytes : List UInt8) (range : Nat × Nat) (source : List UInt8) : Except Failure (List UInt8) :=
  if range.1 ≤ range.2 ∧ range.2 ≤ bytes.length ∧ range.2 - range.1 = source.length then
    .ok (bytes.take range.1 ++ source ++ bytes.drop range.2)
  else .error .panic

def fromEndianBytes : Endian → List UInt8 → Nat
  | .little, bytes => fromLeBytes bytes
  | .big, bytes => fromLeBytes bytes.reverse

namespace TokenFieldKey

variable (key : TokenFieldKey)

-- A token that has no type of its own length is copied into a wider one.
def tokenValue (token : List UInt8) : Except Failure Nat :=
  if key.tokenBytes ≠ typeBytes key.tokenBytes then do
    let bytes ← copyFromSlice (List.replicate (typeBytes key.tokenBytes) 0)
      (bytesFromValue key.tokenEndian (typeBytes key.tokenBytes) key.tokenBytes) token
    return fromEndianBytes key.tokenEndian bytes
  else .ok (fromEndianBytes key.tokenEndian token)

def read (tokens : List UInt8) : Except Failure Nat :=
  if tokens.length < key.tokenBytes then .error .panic
  else do
    let value ← key.tokenValue (tokens.take key.tokenBytes)
    return value >>> key.start &&& (2 ^ 128 - 1) >>> (128 - key.len)

def fieldOrder : Nat → Nat → Nat :=
  match key.tokenEndian with
  | .little => fieldInLe
  | .big => fieldInBe

-- The constraint `field = value` on the bits of the token.
def fieldConstraint (value : Int) : Except Failure (Bool × List BitConstraint) :=
  applyValue 0 (8 * key.tokenBytes) key.start key.len key.fieldOrder valueInToken (some (BitVec.ofInt 128 value))
    (List.range key.len) (List.replicate (8 * key.tokenBytes) .unrestrained)

-- The bits that the specification names, of the token as a number.
def named (tokens : List UInt8) : Nat :=
  fromEndianBytes key.tokenEndian (tokens.take key.tokenBytes) / 2 ^ key.start % 2 ^ key.len

-- The reader returns what is named, and the masks accept where it is the value.
def ReadsAndTests (value : Int) : Prop :=
  ∀ tokens : List UInt8, key.tokenBytes ≤ tokens.length → key.read tokens = .ok (key.named tokens) ∧
    ∃ bits holds, key.fieldConstraint value = .ok (true,bits) ∧
      tokenConstraint tokens 0 (patternBytes bits) = .ok holds ∧
      (holds = true ↔ ∃ raw : Nat, key.read tokens = .ok raw ∧ (raw : Int) = value)

end TokenFieldKey

section Reader

variable {key : TokenFieldKey} {tokens : List UInt8}

theorem fromLeBytes_zeros (bytes : List UInt8) (count : Nat) :
    fromLeBytes (bytes ++ List.replicate count 0) = fromLeBytes bytes := by
  apply Nat.eq_of_testBit_eq
  intro i
  rw [fromLeBytes_testBit,fromLeBytes_testBit]
  by_cases inside : i / 8 < bytes.length
  · simp [List.getD_eq_getElem?_getD,List.getElem?_append_left inside]
  · have beyond := Nat.le_of_not_lt inside
    simp [List.getD_eq_getElem?_getD,List.getElem?_append_right beyond,List.getElem?_replicate,
      List.getElem?_eq_none beyond]
    split <;> simp

theorem le_typeBytes {bytes : Nat} (small : bytes ≤ 16) : bytes ≤ typeBytes bytes := by
  unfold typeBytes
  repeat' split
  all_goals omega

theorem mask_len {len : Nat} (small : len ≤ 128) : (2 ^ 128 - 1) >>> (128 - len) = 2 ^ len - 1 := by
  apply Nat.eq_of_testBit_eq
  intro i
  rw [Nat.testBit_shiftRight,Nat.testBit_two_pow_sub_one,Nat.testBit_two_pow_sub_one]
  apply decide_eq_decide.mpr
  omega

theorem TokenFieldKey.len_small (key : TokenFieldKey) : key.len ≤ 128 := by
  have inside := key.inside
  have small := key.small
  omega

theorem TokenFieldKey.tokenValue_big {token : List UInt8} (isBig : key.tokenEndian = .big)
    (odd : key.tokenBytes ≠ typeBytes key.tokenBytes) (nonempty : 0 < key.tokenBytes) :
    key.tokenValue token = .error .panic := by
  have least := le_typeBytes key.small
  have backwards : ¬typeBytes key.tokenBytes - 1 ≤ typeBytes key.tokenBytes - 1 - key.tokenBytes := by omega
  simp [tokenValue,odd,isBig,bytesFromValue,copyFromSlice,backwards]

theorem TokenFieldKey.tokenValue_ok {token : List UInt8} (length : token.length = key.tokenBytes)
    (typed : key.tokenEndian = .little ∨ key.tokenBytes = typeBytes key.tokenBytes) :
    key.tokenValue token = .ok (fromEndianBytes key.tokenEndian token) := by
  unfold tokenValue
  split
  · rename_i odd
    have isLittle := typed.resolve_right odd
    have least := le_typeBytes key.small
    simp [isLittle,bytesFromValue,copyFromSlice,length,least,fromEndianBytes,fromLeBytes_zeros]
  · rfl

theorem TokenFieldKey.read_ok (enough : key.tokenBytes ≤ tokens.length)
    (typed : key.tokenEndian = .little ∨ key.tokenBytes = typeBytes key.tokenBytes) :
    key.read tokens = .ok (key.named tokens) := by
  have length : (tokens.take key.tokenBytes).length = key.tokenBytes := by simpa using enough
  unfold read named
  rw [if_neg (Nat.not_lt_of_le enough),tokenValue_ok length typed,mask_len key.len_small]
  simp [Nat.shiftRight_eq_div_pow]

theorem TokenFieldKey.fieldOrder_inj {x y : Nat} (xInside : x < 8 * key.tokenBytes) (yInside : y < 8 * key.tokenBytes)
    (same : key.fieldOrder x (8 * key.tokenBytes) = key.fieldOrder y (8 * key.tokenBytes)) : x = y := by
  unfold fieldOrder at same
  cases isEndian : key.tokenEndian with
  | little =>
    rw [isEndian] at same
    exact same
  | big =>
    rw [isEndian] at same
    exact fieldInBe_inj xInside yInside same

theorem TokenFieldKey.fieldOrder_inside {x : Nat} (inside : x < 8 * key.tokenBytes) :
    key.fieldOrder x (8 * key.tokenBytes) < 8 * key.tokenBytes := by
  unfold fieldOrder
  cases key.tokenEndian with
  | little => exact inside
  | big =>
    simp only [fieldInBe]
    omega

theorem TokenFieldKey.token_bit {i : Nat} (enough : key.tokenBytes ≤ tokens.length) (inside : i < 8 * key.tokenBytes) :
    (fromEndianBytes key.tokenEndian (tokens.take key.tokenBytes)).testBit i =
      (tokens.getD (key.fieldOrder i (8 * key.tokenBytes) / 8) 0).toNat.testBit
        (key.fieldOrder i (8 * key.tokenBytes) % 8) := by
  have length : (tokens.take key.tokenBytes).length = key.tokenBytes := by simpa using enough
  unfold fromEndianBytes fieldOrder
  cases key.tokenEndian with
  | little =>
    have isByte : i / 8 < key.tokenBytes := by omega
    simp [fromLeBytes_testBit,fieldInLe,List.getD_eq_getElem?_getD,List.getElem?_take_of_lt isByte]
  | big =>
    have isByte : i / 8 < (tokens.take key.tokenBytes).length := by omega
    have place : fieldInBe i (8 * key.tokenBytes) / 8 = key.tokenBytes - 1 - i / 8 := by
      unfold fieldInBe
      omega
    have index : fieldInBe i (8 * key.tokenBytes) % 8 = i % 8 := by
      unfold fieldInBe
      omega
    have before : key.tokenBytes - 1 - i / 8 < key.tokenBytes := by omega
    simp only [fromLeBytes_testBit,place,index,List.getD_eq_getElem?_getD,List.getElem?_reverse isByte,length,
      List.getElem?_take_of_lt before]

theorem TokenFieldKey.named_bit {i : Nat} (enough : key.tokenBytes ≤ tokens.length) (less : i < key.len) :
    (key.named tokens).testBit i =
      (tokens.getD (key.fieldOrder (key.start + i) (8 * key.tokenBytes) / 8) 0).toNat.testBit
        (key.fieldOrder (key.start + i) (8 * key.tokenBytes) % 8) := by
  have inside := key.inside
  rw [← token_bit enough (by omega),named,Nat.testBit_mod_two_pow,Nat.testBit_div_two_pow,Nat.add_comm i]
  simp [less]

end Reader

section Tests

variable {key : TokenFieldKey}

-- The masks accept where the lowest bits of the value are named.
theorem TokenFieldKey.constraint_tests (key : TokenFieldKey) (value : Int) :
    ∃ bits, key.fieldConstraint value = .ok (true,bits) ∧ bits.length = 8 * key.tokenBytes ∧
      ∀ tokens : List UInt8, key.tokenBytes ≤ tokens.length →
        ∃ holds, tokenConstraint tokens 0 (patternBytes bits) = .ok holds ∧
          (holds = true ↔ (key.named tokens : Int) = value % 2 ^ key.len) := by
  have inside := key.inside
  obtain ⟨bits,run,length,defines⟩ := @applyValue_fresh 0 (8 * key.tokenBytes) key.start key.len key.fieldOrder
    valueInToken (BitVec.ofInt 128 value) (List.range key.len) (8 * key.tokenBytes)
    (by
      intro i member
      have less := List.mem_range.mp member
      have within : key.start + i < 8 * key.tokenBytes := by omega
      exact ⟨within,by simpa using key.fieldOrder_inside within⟩)
    (by
      intro i j inside inside' same
      exact Nat.add_left_cancel (key.fieldOrder_inj inside inside' same))
  refine ⟨bits,run,length,?_⟩
  intro tokens enough
  obtain ⟨holds,tested,accepts⟩ := @ConstraintBits.applies_iff tokens 0 ⟨[],bits⟩ 0 (by simp only [length]; omega)
  refine ⟨holds,by simpa [ConstraintBits.applies,maskOf,valueOf] using tested,accepts.trans ?_⟩
  rw [← toNat_ofInt_mod key.len_small,Nat.cast_inj]
  constructor
  · intro all
    apply eq_of_bits (Nat.mod_lt _ (Nat.two_pow_pos _)) (Nat.mod_lt _ (Nat.two_pow_pos _))
    intro i less
    have asked := all (.token _) _ ((defines _ _).mpr ⟨_,rfl,i,List.mem_range.mpr less,by omega,rfl,rfl⟩)
    simp only [inputBit,Nat.zero_add,valueInToken] at asked
    refine (named_bit enough less).trans (asked.trans ?_)
    rw [Nat.testBit_mod_two_pow,BitVec.testBit_toNat]
    simp [less]
  · intro same place bit defined
    cases place with
    | context index => cases defined
    | token index =>
      obtain ⟨_,isSome,i,member,_,rfl,rfl⟩ := (defines index bit).mp defined
      cases isSome
      have less := List.mem_range.mp member
      have isBit := named_bit enough less
      simp only [inputBit,Nat.zero_add,valueInToken]
      rw [← isBit,same,Nat.testBit_mod_two_pow,BitVec.testBit_toNat]
      simp [less]

theorem tokens_accepted (bits : List BitConstraint) :
    tokenConstraint ((patternBytes bits).map fun byte => UInt8.ofNat byte.2) 0 (patternBytes bits) = .ok true := by
  obtain ⟨holds,tested,accepts⟩ := @tokenConstraint_ok ((patternBytes bits).map fun byte => UInt8.ofNat byte.2)
    (patternBytes bits) 0 (by simp)
  have all : holds = true := by
    apply accepts.mpr
    intro j mask value found _
    have inside : j < (bits.length + 7) / 8 := by
      have within := (List.getElem?_eq_some_iff.mp found).1
      simpa [patternBytes] using within
    have isOwn := patternBytes_get inside
    rw [found] at isOwn
    cases isOwn
    have small := (@patternByte_small bits j).2
    have isValue : (UInt8.ofNat (valueOf ((bits.drop (8 * j)).take 8))).toNat = valueOf ((bits.drop (8 * j)).take 8) := by
      simpa using Nat.mod_eq_of_lt small
    simp only [Nat.zero_add,List.getD_eq_getElem?_getD,List.getElem?_map,found,Option.map_some,Option.getD_some,isValue]
    apply (masked_iff _).mpr
    intro index bit defined
    cases bit with
    | true => exact (valueOf_testBit index).mpr defined
    | false =>
      apply Bool.eq_false_iff.mpr
      intro isTrue
      exact absurd (definedAt_unique ((valueOf_testBit index).mp isTrue) defined) (by decide)
  rw [tested,all]

theorem TokenFieldKey.typed_iff (key : TokenFieldKey) :
    key.tokenBytes = typeBytes key.tokenBytes ↔ key.tokenBytes ∈ [1,2,4,8,16] := by
  have inside := key.inside
  have nonempty := key.nonempty
  have small := key.small
  simp only [List.mem_cons,List.not_mem_nil,or_false]
  unfold typeBytes
  repeat' split
  all_goals omega

-- Readers and masks do what the specification says on the values of the field, unless the token is big endian and has
-- no type of its length.
theorem TokenFieldKey.readsAndTests_iff (key : TokenFieldKey) (value : Int) :
    key.ReadsAndTests value ↔
      (key.tokenEndian = .little ∨ key.tokenBytes ∈ [1,2,4,8,16]) ∧ 0 ≤ value ∧ value < 2 ^ key.len := by
  obtain ⟨bits,run,length,tests⟩ := key.constraint_tests value
  have small (tokens : List UInt8) : (key.named tokens : Int) < 2 ^ key.len := by
    have less : key.named tokens < 2 ^ key.len := Nat.mod_lt _ (Nat.two_pow_pos _)
    exact_mod_cast less
  rw [← key.typed_iff]
  constructor
  · intro holds
    refine ⟨?_,?_⟩
    · by_cases typed : key.tokenBytes = typeBytes key.tokenBytes
      · exact Or.inr typed
      · cases isEndian : key.tokenEndian with
        | little => exact Or.inl rfl
        | big =>
          have inside := key.inside
          have nonempty := key.nonempty
          have reads := (holds (List.replicate key.tokenBytes 0) (by simp)).1
          rw [read,tokenValue_big isEndian typed (by omega)] at reads
          simp at reads
    · have enough : key.tokenBytes ≤ ((patternBytes bits).map fun byte => UInt8.ofNat byte.2).length := by
        simp only [List.length_map,patternBytes,List.length_range,length]
        omega
      obtain ⟨reads,own,accepts,isOwn,tested,iff⟩ := holds _ enough
      rw [run] at isOwn
      cases isOwn
      rw [tokens_accepted] at tested
      cases tested
      obtain ⟨raw,isRaw,rfl⟩ := iff.mp rfl
      rw [reads] at isRaw
      cases isRaw
      exact ⟨Int.natCast_nonneg _,small _⟩
  · rintro ⟨typed,least,most⟩ tokens enough
    have reads := read_ok enough typed
    obtain ⟨accepts,tested,iff⟩ := tests tokens enough
    refine ⟨reads,bits,accepts,run,tested,iff.trans ?_⟩
    rw [Int.emod_eq_of_lt least most,reads]
    simp

theorem first_nonempty : 0 < 8 := by decide

theorem first_inside : 0 + 8 ≤ 8 * 3 := by decide

theorem three_small : 3 ≤ 16 := by decide

-- A big endian token of three bytes.
def threeBytes : TokenFieldKey := ⟨3,.big,0,8,first_nonempty,first_inside,three_small⟩

theorem threeBytes_panics : threeBytes.read [1,2,3] = .error .panic ∧ threeBytes.named [1,2,3] = 3 ∧
    ¬threeBytes.ReadsAndTests 3 := by
  refine ⟨by decide,by decide,?_⟩
  intro holds
  have reads := (holds [1,2,3] (by decide)).1
  revert reads
  decide

end Tests

end Rsleigh.Semantic.Variants
