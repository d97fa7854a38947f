import Mathlib.Data.List.Basic

namespace Rsleigh.Utf8

def encode (chars : List Char) : List UInt8 := chars.flatMap String.utf8EncodeChar

-- The character at the start.
def decodeChar (bytes : List UInt8) : Option Char := bytes.toByteArray.utf8DecodeChar? 0

def continuation (byte : UInt8) : Bool := 0x80 ≤ byte && byte ≤ 0xBF

-- A second byte that can follow the first one of three or four.
def secondFits (first second : UInt8) : Bool :=
  first = 0xE0 && 0xA0 ≤ second && second ≤ 0xBF ||
  0xE1 ≤ first && first ≤ 0xEC && continuation second ||
  first = 0xED && 0x80 ≤ second && second ≤ 0x9F ||
  0xEE ≤ first && first ≤ 0xEF && continuation second ||
  first = 0xF0 && 0x90 ≤ second && second ≤ 0xBF ||
  0xF1 ≤ first && first ≤ 0xF3 && continuation second ||
  first = 0xF4 && 0x80 ≤ second && second ≤ 0x8F

-- The bytes without a character that one replacement stands for: as many as could begin one, and one at least.
def maximalPart : List UInt8 → Nat
  | first :: second :: rest =>
    if secondFits first second then
      if 0xF0 ≤ first && rest.head?.any continuation then 3 else 2
    else 1
  | _ => 1

def replacement : Char := Char.ofNat 0xFFFD

def lossyWithin : Nat → List UInt8 → List Char
  | 0, _ => []
  | fuel + 1, bytes =>
    if bytes = [] then []
    else
      match decodeChar bytes with
      | some c => c :: lossyWithin fuel (bytes.drop (String.utf8EncodeChar c).length)
      | none => replacement :: lossyWithin fuel (bytes.drop (maximalPart bytes))

def decodeLossy (bytes : List UInt8) : List Char := lossyWithin bytes.length bytes

theorem decodeChar_encode (c : Char) (rest : List UInt8) : decodeChar (String.utf8EncodeChar c ++ rest) = some c := by
  unfold decodeChar
  rw [List.toByteArray_append]
  exact ByteArray.utf8DecodeChar?_utf8EncodeChar_append

theorem decodeChar_some {bytes : List UInt8} {c : Char} (isChar : decodeChar bytes = some c) :
    ∃ rest, bytes = String.utf8EncodeChar c ++ rest := by
  obtain ⟨rest,split⟩ := ByteArray.exists_of_utf8DecodeChar?_eq_some isChar
  refine ⟨rest.data.toList,?_⟩
  have same := congrArg (fun bytes => bytes.data.toList) split
  simpa only [ByteArray.data_append,Array.toList_append,List.toList_data_toByteArray] using same

theorem encodeChar_pos (c : Char) : 0 < (String.utf8EncodeChar c).length := List.length_pos_iff.mpr String.utf8EncodeChar_ne_nil

theorem encode_cons (c : Char) (chars : List Char) : encode (c :: chars) = String.utf8EncodeChar c ++ encode chars := List.flatMap_cons

theorem maximalPart_pos (bytes : List UInt8) : 0 < maximalPart bytes := by
  unfold maximalPart
  split
  · split
    · split <;> decide
    · decide
  · decide

theorem lossy_char (c : Char) (rest : List UInt8) (fuel : Nat) :
    lossyWithin (fuel + 1) (String.utf8EncodeChar c ++ rest) = c :: lossyWithin fuel rest := by
  rw [lossyWithin,if_neg (List.append_ne_nil_of_left_ne_nil String.utf8EncodeChar_ne_nil _),decodeChar_encode]
  dsimp only
  rw [List.drop_left]

theorem lossy_encode (chars : List Char) (fuel : Nat) (enough : chars.length ≤ fuel) : lossyWithin fuel (encode chars) = chars := by
  induction chars generalizing fuel with
  | nil =>
    cases fuel with
    | zero => rfl
    | succ fuel => rfl
  | cons c chars ih =>
    obtain ⟨fuel,rfl⟩ := Nat.exists_eq_add_one.mpr (Nat.lt_of_lt_of_le (Nat.succ_pos _) enough)
    rw [encode_cons,lossy_char,ih fuel (Nat.le_of_succ_le_succ enough)]

theorem length_encode (chars : List Char) : chars.length ≤ (encode chars).length := by
  induction chars with
  | nil => exact Nat.le_refl _
  | cons c chars ih =>
    have some_ := encodeChar_pos c
    rw [encode_cons,List.length_append,List.length_cons]
    omega

theorem decodeLossy_encode (chars : List Char) : decodeLossy (encode chars) = chars :=
  lossy_encode chars _ (length_encode chars)

theorem decodeChar_part (c : Char) (n j : Nat) (short : n < (String.utf8EncodeChar c).length) :
    decodeChar (((String.utf8EncodeChar c).take n).drop j) = none := by
  cases isChar : decodeChar (((String.utf8EncodeChar c).take n).drop j) with
  | none => rfl
  | some d =>
    obtain ⟨rest,split⟩ := decodeChar_some isChar
    have fits := congrArg List.length split
    rw [List.length_drop,List.length_take,List.length_append] at fits
    have some_ := encodeChar_pos d
    cases j with
    | zero =>
      rw [List.drop_zero] at split
      have whole := List.take_append_drop n (String.utf8EncodeChar c)
      rw [split,List.append_assoc] at whole
      have one := decodeChar_encode c []
      rw [List.append_nil,← whole,decodeChar_encode] at one
      cases one
      omega
    | succ j =>
      have inside : j + 1 < (String.utf8EncodeChar c).length := by omega
      have notFirst : ¬ ((String.utf8EncodeChar c)[j + 1]).IsUTF8FirstByte :=
        fun isFirst => Nat.succ_ne_zero j (UInt8.isUTF8FirstByte_getElem_utf8EncodeChar.mp isFirst)
      have isFirst := @UInt8.isUTF8FirstByte_getElem_zero_utf8EncodeChar d
      have same : some (String.utf8EncodeChar c)[j + 1] = some (String.utf8EncodeChar d)[0] := by
        have atFirst := congrArg (fun bytes => bytes[0]?) split
        rw [List.getElem?_drop,Nat.add_zero,List.getElem?_take_of_lt (by omega),List.getElem?_eq_getElem inside] at atFirst
        rw [List.getElem?_append_left some_,List.getElem?_eq_getElem some_] at atFirst
        exact atFirst
      rw [Option.some_inj.mp same] at notFirst
      exact absurd isFirst notFirst

theorem lossy_part (c : Char) (n : Nat) (short : n < (String.utf8EncodeChar c).length) : ∀ (fuel j : Nat),
    ∃ count ≤ n - j, lossyWithin fuel (((String.utf8EncodeChar c).take n).drop j) = List.replicate count replacement := by
  intro fuel
  induction fuel with
  | zero => exact fun j => ⟨0,Nat.zero_le _,rfl⟩
  | succ fuel ih =>
    intro j
    rw [lossyWithin]
    split
    · exact ⟨0,Nat.zero_le _,rfl⟩
    · rename_i more
      have fits : j < n := by
        refine Nat.lt_of_not_le fun beyond => more (List.drop_eq_nil_of_le ?_)
        rw [List.length_take]
        omega
      have isPart := maximalPart_pos (((String.utf8EncodeChar c).take n).drop j)
      rw [decodeChar_part c n j short]
      dsimp only
      rw [List.drop_drop]
      obtain ⟨count,few,isRest⟩ := ih (j + maximalPart (((String.utf8EncodeChar c).take n).drop j))
      rw [isRest]
      exact ⟨count + 1,by omega,rfl⟩

theorem length_encode_replacement (count : Nat) : (encode (List.replicate count replacement)).length = 3 * count := by
  induction count with
  | zero => rfl
  | succ count ih =>
    rw [List.replicate_succ,encode_cons,List.length_append,ih]
    have three : (String.utf8EncodeChar replacement).length = 3 := by decide
    omega

theorem lossy_take (chars : List Char) : ∀ (n fuel : Nat), lossyWithin fuel ((encode chars).take n) = chars →
    (encode chars).length ≤ n + 6 := by
  induction chars with
  | nil => exact fun n _ _ => Nat.zero_le _
  | cons c chars ih =>
    intro n fuel same
    rw [encode_cons] at same
    cases fuel with
    | zero => cases same
    | succ fuel =>
      by_cases short : n < (String.utf8EncodeChar c).length
      · rw [List.take_append_of_le_length (Nat.le_of_lt short)] at same
        obtain ⟨count,few,isCut⟩ := lossy_part c n short (fuel + 1) 0
        rw [List.drop_zero,same] at isCut
        rw [isCut,length_encode_replacement]
        have most := Char.utf8Size_le_four c
        rw [← String.length_utf8EncodeChar] at most
        omega
      · rw [List.take_append,List.take_of_length_le (Nat.not_lt.mp short),lossy_char] at same
        have rest := ih (n - (String.utf8EncodeChar c).length) fuel (List.cons.inj same).2
        rw [encode_cons,List.length_append]
        omega

theorem decodeLossy_take {chars : List Char} {n : Nat} (same : decodeLossy ((encode chars).take n) = chars) :
    (encode chars).length ≤ n + 6 := lossy_take chars n _ same

end Rsleigh.Utf8
