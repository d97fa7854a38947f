import Rsleigh.Decompile.Lsda

namespace Rsleigh.Decompile.Lsda

open Parsing

-- A table as a compiler lays it out.

-- A byte that names an encoding, with what is applied to the number in its upper half.
structure Encoding where
  enc : UInt8
  format : Format
  isFormat : Format.ofCode (enc &&& 0x0F) = some format

abbrev Number (format : Format) := {field : Field // format.Holds field}

def Number.bytes (number : Number format) : List UInt8 := format.bytes number.val

def Number.long (number : Number format) : Bool := format.long number.val

def Number.word (number : Number format) : BitVec 64 := Lsda.word number.val.value

structure LpStart where
  encoding : Encoding
  number : Number encoding.format

structure TType where
  enc : UInt8
  present : enc ≠ dwEhPeOmit
  offset : Number .uleb128

structure Record (format : Format) where
  start : Number format
  length : Number format
  landingPad : Number format
  action : Number .uleb128

def Record.bytes (record : Record format) : List UInt8 :=
  record.start.bytes ++ (record.length.bytes ++ (record.landingPad.bytes ++ record.action.bytes))

def Record.long (record : Record format) : Bool :=
  record.start.long || record.length.long || record.landingPad.long || record.action.long

def Record.Wanted (record : Record format) : Prop :=
  record.length.val.value ≠ 0 ∧ record.landingPad.val.value ≠ 0

instance (record : Record format) : Decidable record.Wanted := instDecidableAnd

def Record.region (record : Record format) (funcStart lpStart : BitVec 64) : TryRegion :=
  ⟨funcStart + record.start.word, funcStart + record.start.word + record.length.word, lpStart + record.landingPad.word⟩

structure Table where
  lpStart : Option LpStart
  ttype : Option TType
  callSites : Encoding
  records : List (Record callSites.format)
  length : Number .uleb128
  isLength : length.val.value = (records.flatMap Record.bytes).length

def Table.header (table : Table) : List UInt8 :=
  (match table.lpStart with
    | none => [dwEhPeOmit]
    | some lpStart => lpStart.encoding.enc :: lpStart.number.bytes) ++
  ((match table.ttype with
    | none => [dwEhPeOmit]
    | some ttype => ttype.enc :: ttype.offset.bytes) ++
  table.callSites.enc :: table.length.bytes)

def Table.bytes (table : Table) : List UInt8 := table.header ++ table.records.flatMap Record.bytes

def Table.lpStartValue (table : Table) (funcStart : BitVec 64) : BitVec 64 :=
  match table.lpStart with
  | none => funcStart
  | some lpStart => applied lpStart.encoding.enc funcStart lpStart.number.word

def Table.regions (table : Table) (funcStart : BitVec 64) : List TryRegion :=
  (table.records.filter (·.Wanted)).map fun record => record.region funcStart (table.lpStartValue funcStart)

def Table.headerLong (table : Table) : Bool :=
  table.lpStart.any (·.number.long) || table.ttype.any (·.offset.long) || table.length.long

-- The records from the first number of too many bytes on.
def Table.unread (table : Table) : List (Record table.callSites.format) :=
  if table.headerLong then table.records else table.records.dropWhile (!·.long)

theorem readEncoded_bytes (encoding : Encoding) (number : Number encoding.format) (base : BitVec 64) (rest : List UInt8) :
    readEncoded encoding.enc base (number.bytes ++ rest) =
      if number.long then none else some (applied encoding.enc base number.word,rest) := by
  rw [readEncoded,encoding.isFormat]
  cases isLong : number.long with
  | true =>
    have refused := Format.read_long encoding.format number.val isLong rest
    unfold Number.bytes
    dsimp only
    rw [refused]
    rfl
  | false =>
    have taken := Format.read_bytes encoding.format number.val number.property isLong rest
    unfold Number.bytes
    dsimp only
    rw [taken]
    rfl

theorem readUleb_bytes (number : Number .uleb128) (rest : List UInt8) :
    readUleb (number.bytes ++ rest) = if number.long then none else some (number.word,rest) := by
  cases isLong : number.long with
  | true => exact Format.read_long .uleb128 number.val isLong rest
  | false => exact Format.read_bytes .uleb128 number.val number.property isLong rest

theorem applied_zero (enc : UInt8) (value : BitVec 64) : applied enc 0#64 value = value := by
  unfold applied
  split
  · exact BitVec.add_zero value
  · rfl

def Record.site (record : Record format) : CallSite :=
  ⟨record.start.word, record.length.word, record.landingPad.word, record.action.word⟩

theorem readCallSite_bytes (encoding : Encoding) (record : Record encoding.format) (rest : List UInt8) :
    readCallSite encoding.enc (record.bytes ++ rest) = if record.long then none else some (record.site,rest) := by
  unfold readCallSite Record.bytes Record.long
  simp only [List.append_assoc,readEncoded_bytes,applied_zero]
  cases record.start.long with
  | true => rfl
  | false =>
    cases isLength : record.length.long with
    | true => simp [readEncoded_bytes,isLength]
    | false =>
      cases isPad : record.landingPad.long with
      | true => simp [readEncoded_bytes,isLength,isPad]
      | false =>
        cases isAction : record.action.long with
        | true => simp [readEncoded_bytes,readUleb_bytes,isLength,isPad,isAction]
        | false => simp [readEncoded_bytes,readUleb_bytes,isLength,isPad,isAction,applied_zero,Record.site]

theorem Record.bytes_ne_nil (record : Record format) : record.bytes ≠ [] :=
  List.append_ne_nil_of_left_ne_nil (Format.bytes_ne_nil format record.start.val) _

theorem dwEhPeOmit_none : Format.ofCode (dwEhPeOmit &&& 0x0F) = none := by
  rfl

theorem Encoding.present (encoding : Encoding) : encoding.enc ≠ dwEhPeOmit := by
  intro same
  have isFormat := encoding.isFormat
  rw [same,dwEhPeOmit_none] at isFormat
  cases isFormat

theorem readLpStart_bytes (table : Table) (funcStart : BitVec 64) (rest : List UInt8) :
    readLpStart funcStart ((match table.lpStart with
      | none => [dwEhPeOmit]
      | some lpStart => lpStart.encoding.enc :: lpStart.number.bytes) ++ rest) =
      if table.lpStart.any (·.number.long) then none else some (table.lpStartValue funcStart,rest) := by
  unfold Table.lpStartValue
  cases table.lpStart with
  | none => rfl
  | some lpStart =>
    have taken := readEncoded_bytes lpStart.encoding lpStart.number funcStart rest
    simp [readLpStart,readByte,lpStart.encoding.present,taken]

theorem skipTtype_bytes (table : Table) (rest : List UInt8) :
    skipTtype ((match table.ttype with
      | none => [dwEhPeOmit]
      | some ttype => ttype.enc :: ttype.offset.bytes) ++ rest) =
      if table.ttype.any (·.offset.long) then none else some ((),rest) := by
  cases table.ttype with
  | none => rfl
  | some ttype =>
    have taken := readUleb_bytes ttype.offset rest
    simp [skipTtype,readByte,ttype.present,taken]
    split <;> rfl

theorem readHeader_bytes (table : Table) (funcStart : BitVec 64) (rest : List UInt8) :
    readHeader funcStart (table.header ++ rest) =
      if table.headerLong then none
      else some (⟨table.lpStartValue funcStart, table.callSites.enc, table.length.word⟩,rest) := by
  unfold readHeader Table.header Table.headerLong
  rw [List.append_assoc,List.append_assoc,List.cons_append,readLpStart_bytes]
  cases table.lpStart.any (·.number.long) with
  | true => rfl
  | false =>
    simp only [Bool.false_eq_true,if_false,Option.bind_eq_bind,Option.bind_some,skipTtype_bytes,Bool.false_or]
    cases table.ttype.any (·.offset.long) with
    | true => rfl
    | false => cases isLong : table.length.long <;> simp [readByte,readUleb_bytes,isLong]

theorem scan_records (encoding : Encoding) (records : List (Record encoding.format)) (more : List UInt8) (fuel : Nat)
    (enough : records.length ≤ fuel) :
    (scanTo (readCallSite encoding.enc) more.length fuel (records.flatMap Record.bytes ++ more)).map (·.1) =
      (records.takeWhile (!·.long)).map Record.site := by
  induction records generalizing fuel with
  | nil =>
    cases fuel with
    | zero => rfl
    | succ fuel =>
      rw [scanTo,if_pos (by simp)]
      rfl
  | cons record records ih =>
    obtain ⟨fuel,rfl⟩ := Nat.exists_eq_add_one.mpr (Nat.lt_of_lt_of_le (Nat.succ_pos _) enough)
    have some_ := List.length_pos_iff.mpr record.bytes_ne_nil
    rw [List.flatMap_cons,List.append_assoc,scanTo,if_neg (by simp only [List.length_append]; omega),readCallSite_bytes]
    rw [List.takeWhile_cons]
    cases record.long with
    | true => rfl
    | false =>
      change record.site :: _ = record.site :: _
      exact congrArg _ (ih fuel (Nat.le_of_succ_le_succ enough))

theorem word_eq_zero (format : Format) (field : Field) (holds : format.Holds field) : word field.value = 0#64 ↔ field.value = 0 := by
  refine ⟨fun isZero => ?_,fun isZero => isZero ▸ rfl⟩
  have zero : field.value % 2 ^ 64 = 0 := by
    have isNat := congrArg BitVec.toNat isZero
    unfold word at isNat
    rw [BitVec.toNat_ofInt] at isNat
    have nonneg := Int.emod_nonneg field.value (by decide : ((2 ^ 64 : Nat) : Int) ≠ 0)
    change (field.value % ((2 ^ 64 : Nat) : Int)).toNat = 0 at isNat
    push_cast at isNat nonneg
    omega
  have bounds : -2 ^ 63 ≤ field.value ∧ field.value < 2 ^ 64 := by
    cases format with
    | absptr | uleb128 | udata2 | udata4 | udata8 =>
      obtain ⟨⟨least,most⟩,_⟩ := holds
      simp only [Format.size] at most
      omega
    | sleb128 | sdata2 | sdata4 | sdata8 =>
      obtain ⟨⟨least,most⟩,_⟩ := holds
      simp only [Format.size] at least most
      omega
  omega

theorem region_site (record : Record format) (funcStart lpStart : BitVec 64) :
    region funcStart lpStart record.site = if record.Wanted then some (record.region funcStart lpStart) else none := by
  have isLength : record.site.length = 0#64 ↔ record.length.val.value = 0 :=
    word_eq_zero format record.length.val record.length.property
  have isPad : record.site.landingPad = 0#64 ↔ record.landingPad.val.value = 0 :=
    word_eq_zero format record.landingPad.val record.landingPad.property
  unfold region
  by_cases noLength : record.length.val.value = 0
  · rw [if_pos (isLength.mpr noLength),if_neg fun wanted : record.Wanted => wanted.1 noLength]
  · rw [if_neg (noLength ∘ isLength.mp)]
    by_cases noPad : record.landingPad.val.value = 0
    · rw [if_pos (isPad.mpr noPad),if_neg fun wanted : record.Wanted => wanted.2 noPad]
    · have wanted : record.Wanted := ⟨noLength,noPad⟩
      rw [if_neg (noPad ∘ isPad.mp),if_pos wanted]
      rfl

theorem filterMap_sites (records : List (Record format)) (funcStart lpStart : BitVec 64) :
    (records.map Record.site).filterMap (region funcStart lpStart) =
      (records.filter (·.Wanted)).map fun record => record.region funcStart lpStart := by
  induction records with
  | nil => rfl
  | cons record records ih =>
    rw [List.map_cons,List.filterMap_cons,region_site,List.filter_cons]
    by_cases wanted : record.Wanted
    · rw [if_pos wanted,if_pos (decide_eq_true wanted),List.map_cons,ih]
    · rw [if_neg wanted,if_neg (by rw [decide_eq_false wanted]; exact Bool.false_ne_true),ih]

theorem Table.length_word (table : Table) : table.length.word.toNat = (table.records.flatMap Record.bytes).length := by
  have isLength := table.isLength
  have most : table.length.val.value < 2 ^ 64 := table.length.property.1.2
  unfold Number.word word
  rw [BitVec.toNat_ofInt,isLength]
  omega

theorem records_length (records : List (Record format)) : records.length ≤ (records.flatMap Record.bytes).length := by
  induction records with
  | nil => exact Nat.le_refl _
  | cons record records ih =>
    have some_ := List.length_pos_iff.mpr record.bytes_ne_nil
    rw [List.flatMap_cons,List.length_append,List.length_cons]
    omega

theorem parseLsda_table (table : Table) (funcStart : BitVec 64) (more : List UInt8)
    (fits : (table.bytes ++ more).length < 2 ^ 63) :
    parseLsda (table.bytes ++ more) funcStart =
      if table.headerLong then some []
      else some (((table.records.takeWhile (!·.long)).filter (·.Wanted)).map fun record =>
        record.region funcStart (table.lpStartValue funcStart)) := by
  unfold parseLsda callSites Table.bytes
  unfold Table.bytes at fits
  rw [List.append_assoc] at fits ⊢
  rw [readHeader_bytes]
  cases table.headerLong with
  | true => rfl
  | false =>
    have isLength := table.length_word
    rw [if_neg Bool.false_ne_true,if_neg Bool.false_ne_true]
    dsimp only
    rw [isLength]
    simp only [List.length_append] at fits ⊢
    rw [if_neg (by omega),if_neg (by omega)]
    rw [show (table.records.flatMap Record.bytes).length + more.length - (table.records.flatMap Record.bytes).length
      = more.length by omega]
    rw [Option.map_some]
    have scanned := scan_records table.callSites table.records more
      ((table.records.flatMap Record.bytes).length + more.length) (by have := records_length table.records; omega)
    rw [← filterMap_sites,← scanned,List.filterMap_map]
    rfl

theorem parseLsda_regions_iff (table : Table) (funcStart : BitVec 64) (more : List UInt8)
    (fits : (table.bytes ++ more).length < 2 ^ 63) :
    parseLsda (table.bytes ++ more) funcStart = some (table.regions funcStart) ↔
      ∀ record ∈ table.unread, ¬ record.Wanted := by
  rw [parseLsda_table table funcStart more fits]
  unfold Table.regions Table.unread
  cases table.headerLong with
  | true =>
    rw [if_pos rfl,if_pos rfl,Option.some_inj,eq_comm,List.map_eq_nil_iff,List.filter_eq_nil_iff]
    simp
  | false =>
    rw [if_neg Bool.false_ne_true,if_neg Bool.false_ne_true,Option.some_inj]
    have split := congrArg (List.filter (·.Wanted)) (List.takeWhile_append_dropWhile (p := (!·.long)) (l := table.records))
    rw [List.filter_append] at split
    rw [← split,List.map_append,eq_comm,List.append_right_eq_self,List.map_eq_nil_iff,List.filter_eq_nil_iff]
    simp

-- The end of the table does not overflow, and no record that is read goes beyond it.
def Safe (data : List UInt8) (funcStart : BitVec 64) : Prop :=
  ∃ sites lpStart, callSites data funcStart = some (sites, lpStart) ∧
    ∀ header rest, readHeader funcStart data = some (header, rest) →
      ∀ site ∈ sites, rest.length - header.csLen.toNat ≤ site.2

-- What is left of the table's own bytes behind its records is not completed to a record by the bytes behind the table.
def Closed (header : Header) (rest : List UInt8) : Prop :=
  let table := rest.take header.csLen.toNat
  let left := leftover (readCallSite header.csEnc) rest.length table
  left = [] ∨ readCallSite header.csEnc (left ++ rest.drop header.csLen.toNat) = none

def Sound (data : List UInt8) (funcStart : BitVec 64) : Prop :=
  ∀ header rest, readHeader funcStart data = some (header, rest) →
    data.length - rest.length + header.csLen.toNat < 2 ^ 64 ∧
      (data.length - rest.length + header.csLen.toNat ≤ data.length → Closed header rest)

theorem readEncoded_shorter (enc : UInt8) (base : BitVec 64) (accepted : readEncoded enc base input = some (value,rest)) :
    rest.length ≤ input.length := Nat.le_of_lt ((readEncoded_prefixed enc base).shorter accepted)

theorem readHeader_shorter (accepted : readHeader funcStart data = some (header,rest)) : rest.length ≤ data.length := by
  obtain ⟨⟨lpStart,afterLpStart⟩,isLpStart,accepted⟩ := Option.bind_eq_some_iff.mp accepted
  obtain ⟨⟨_,afterTtype⟩,isTtype,accepted⟩ := Option.bind_eq_some_iff.mp accepted
  obtain ⟨⟨csEnc,afterEnc⟩,isEnc,accepted⟩ := Option.bind_eq_some_iff.mp accepted
  obtain ⟨⟨csLen,afterLen⟩,isLen,accepted⟩ := Option.bind_eq_some_iff.mp accepted
  cases accepted
  have readByte_shorter {input : List UInt8} {byte : UInt8} {left : List UInt8} (taken : readByte input = some (byte,left)) :
      left.length ≤ input.length := by
    cases input with
    | nil => cases taken
    | cons _ _ =>
      cases taken
      exact Nat.le_succ _
  have first : afterLpStart.length ≤ data.length := by
    obtain ⟨⟨enc,left⟩,isByte,isLpStart⟩ := Option.bind_eq_some_iff.mp isLpStart
    have shorter := readByte_shorter isByte
    dsimp only at isLpStart
    split at isLpStart
    · cases isLpStart
      exact shorter
    · exact (readEncoded_shorter enc funcStart isLpStart).trans shorter
  have second : afterTtype.length ≤ afterLpStart.length := by
    obtain ⟨⟨enc,left⟩,isByte,isTtype⟩ := Option.bind_eq_some_iff.mp isTtype
    have shorter := readByte_shorter isByte
    dsimp only at isTtype
    split at isTtype
    · cases isTtype
      exact shorter
    · obtain ⟨⟨offset,after⟩,isOffset,same⟩ := Option.map_eq_some_iff.mp isTtype
      cases same
      exact (Nat.le_of_lt ((readUlebFrom_prefixed 0 0#64).shorter isOffset)).trans shorter
  have third := readByte_shorter isEnc
  have fourth := (readUlebFrom_prefixed 0 0#64).shorter isLen
  omega

theorem closed_iff (header : Header) (rest : List UInt8) :
    Closed header rest ↔
      ∀ site ∈ scanTo (readCallSite header.csEnc) (rest.length - header.csLen.toNat) rest.length rest,
        rest.length - header.csLen.toNat ≤ site.2 := by
  have within := scanTo_within (readCallSite_prefixed header.csEnc) rest.length (rest.take header.csLen.toNat)
    (rest.drop header.csLen.toNat) (List.length_take_le' _ _)
  rw [List.take_append_drop,List.length_drop] at within
  exact within.symm

theorem safe_iff (data : List UInt8) (funcStart : BitVec 64) : Safe data funcStart ↔ Sound data funcStart := by
  unfold Safe Sound callSites
  cases isHeader : readHeader funcStart data with
  | none =>
    refine iff_of_true ⟨[],funcStart,rfl,fun _ _ isSome => by cases isSome⟩ fun _ _ isSome => by cases isSome
  | some taken =>
    obtain ⟨header,rest⟩ := taken
    have shorter := readHeader_shorter isHeader
    dsimp only
    constructor
    · rintro ⟨sites,lpStart,isSites,inside⟩ _ _ same
      cases same
      split at isSites
      · cases isSites
      · rename_i below
        refine ⟨Nat.lt_of_not_le below,fun fits => (closed_iff header rest).mpr ?_⟩
        rw [if_neg (Nat.not_lt.mpr fits)] at isSites
        cases isSites
        exact inside header rest rfl
    · intro sound
      obtain ⟨below,closed⟩ := sound header rest rfl
      rw [if_neg (Nat.not_le.mpr below)]
      split
      · exact ⟨[],_,rfl,fun _ _ _ _ member => absurd member List.not_mem_nil⟩
      · rename_i fits
        have closed := (closed_iff header rest).mp (closed (Nat.not_lt.mp fits))
        refine ⟨_,_,rfl,fun _ _ same => ?_⟩
        cases same
        exact closed

theorem scanTo_enough (enc : UInt8) (stop : Nat) (input : List UInt8) (extra : Nat) :
    scanTo (readCallSite enc) stop (input.length + extra) input = scanTo (readCallSite enc) stop input.length input := by
  induction extra with
  | zero => rfl
  | succ extra ih =>
    rw [← Nat.add_assoc,scanTo_more (readCallSite_prefixed enc) stop _ input (Nat.le_add_right _ _)]
    exact ih

theorem parseLsda_sound_and_exact (data : List UInt8) (funcStart : BitVec 64) (table : Table) (more : List UInt8) :
    (Safe data funcStart ↔ Sound data funcStart) ∧
    (∀ enc stop (input : List UInt8) extra,
      scanTo (readCallSite enc) stop (input.length + extra) input = scanTo (readCallSite enc) stop input.length input) ∧
    ((table.bytes ++ more).length < 2 ^ 63 →
      (parseLsda (table.bytes ++ more) funcStart = some (table.regions funcStart) ↔
        ∀ record ∈ table.unread, ¬ record.Wanted)) :=
  ⟨safe_iff data funcStart,scanTo_enough,parseLsda_regions_iff table funcStart more⟩

-- One record, of four bytes of which one is in the table, and a table that ends beyond the addresses.
theorem parseLsda_beyond :
    ¬ Safe [0xFF,0xFF,0x01,0x01,0x00,0x01,0x02,0x00] 0#64 ∧
    parseLsda [0xFF,0xFF,0x01,0x01,0x00,0x01,0x02,0x00] 0#64 = some [⟨0#64,1#64,2#64⟩] ∧
    ¬ Safe [0xFF,0xFF,0x01,0xFF,0xFF,0xFF,0xFF,0xFF,0xFF,0xFF,0xFF,0xFF,0x01] 0#64 ∧
    parseLsda [0xFF,0xFF,0x01,0xFF,0xFF,0xFF,0xFF,0xFF,0xFF,0xFF,0xFF,0xFF,0x01] 0#64 = none := by
  refine ⟨?_,rfl,?_,rfl⟩
  · rintro ⟨sites,lpStart,isSites,inside⟩
    cases isSites
    exact absurd (inside ⟨0#64,0x01,1#64⟩ [0x00,0x01,0x02,0x00] rfl _ List.mem_cons_self) (by decide)
  · rintro ⟨sites,lpStart,isSites,_⟩
    cases isSites

-- A record whose landing pad is written with eleven bytes.
def paddedRecord : Record .uleb128 where
  start := ⟨⟨0,0⟩,by decide⟩
  length := ⟨⟨1,0⟩,by decide⟩
  landingPad := ⟨⟨2,10⟩,by decide⟩
  action := ⟨⟨0,0⟩,by decide⟩

def paddedTable : Table where
  lpStart := none
  ttype := none
  callSites := ⟨0x01,.uleb128,rfl⟩
  records := [paddedRecord]
  length := ⟨⟨14,0⟩,by decide⟩
  isLength := rfl

theorem parseLsda_padded : parseLsda (paddedTable.bytes ++ []) 0#64 ≠ some (paddedTable.regions 0#64) := by
  have exact_ := (parseLsda_sound_and_exact [] 0#64 paddedTable []).2.2 (by decide)
  intro same
  have member : paddedRecord ∈ paddedTable.unread := List.mem_cons_self
  exact exact_.mp same paddedRecord member ⟨by decide,by decide⟩

end Rsleigh.Decompile.Lsda
