import Rsleigh.Fid.Hash
import Rsleigh.Fid.MaskedUnits

namespace Rsleigh.Fid

open Pcode

-- ingest.rs
def minBodyLen : Nat := 16
def minCodeUnits : Nat := 6

structure CodeUnit where
  raw : List UInt8
  ops : List PcodeOp

section Fingerprint

variable {σ : Type} (decode : σ → List UInt8 → Nat → Option (Nat × List PcodeOp) × σ)

-- The decoder keeps a state. An instruction has a byte at least, so the bytes bound the steps.
def decodeAll : Nat → σ → List UInt8 → Nat → List CodeUnit
  | 0, _, _, _ => []
  | fuel + 1, state, body, addr =>
    if body = [] then []
    else
      match decode state body addr with
      | (none, _) => []
      | (some (ilen, ops), state) =>
        if ilen = 0 || body.length < ilen then []
        else ⟨body.take ilen, ops⟩ :: decodeAll fuel state (body.drop ilen) (addr + ilen)

def codeUnits (state : σ) (body : List UInt8) (baseAddr : Nat) : List CodeUnit := decodeAll decode body.length state body baseAddr

def callees (directCallFulls : UInt64 → Option UInt64) (ops : List PcodeOp) : List UInt64 :=
  ops.filterMap fun op =>
    match op with
    | .call dest => directCallFulls dest.offset
    | _ => none

def maskedBytes (arch : Architecture) (units : List CodeUnit) : Option (List UInt8) :=
  (units.mapM fun unit_ => maskInstruction arch unit_.raw.length unit_.raw).map List.flatten

-- `none` is a panic.
def fingerprint (xxh3 : List UInt8 → UInt64) (arch : Architecture) (state : σ) (body : List UInt8) (baseAddr : Nat)
    (directCallFulls : UInt64 → Option UInt64) : Option (Option FidHashQuad) :=
  if body.length < minBodyLen then some none
  else
    let units := codeUnits decode state body baseAddr
    (maskedBytes arch units).map fun masked =>
      if units.length < minCodeUnits then none
      else some (FidHashQuad.new xxh3 masked (UInt32.ofNat units.length) (units.flatMap fun unit_ => callees directCallFulls unit_.ops))

-- A body at two addresses: the instructions have the same boundaries and are the same but for their displacements.
-- An instruction has its whole opcode.
structure Relinking (arch : Architecture) (state : σ) where
  body : List UInt8
  baseAddr : Nat
  body' : List UInt8
  baseAddr' : Nat
  sameLength : body.length = body'.length
  sameBut : List.Forall₂ (SameBut arch) ((codeUnits decode state body baseAddr).map CodeUnit.raw)
    ((codeUnits decode state body' baseAddr').map CodeUnit.raw)
  whole : ∀ unit_ ∈ codeUnits decode state body baseAddr, opcodeEnd unit_.raw ≤ unit_.raw.length

end Fingerprint

theorem mask_whole (arch : Architecture) (raw : List UInt8) (whole : opcodeEnd raw ≤ raw.length) :
    ∃ masked, maskUnit arch raw = some masked := by
  have x86 : ∃ masked, maskX86 raw.length raw = some masked := by
    unfold maskX86
    rw [Nat.min_self,List.take_length]
    dsimp only
    rw [if_neg (by omega)]
    exact ⟨_,rfl⟩
  cases arch with
  | x86_64 => exact x86
  | x86_32 => exact x86
  | aarch64 => exact ⟨_,rfl⟩
  | arm32 => exact ⟨_,rfl⟩
  | mips32 => exact ⟨_,rfl⟩
  | riscV64 => exact ⟨_,rfl⟩

theorem maskX86_length (isMasked : maskX86 raw.length raw = some masked) : masked.length = raw.length := by
  unfold maskX86 at isMasked
  rw [Nat.min_self,List.take_length] at isMasked
  dsimp only at isMasked
  split at isMasked
  · cases isMasked
  · rename_i inside
    cases isMasked
    rw [List.length_append,List.length_replicate,List.length_take]
    omega

theorem mask_length (sameBut : SameBut arch raw raw') (isMasked : maskUnit arch raw = some masked)
    (isMasked' : maskUnit arch raw' = some masked') : masked.length = masked'.length := by
  cases sameBut with
  | same =>
    cases isMasked.symm.trans isMasked'
    rfl
  | @relative prefixes opcode one other isX86 _ _ sameLength =>
    have isOne : masked.length = (prefixes ++ (opcode ++ one)).length := by
      rcases isX86 with rfl | rfl
      · exact maskX86_length isMasked
      · exact maskX86_length isMasked
    have isOther : masked'.length = (prefixes ++ (opcode ++ other)).length := by
      rcases isX86 with rfl | rfl
      · exact maskX86_length isMasked'
      · exact maskX86_length isMasked'
    rw [isOne,isOther]
    simp [sameLength]
  | word isEncoding isOne sameRest =>
    cases arch with
    | x86_64 => cases isEncoding
    | x86_32 => cases isEncoding
    | aarch64 | arm32 | mips32 =>
      cases isMasked
      cases isMasked'
      rfl
    | riscV64 =>
      have isWord := of_decide_eq_true isOne
      have isOther := encoding_other (riscv_apart isEncoding) isWord sameRest
      rw [riscv_masked (riscv_first isEncoding isWord)] at isMasked
      rw [riscv_masked (riscv_first isEncoding isOther)] at isMasked'
      cases isMasked
      cases isMasked'
      rfl
  | compressed isRiscv =>
    subst isRiscv
    cases isMasked
    cases isMasked'
    unfold maskRiscv
    rw [if_neg (by simp),if_neg (by simp)]
    rfl

theorem mask_whole_other (sameBut : SameBut arch raw raw') (whole : opcodeEnd raw ≤ raw.length) :
    ∃ masked, maskUnit arch raw' = some masked := by
  cases sameBut with
  | same => exact mask_whole arch raw whole
  | @relative prefixes opcode one other _ arePrefixes isRelative _ =>
    refine mask_whole arch _ ?_
    rw [opcodeEnd_relative arePrefixes isRelative,← List.append_assoc]
    exact (List.sublist_append_left _ _).length_le
  | word isEncoding =>
    cases arch with
    | x86_64 => cases isEncoding
    | x86_32 => cases isEncoding
    | aarch64 | arm32 | mips32 | riscV64 => exact ⟨_,rfl⟩
  | compressed isRiscv =>
    subst isRiscv
    exact ⟨_,rfl⟩

theorem masked_cons (isFirst : maskUnit arch one.raw = some first) (isRest : maskedBytes arch units = some rest) :
    maskedBytes arch (one :: units) = some (first ++ rest) := by
  obtain ⟨masks,areMasks,rfl⟩ := Option.map_eq_some_iff.mp isRest
  unfold maskedBytes
  unfold maskUnit at isFirst
  rw [List.mapM_cons,isFirst,areMasks]
  rfl

theorem masked_agree (sameBut : List.Forall₂ (SameBut arch) (units.map CodeUnit.raw) (units'.map CodeUnit.raw))
    (whole : ∀ unit_ ∈ units, opcodeEnd unit_.raw ≤ unit_.raw.length) :
    ∃ masked masked', maskedBytes arch units = some masked ∧ maskedBytes arch units' = some masked' ∧
      (masked = masked' ↔ List.Forall₂ (Agrees arch) (units.map CodeUnit.raw) (units'.map CodeUnit.raw)) := by
  induction units generalizing units' with
  | nil =>
    cases units' with
    | nil => exact ⟨[],[],rfl,rfl,iff_of_true rfl .nil⟩
    | cons _ _ => cases sameBut
  | cons one units ih =>
    cases units' with
    | nil => cases sameBut
    | cons other units' =>
      obtain ⟨isSame,areSame⟩ := List.forall₂_cons.mp sameBut
      obtain ⟨rest,rest',isRest,isRest',agree⟩ := ih areSame fun unit_ member => whole unit_ (List.mem_cons_of_mem _ member)
      obtain ⟨first,isFirst⟩ := mask_whole arch one.raw (whole one List.mem_cons_self)
      obtain ⟨first',isFirst'⟩ := mask_whole_other isSame (whole one List.mem_cons_self)
      refine ⟨first ++ rest,first' ++ rest',masked_cons isFirst isRest,masked_cons isFirst' isRest',?_⟩
      have agrees := mask_agrees isSame
      rw [isFirst,isFirst',Option.some_inj] at agrees
      rw [List.map_cons,List.map_cons,List.forall₂_cons,← agrees,← agree]
      exact ⟨fun same => List.append_inj same (mask_length isSame isFirst isFirst'),fun both => both.1 ▸ both.2 ▸ rfl⟩

section Relinking

variable {σ : Type} (decode : σ → List UInt8 → Nat → Option (Nat × List PcodeOp) × σ) (xxh3 : List UInt8 → UInt64)

-- A fingerprint does not depend on where the function is linked where the displacements agree on what the masks keep.
theorem fingerprint_relinked {arch : Architecture} {state : σ} (relinking : Relinking decode arch state)
    (fulls fulls' : UInt64 → Option UInt64) :
    (maskedBytes arch (codeUnits decode state relinking.body relinking.baseAddr) =
        maskedBytes arch (codeUnits decode state relinking.body' relinking.baseAddr') ∧
      (fingerprint decode xxh3 arch state relinking.body relinking.baseAddr fulls).map (·.map FidHashQuad.full) =
        (fingerprint decode xxh3 arch state relinking.body' relinking.baseAddr' fulls').map (·.map FidHashQuad.full)) ↔
      List.Forall₂ (Agrees arch) ((codeUnits decode state relinking.body relinking.baseAddr).map CodeUnit.raw)
        ((codeUnits decode state relinking.body' relinking.baseAddr').map CodeUnit.raw) := by
  obtain ⟨masked,masked',isMasked,isMasked',agree⟩ := masked_agree relinking.sameBut relinking.whole
  have sameCount := relinking.sameBut.length_eq
  rw [List.length_map,List.length_map] at sameCount
  rw [isMasked,isMasked',Option.some_inj,← agree,and_iff_left_iff_imp]
  intro same
  unfold fingerprint
  dsimp only
  rw [isMasked,isMasked',← relinking.sameLength,same,sameCount]
  split
  · rfl
  · rw [Option.map_some,Option.map_some,Option.map_some,Option.map_some]
    split
    · rfl
    · rfl

end Relinking

-- Eight times the same short jump: with another displacement nothing else is left to mask.
def shortJump (state : Unit) (body : List UInt8) (_ : Nat) : Option (Nat × List PcodeOp) × Unit :=
  match body with
  | 0xEB :: _ :: _ => (some (2, []), state)
  | _ => (none, state)

def jumps (displacement : UInt8) : List UInt8 := (List.replicate 8 [0xEB, displacement]).flatten

def shortJumps : Relinking shortJump .x86_64 () where
  body := jumps 0x10
  baseAddr := 0x1000
  body' := jumps 0x20
  baseAddr' := 0x1000
  sameLength := rfl
  sameBut := by
    have each : SameBut .x86_64 [0xEB, 0x10] [0xEB, 0x20] :=
      @SameBut.relative .x86_64 [] [0xEB] [0x10] [0x20] (.inl rfl) (fun _ member => absurd member List.not_mem_nil) rfl rfl
    exact .cons each (.cons each (.cons each (.cons each (.cons each (.cons each (.cons each (.cons each .nil)))))))
  whole := by decide

theorem fingerprint_moved :
    maskedBytes .x86_64 (codeUnits shortJump () shortJumps.body shortJumps.baseAddr) ≠
      maskedBytes .x86_64 (codeUnits shortJump () shortJumps.body' shortJumps.baseAddr') ∧
    -- CALL rel32, ADR, BL of ARM32, and BEQ of MIPS32, each with two displacements
    maskUnit .x86_64 [0xE8, 0x00, 0x01, 0x00, 0x00] ≠ maskUnit .x86_64 [0xE8, 0x00, 0x02, 0x00, 0x00] ∧
    maskUnit .aarch64 [0x00, 0x00, 0x00, 0x10] ≠ maskUnit .aarch64 [0x00, 0x00, 0x00, 0x30] ∧
    maskUnit .arm32 [0x00, 0x00, 0x00, 0xEB] ≠ maskUnit .arm32 [0x00, 0x00, 0x10, 0xEB] ∧
    maskUnit .mips32 [0x10, 0x00, 0x00, 0x08] ≠ maskUnit .mips32 [0x10, 0x00, 0x00, 0x0C] := by
  refine ⟨?_,?_,?_,?_,?_⟩
  all_goals decide

end Rsleigh.Fid
