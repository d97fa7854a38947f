import Rsleigh.Lib.Scanner

namespace Rsleigh.Arm32Raw

open Scanner

-- arm32_raw.rs.
structure AdrSite where
  addr : Nat
  rd : Nat
  target : Nat
  deriving DecidableEq

structure MovwMovtPair where
  addr : Nat
  rd : Nat
  value : Nat
  deriving DecidableEq

structure PcLiteralLoad where
  addr : Nat
  rt : Nat
  literalAddr : Nat
  value : Nat
  deriving DecidableEq

-- The halfwords of a blob, little-endian; a byte that is left is not looked at.
def halfwords : List UInt8 → List Nat
  | low :: high :: rest => (low.toNat + 256 * high.toNat) :: halfwords rest
  | _ => []

-- An addition of 64 bits: it wraps, or it fails in a build that checks for overflow.
def plus (checked : Bool) (a b : Nat) : Option Nat :=
  if checked = true ∧ 2 ^ 64 ≤ a + b then none else some ((a + b) % 2 ^ 64)

def wrappingSub (a b : Nat) : Nat :=
  (a + (2 ^ 64 - b % 2 ^ 64)) % 2 ^ 64

-- `& !0x3`.
def align (address : Nat) : Nat :=
  address / 4 * 4

-- The address of the halfword `i`, and the program counter that is read there.
def addressOf (checked : Bool) (base i : Nat) : Option Nat :=
  plus checked base (2 * i)

def pcAligned (checked : Bool) (base i : Nat) : Option Nat := do
  let pc ← plus checked (← addressOf checked base i) 4
  return align pc

def decodeMovwMovt (hw1 hw2 : Nat) (isMovt : Bool) : Option (Nat × Nat) :=
  let want := if isMovt then 0xF2C0 else 0xF240
  if hw1 &&& 0xFBF0 ≠ want then none
  else if hw2 &&& 0x8000 ≠ 0 then none
  else
    let imm4 := hw1 &&& 0x000F
    let i := (hw1 >>> 10) &&& 1
    let imm3 := (hw2 >>> 12) &&& 0x7
    let imm8 := hw2 &&& 0xFF
    let imm16 := ((imm4 <<< 12 ||| i <<< 11) ||| imm3 <<< 8) ||| imm8
    some ((hw2 >>> 8) &&& 0xF,imm16)

def movStep (checked : Bool) (base i : Nat) : List Nat → Option (Option MovwMovtPair × Nat)
  | hw1 :: hw2 :: hw3 :: hw4 :: _ =>
    match decodeMovwMovt hw1 hw2 false with
    | none => some (none,0)
    | some (rdLo, lo) =>
      match decodeMovwMovt hw3 hw4 true with
      | none => some (none,0)
      | some (rdHi, hi) =>
        if rdLo ≠ rdHi then some (none,0)
        else do
          let addr ← addressOf checked base i
          some (some ⟨addr,rdLo,hi <<< 16 ||| lo⟩,3)
  -- Fewer than eight bytes are left: the loop ends.
  | _ => some (none,0)

def findMovwMovtPairs (checked : Bool) (data : List UInt8) (base : Nat) : Option (List MovwMovtPair) :=
  scan (movStep checked base) 0 0 (halfwords data)

def leValue : List UInt8 → Nat
  | [] => 0
  | byte :: rest => byte.toNat + 256 * leValue rest

def readU32At (checked : Bool) (data : List UInt8) (base va : Nat) : Option (Option Nat) :=
  if va < base then some none
  else do
    let stop ← plus checked (va - base) 4
    if data.length < stop then some none
    -- The slice fails where its end, wrapped, is below its start.
    else if stop < va - base then none
    else some (some (leValue ((data.drop (va - base)).take 4)))

def loadFrom (checked : Bool) (data : List UInt8) (base i rt literal : Nat) : Option (Option PcLiteralLoad) := do
  match ← readU32At checked data base literal with
  | some value => do
    let addr ← addressOf checked base i
    some (some ⟨addr,rt,literal,value⟩)
  | none => some none

-- The load that stands first: its register, whether it reads ahead, how far, and how many halfwords it goes on for.
structure Load where
  rt : Nat
  ahead : Bool
  distance : Nat
  more : Nat

def loadAt : List Nat → Option Load
  | [] => none
  | hw1 :: later =>
    if hw1 &&& 0xF800 = 0x4800 then some ⟨(hw1 >>> 8) &&& 0x7,true,(hw1 &&& 0xFF) * 4,0⟩
    else later.head?.bind fun hw2 =>
      if hw1 = 0xF8DF ∨ hw1 = 0xF85F then some ⟨(hw2 >>> 12) &&& 0xF,hw1 = 0xF8DF,hw2 &&& 0xFFF,1⟩ else none

def loadRun (checked : Bool) (data : List UInt8) (base i : Nat) (load : Load) : Option (Option PcLiteralLoad) := do
  let pc ← pcAligned checked base i
  let literal ← if load.ahead then plus checked pc load.distance else some (wrappingSub pc load.distance)
  loadFrom checked data base i load.rt literal

def loadStep (checked : Bool) (data : List UInt8) (base i : Nat) (rest : List Nat) :
    Option (Option PcLiteralLoad × Nat) :=
  match loadAt rest with
  | none => some (none,0)
  | some load => (loadRun checked data base i load).map fun found => (found,load.more)

def findPcLiteralLoads (checked : Bool) (data : List UInt8) (base : Nat) : Option (List PcLiteralLoad) :=
  scan (loadStep checked data base) 0 0 (halfwords data)

def adrStep (checked : Bool) (base i : Nat) : List Nat → Option (Option AdrSite × Nat)
  | [] => some (none,0)
  | hw1 :: later =>
    if hw1 &&& 0xF800 = 0xA000 then do
      let pc ← pcAligned checked base i
      let target ← plus checked pc ((hw1 &&& 0xFF) * 4)
      let addr ← addressOf checked base i
      some (some ⟨addr,(hw1 >>> 8) &&& 0x7,target⟩,0)
    else
      match later with
      | [] => some (none,0)
      | hw2 :: _ =>
        let iBit := (hw1 >>> 10) &&& 0x1
        let top5 := hw1 &&& 0xFBF0
        if (top5 = 0xF20F ∨ top5 = 0xF2AF) ∧ hw2 &&& 0x8000 = 0 then do
          let imm3 := (hw2 >>> 12) &&& 0x7
          let imm12 := (iBit <<< 11 ||| imm3 <<< 8) ||| (hw2 &&& 0xFF)
          let pc ← pcAligned checked base i
          let target ← if top5 = 0xF20F then plus checked pc imm12 else some (wrappingSub pc imm12)
          let addr ← addressOf checked base i
          some (some ⟨addr,(hw2 >>> 8) &&& 0xF,target⟩,1)
        else some (none,0)

def findAdrSites (checked : Bool) (data : List UInt8) (base : Nat) : Option (List AdrSite) :=
  scan (adrStep checked base) 0 0 (halfwords data)

section Architecture

-- The encodings of the architecture.
inductive AdrInstr where
  | nop
  | t1 (rd : Fin 8) (imm8 : Fin 256)
  | t2 (rd : Fin 16) (imm12 : Fin 4096)
  | t3 (rd : Fin 16) (imm12 : Fin 4096)
  deriving DecidableEq

def nop : Nat := 0xBF00

def wide (opcode rd imm12 : Nat) : List Nat :=
  [opcode + imm12 / 2048 * 1024,imm12 / 256 % 8 * 4096 + rd * 256 + imm12 % 256]

def AdrInstr.encode : AdrInstr → List Nat
  | .nop => [Arm32Raw.nop]
  | .t1 rd imm8 => [0xA000 + rd * 256 + imm8]
  | .t2 rd imm12 => wide 0xF2AF rd imm12
  | .t3 rd imm12 => wide 0xF20F rd imm12

-- A NOP, or a MOVW and the MOVT after it.
inductive MovInstr where
  | nop
  | pair (rd : Fin 16) (lo hi : Fin 65536)

def movImmediate (opcode rd imm16 : Nat) : List Nat :=
  [opcode + imm16 / 2048 % 2 * 1024 + imm16 / 4096,imm16 / 256 % 8 * 4096 + rd * 256 + imm16 % 256]

def MovInstr.encode : MovInstr → List Nat
  | .nop => [Arm32Raw.nop]
  | .pair rd lo hi => movImmediate 0xF240 rd lo ++ movImmediate 0xF2C0 rd hi

inductive LoadInstr where
  | nop
  | t1 (rt : Fin 8) (imm8 : Fin 256)
  | t2 (add : Bool) (rt : Fin 16) (imm12 : Fin 4096)

def LoadInstr.encode : LoadInstr → List Nat
  | .nop => [Arm32Raw.nop]
  | .t1 rt imm8 => [0x4800 + rt * 256 + imm8]
  | .t2 add rt imm12 => [if add then 0xF8DF else 0xF85F,rt * 4096 + imm12]

-- Halfwords as bytes.
def bytes (hws : List Nat) : List UInt8 :=
  hws.flatMap fun hw => [UInt8.ofNat hw,UInt8.ofNat (hw / 256)]

def assemble {ι : Type} (encode : ι → List Nat) (program : List ι) : List UInt8 :=
  bytes (program.flatMap encode)

-- An address of 64 bits.
def wrap (address : Int) : Nat :=
  (address % 2 ^ 64).toNat

-- Align(address + 4, 4) of the instruction that starts with the halfword `i`.
def alignedPc (base i : Nat) : Nat :=
  4 * ((base + 2 * i + 4) / 4)

def AdrInstr.sites (base i : Nat) : AdrInstr → List AdrSite
  | .nop => []
  | .t1 rd imm8 => [⟨wrap (base + 2 * i : Nat),rd,wrap (alignedPc base i + 4 * imm8 : Nat)⟩]
  | .t2 rd imm12 => [⟨wrap (base + 2 * i : Nat),rd,wrap ((alignedPc base i : Int) - (imm12 : Nat))⟩]
  | .t3 rd imm12 => [⟨wrap (base + 2 * i : Nat),rd,wrap (alignedPc base i + imm12 : Nat)⟩]

def MovInstr.pairs (base i : Nat) : MovInstr → List MovwMovtPair
  | .nop => []
  | .pair rd lo hi => [⟨wrap (base + 2 * i : Nat),rd,hi * 65536 + lo⟩]

-- The word of a blob at an address that lies in it.
def wordAt (blob : List UInt8) (base address : Nat) : Option Nat :=
  if base ≤ address ∧ address + 4 ≤ base + blob.length then
    some (leValue ((blob.drop (address - base)).take 4))
  else none

def LoadInstr.register : LoadInstr → Nat
  | .nop => 0
  | .t1 rt _ => rt
  | .t2 _ rt _ => rt

-- Where the literal of a load is, if it is one.
def LoadInstr.literal (base i : Nat) : LoadInstr → Option Nat
  | .nop => none
  | .t1 _ imm8 => some (wrap (alignedPc base i + 4 * imm8 : Nat))
  | .t2 true _ imm12 => some (wrap (alignedPc base i + imm12 : Nat))
  | .t2 false _ imm12 => some (wrap ((alignedPc base i : Int) - (imm12 : Nat)))

def LoadInstr.loads (blob : List UInt8) (base i : Nat) (instr : LoadInstr) : List PcLiteralLoad :=
  ((instr.literal base i).bind fun literal => (wordAt blob base literal).map fun value =>
    ⟨wrap (base + 2 * i : Nat),instr.register,literal,value⟩).toList

end Architecture

section Bits

theorem land_block (x k w : Nat) : x &&& 2 ^ k * (2 ^ w - 1) = 2 ^ k * (x / 2 ^ k % 2 ^ w) := by
  refine Nat.eq_of_testBit_eq fun i => ?_
  rw [Nat.testBit_and,Nat.testBit_two_pow_mul,Nat.testBit_two_pow_mul,Nat.testBit_two_pow_sub_one,
    Nat.testBit_mod_two_pow,Nat.testBit_div_two_pow]
  by_cases high : k ≤ i
  · rw [Nat.sub_add_cancel high]
    by_cases inside : i - k < w <;> simp [high,inside]
  · simp [high]

theorem land_top (x : Nat) : x &&& 0xF800 = 2048 * (x / 2048 % 32) := land_block x 11 5

theorem land_middle (x : Nat) : x &&& 0x3F0 = 16 * (x / 16 % 64) := land_block x 4 6

theorem land_opcode (x : Nat) : x &&& 0xFBF0 = 2048 * (x / 2048 % 32) ||| 16 * (x / 16 % 64) := by
  rw [show (0xFBF0 : Nat) = 0xF800 ||| 0x3F0 by decide,Nat.and_or_distrib_left,land_top,land_middle]

theorem land_sign (x : Nat) : x &&& 0x8000 = 32768 * (x / 32768 % 2) := land_block x 15 1

theorem field (x k w : Nat) : (x >>> k) &&& (2 ^ w - 1) = x / 2 ^ k % 2 ^ w := by
  rw [Nat.and_two_pow_sub_one_eq_mod,Nat.shiftRight_eq_div_pow]

theorem low_byte (x : Nat) : x &&& 0xFF = x % 256 := Nat.and_two_pow_sub_one_eq_mod x 8

theorem field_register (x : Nat) : (x >>> 8) &&& 0x7 = x / 256 % 8 := field x 8 3

-- The opcode of a wide ADR is never what the mask leaves.
theorem wide_never (x : Nat) : ¬(x &&& 0xFBF0 = 0xF20F ∨ x &&& 0xFBF0 = 0xF2AF) := by
  have low : (x &&& 0xFBF0) &&& 0xF = 0 := by
    rw [Nat.and_assoc]
    exact Nat.and_zero x
  intro isWide
  rcases isWide with isAdd | isSub
  · rw [isAdd] at low
    exact absurd low (by decide)
  · rw [isSub] at low
    exact absurd low (by decide)

theorem joined {a b c d : Nat} (small : b < 2) (three : c < 8) (eight : d < 256) :
    ((a <<< 12 ||| b <<< 11) ||| c <<< 8) ||| d = a * 4096 + b * 2048 + c * 256 + d := by
  rw [Nat.or_assoc,Nat.or_assoc,← Nat.shiftLeft_add_eq_or_of_lt (show d < 2 ^ 8 from eight)]
  have low : c <<< 8 + d = c * 256 + d := by rw [Nat.shiftLeft_eq]
  rw [low,← Nat.shiftLeft_add_eq_or_of_lt (show c * 256 + d < 2 ^ 11 by omega)]
  have middle : b <<< 11 + (c * 256 + d) = b * 2048 + (c * 256 + d) := by rw [Nat.shiftLeft_eq]
  rw [middle,← Nat.shiftLeft_add_eq_or_of_lt (show b * 2048 + (c * 256 + d) < 2 ^ 12 by omega),Nat.shiftLeft_eq]
  omega

end Bits

section Addresses

variable {checked : Bool} {base i : Nat}

theorem wrap_nat (address : Nat) : wrap (address : Nat) = address % 2 ^ 64 := by
  unfold wrap
  omega

theorem plus_unchecked (a b : Nat) : plus false a b = some ((a + b) % 2 ^ 64) := by
  simp [plus]

theorem plus_small {a b : Nat} (small : a + b < 2 ^ 64) : plus checked a b = some (a + b) := by
  unfold plus
  rw [if_neg fun past => absurd past.2 (by omega),Nat.mod_eq_of_lt small]

theorem plus_some {a b : Nat} : plus checked a b = some ((a + b) % 2 ^ 64) ↔ (checked = true → a + b < 2 ^ 64) := by
  unfold plus
  by_cases past : checked = true ∧ 2 ^ 64 ≤ a + b
  · rw [if_pos past]
    simp only [reduceCtorEq,false_iff]
    intro fits
    have below := fits past.1
    omega
  · rw [if_neg past]
    simp only [true_iff]
    intro isChecked
    by_contra large
    exact past ⟨isChecked,by omega⟩

theorem plus_none {a b : Nat} : plus checked a b = none ↔ checked = true ∧ 2 ^ 64 ≤ a + b := by
  unfold plus
  split <;> simp_all

-- The program counter of an instruction, modulo the word.
theorem aligned_wrap (base i : Nat) : align ((base + 2 * i + 4) % 2 ^ 64) = alignedPc base i % 2 ^ 64 := by
  unfold align alignedPc
  omega

theorem wrap_forward (base i ahead : Nat) :
    (alignedPc base i % 2 ^ 64 + ahead) % 2 ^ 64 = wrap (alignedPc base i + ahead : Nat) := by
  rw [wrap_nat,Nat.mod_add_mod]

theorem wrap_backward (base i behind : Nat) :
    wrappingSub (alignedPc base i % 2 ^ 64) behind = wrap ((alignedPc base i : Int) - (behind : Nat)) := by
  unfold wrappingSub wrap
  omega

-- No address that is computed for a place ahead passes the end of the address space, where that is checked.
def Fits (checked : Bool) (base i ahead : Nat) : Prop :=
  checked = true → base + 2 * i + 4 < 2 ^ 64 ∧ alignedPc base i + ahead < 2 ^ 64

instance : Decidable (Fits checked base i ahead) :=
  inferInstanceAs (Decidable (checked = true → _))

theorem pcAligned_some (fits : checked = true → base + 2 * i + 4 < 2 ^ 64) :
    pcAligned checked base i = some (alignedPc base i % 2 ^ 64) ∧
      addressOf checked base i = some (wrap (base + 2 * i : Nat)) := by
  have address : addressOf checked base i = some ((base + 2 * i) % 2 ^ 64) :=
    plus_some.mpr fun isChecked => by have below := fits isChecked; omega
  have next : plus checked ((base + 2 * i) % 2 ^ 64) 4 = some (((base + 2 * i) % 2 ^ 64 + 4) % 2 ^ 64) :=
    plus_some.mpr fun isChecked => by have below := fits isChecked; omega
  rw [wrap_nat]
  refine ⟨?_,address⟩
  unfold pcAligned
  rw [address]
  simp only [Option.bind_eq_bind,Option.bind_some,next,Option.pure_def,Nat.mod_add_mod,aligned_wrap]

theorem pcAligned_none (past : checked = true ∧ 2 ^ 64 ≤ base + 2 * i + 4) : pcAligned checked base i = none := by
  unfold pcAligned addressOf
  by_cases first : 2 ^ 64 ≤ base + 2 * i
  · rw [plus_none.mpr ⟨past.1,first⟩]
    rfl
  · rw [plus_small (by omega),Option.bind_eq_bind,Option.bind_some,plus_none.mpr past]
    rfl

theorem forward_some {ahead : Nat} (fits : Fits checked base i ahead) :
    ∃ pc, pcAligned checked base i = some pc ∧ plus checked pc ahead = some (wrap (alignedPc base i + ahead : Nat)) ∧
      addressOf checked base i = some (wrap (base + 2 * i : Nat)) := by
  obtain ⟨isPc,isAddress⟩ := pcAligned_some fun isChecked => (fits isChecked).1
  refine ⟨_,isPc,?_,isAddress⟩
  rw [← wrap_forward]
  exact plus_some.mpr fun isChecked => by have below := fits isChecked; omega

theorem forward_none {ahead : Nat} (past : ¬Fits checked base i ahead) :
    (pcAligned checked base i).bind (fun pc => plus checked pc ahead) = none := by
  have isChecked : checked = true := by
    by_contra unchecked
    exact past fun isChecked => absurd isChecked unchecked
  by_cases first : 2 ^ 64 ≤ base + 2 * i + 4
  · rw [pcAligned_none ⟨isChecked,first⟩]
    rfl
  · rw [(pcAligned_some fun _ => by omega).1,Option.bind_some]
    have small : alignedPc base i % 2 ^ 64 = alignedPc base i := by
      unfold alignedPc
      omega
    have large : ¬ alignedPc base i + ahead < 2 ^ 64 := fun below => past fun _ => ⟨by omega,below⟩
    rw [small]
    exact plus_none.mpr ⟨isChecked,by omega⟩

end Addresses

end Rsleigh.Arm32Raw
