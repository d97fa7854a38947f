import Mathlib.Data.BitVec
import Mathlib.Data.List.Basic
import Mathlib.Data.List.Forall2
import Rsleigh.Pcode.Op

namespace Rsleigh.Fid

-- mask.rs
inductive Architecture where
  | x86_64
  | x86_32
  | aarch64
  | arm32
  | mips32
  | riscV64
  deriving DecidableEq

-- The prefixes that `mask_x86` passes over, REX included.
def isPrefixByte (byte : UInt8) : Bool :=
  byte ∈ [0x26, 0x2E, 0x36, 0x3E, 0x64, 0x65, 0x66, 0x67, 0xF0, 0xF2, 0xF3] || 0x40 ≤ byte && byte ≤ 0x4F

def opcodeIndex (bytes : List UInt8) : Nat := (bytes.takeWhile isPrefixByte).length

def opcodeEnd (bytes : List UInt8) : Nat :=
  let index := opcodeIndex bytes
  if bytes[index]? = some 0x0F then
    let i := index + 1
    let i := if bytes[i]? = some 0x38 || bytes[i]? = some 0x3A then i + 1 else i
    i + 1
  else if index < bytes.length then index + 1
  else index

-- `none` where the slice that is to be zeroed begins behind the end: the bytes end with the escape.
def maskX86 (len : Nat) (raw : List UInt8) : Option (List UInt8) :=
  let out := raw.take (min len raw.length)
  let i := opcodeEnd out
  let keepAfterOp := min 2 (out.length - i)
  let zeroStart := i + keepAfterOp
  if out.length < zeroStart then none
  else some (out.take zeroStart ++ List.replicate (out.length - zeroStart) 0)

-- `u32::from_le_bytes`
def fromLeBytes (first second third fourth : UInt8) : BitVec 32 :=
  fourth.toBitVec ++ third.toBitVec ++ second.toBitVec ++ first.toBitVec

def toLeBytes (word : BitVec 32) : List UInt8 :=
  [⟨word.extractLsb' 0 8⟩, ⟨word.extractLsb' 8 8⟩, ⟨word.extractLsb' 16 8⟩, ⟨word.extractLsb' 24 8⟩]

def maskFixed32 (raw : List UInt8) (mask : BitVec 32 → BitVec 32) : List UInt8 :=
  match raw with
  | first :: second :: third :: fourth :: _ =>
    let w := fromLeBytes first second third fourth
    toLeBytes (w &&& mask w)
  | _ => raw

def aarch64Mask (w : BitVec 32) : BitVec 32 :=
  let top := (w >>> 25) &&& 0xF#32
  if top ∈ [0x8#32, 0x9#32] then 0xFF800000#32
  else if top ∈ [0xA#32, 0xB#32] then 0xFC000000#32
  else if top ∈ [0x4#32, 0x6#32, 0xC#32, 0xE#32] then 0xFFC00000#32
  else if top ∈ [0x5#32, 0xD#32] then 0xFFE00000#32
  else if top ∈ [0x7#32, 0xF#32] then 0xFFE00000#32
  else 0xFC000000#32

def arm32Mask (_ : BitVec 32) : BitVec 32 := 0xFFF00000#32

def mipsMask (w : BitVec 32) : BitVec 32 :=
  let op := (w >>> 26) &&& 0x3F#32
  if op ∈ [0x00#32, 0x1C#32] then 0xFC00003F#32
  else if op = 0x01#32 then 0xFC1F0000#32
  else 0xFC000000#32

def riscvMask (w : BitVec 32) : BitVec 32 :=
  let opcode := w &&& 0x7F#32
  if opcode ∈ [0x33#32, 0x3B#32] then 0xFE00707F#32
  else if opcode ∈ [0x13#32, 0x1B#32] then 0x0000707F#32
  else if opcode ∈ [0x03#32, 0x23#32, 0x67#32] then 0x0000707F#32
  else if opcode = 0x63#32 then 0x0000707F#32
  else 0x0000007F#32

-- Two bytes without the low bits of a 32-bit instruction are a compressed one.
def maskRiscv (raw : List UInt8) : List UInt8 :=
  if 4 ≤ raw.length && raw.head?.any (fun byte => byte &&& 0x3 = 0x3) then maskFixed32 raw riscvMask
  else
    match raw with
    | first :: second :: _ =>
      let h := (second.toBitVec ++ first.toBitVec) &&& 0xE003#16
      [⟨h.extractLsb' 0 8⟩, ⟨h.extractLsb' 8 8⟩]
    | _ => raw

-- `none` is a panic.
def maskInstruction (arch : Architecture) (len : Nat) (raw : List UInt8) : Option (List UInt8) :=
  match arch with
  | .x86_64 | .x86_32 => maskX86 len raw
  | .aarch64 => some (maskFixed32 raw aarch64Mask)
  | .arm32 => some (maskFixed32 raw arm32Mask)
  | .mips32 => some (maskFixed32 raw mipsMask)
  | .riscV64 => some (maskRiscv raw)

end Rsleigh.Fid
