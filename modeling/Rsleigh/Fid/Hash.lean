import Mathlib.Data.BitVec

namespace Rsleigh.Fid

-- hash.rs
structure FidHashQuad where
  full : UInt64
  specific : UInt64
  codeUnits : UInt32
  bodyLen : UInt32
  deriving DecidableEq

def toLeBytes64 (word : UInt64) : List UInt8 :=
  (List.range 8).map fun i => ⟨word.toBitVec.extractLsb' (8 * i) 8⟩

def FidHashQuad.new (xxh3 : List UInt8 → UInt64) (masked : List UInt8) (codeUnits : UInt32) (calleeFulls : List UInt64) :
    FidHashQuad where
  full := xxh3 masked
  specific := xxh3 (masked ++ calleeFulls.flatMap toLeBytes64)
  codeUnits := codeUnits
  bodyLen := UInt32.ofNat masked.length

end Rsleigh.Fid
