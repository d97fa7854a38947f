import Mathlib.Data.List.Basic

namespace Rsleigh.Pcode

inductive AddressSpaceId where
  | register
  | ram
  | unique
  | const
deriving DecidableEq, Repr

structure Varnode where
  space : AddressSpaceId
  offset : UInt64
  size : UInt32
deriving DecidableEq, Repr

namespace Varnode

def register (offset : UInt64) (size : UInt32) : Varnode := ⟨.register,offset,size⟩
def unique (offset : UInt64) (size : UInt32) : Varnode := ⟨.unique,offset,size⟩
def ram (offset : UInt64) (size : UInt32) : Varnode := ⟨.ram,offset,size⟩
def constant (value : UInt64) (size : UInt32) : Varnode := ⟨.const,value,size⟩

end Varnode

-- Every variant of the source's enum that has the fields `out` and `input`.
inductive UnaryOp where
  | intNeg | intNot | intZext | intSext | boolNot
  | floatNeg | floatAbs | floatSqrt | floatNan
  | int2Float | float2Float | trunc | floatCeil | floatFloor | floatRound
  | popcount | lzcount
deriving DecidableEq, Repr

-- Every variant that has the fields `out`, `left` and `right`.
inductive BinaryOp where
  | intAdd | intSub | intMult | intDiv | intSDiv | intRem | intSRem
  | intEq | intNotEq | intLess | intLessEq | intSLess | intSLessEq
  | intAnd | intOr | intXor | intLsl | intLsr | intAsr
  | intCarry | intSCarry | intSBorrow
  | boolAnd | boolOr | boolXor
  | floatAdd | floatSub | floatMult | floatDiv
  | floatEq | floatNotEq | floatLess | floatLessEq
deriving DecidableEq, Repr

inductive PcodeOp where
  | copy (out input : Varnode)
  | load (out : Varnode) (space : AddressSpaceId) (ptr : Varnode)
  | store (space : AddressSpaceId) (ptr val : Varnode)
  | branch (dest : Varnode)
  | cbranch (dest cond : Varnode)
  | branchInd (dest : Varnode)
  | call (dest : Varnode)
  | callInd (dest : Varnode)
  | ret (dest : Varnode)
  | unary (op : UnaryOp) (out input : Varnode)
  | binary (op : BinaryOp) (out left right : Varnode)
  | subpiece (out input : Varnode) (lsb : UInt32)
  | callOther (out : Option Varnode) (funcId : UInt64) (inputs : List Varnode)
deriving DecidableEq, Repr

-- `get_output` has no arm for CallOther; `writes_to` below has one.
def getOutput : PcodeOp → Option Varnode
  | .copy out _ | .load out _ _ | .unary _ out _ | .binary _ out _ _ | .subpiece out _ _ => some out
  | _ => none

-- `get_output_mut`, as the update made through the reference it returns.
def mapOutput (f : Varnode → Varnode) : PcodeOp → PcodeOp
  | .copy out input => .copy (f out) input
  | .load out space ptr => .load (f out) space ptr
  | .unary op out input => .unary op (f out) input
  | .binary op out left right => .binary op (f out) left right
  | .subpiece out input lsb => .subpiece (f out) input lsb
  | op => op

def writesTo (op : PcodeOp) (target : Varnode) : Bool :=
  match op with
  | .callOther (some out) _ _ => out == target
  | op => getOutput op == some target

-- The varnodes `visit_reads` hands to its callback, in its order.
def reads : PcodeOp → List Varnode
  | .copy _ input => [input]
  | .load _ _ ptr => [ptr]
  | .store _ ptr val => [ptr,val]
  | .branch dest | .branchInd dest | .call dest | .callInd dest | .ret dest => [dest]
  | .cbranch dest cond => [dest,cond]
  | .unary _ _ input => [input]
  | .binary _ _ left right => [left,right]
  | .subpiece _ input _ => [input]
  | .callOther _ _ inputs => inputs

-- `visit_reads_mut`: the same varnodes, updated in place.
def mapReads (f : Varnode → Varnode) : PcodeOp → PcodeOp
  | .copy out input => .copy out (f input)
  | .load out space ptr => .load out space (f ptr)
  | .store space ptr val => .store space (f ptr) (f val)
  | .branch dest => .branch (f dest)
  | .cbranch dest cond => .cbranch (f dest) (f cond)
  | .branchInd dest => .branchInd (f dest)
  | .call dest => .call (f dest)
  | .callInd dest => .callInd (f dest)
  | .ret dest => .ret (f dest)
  | .unary op out input => .unary op out (f input)
  | .binary op out left right => .binary op out (f left) (f right)
  | .subpiece out input lsb => .subpiece out (f input) lsb
  | .callOther out funcId inputs => .callOther out funcId (inputs.map f)

def countReads (op : PcodeOp) (target : Varnode) : Nat := (reads op).count target

def readsVarnode (op : PcodeOp) (target : Varnode) : Bool := 0 < countReads op target

def replaceReads (op : PcodeOp) (target replacement : Varnode) : PcodeOp :=
  mapReads (fun v => if v = target then replacement else v) op

-- `offset_unique_varnodes`: the output goes through `get_output_mut`, so a
-- CallOther keeps the offset of its output while its inputs move.
def offsetUnique (offset : UInt64) (v : Varnode) : Varnode :=
  if v.space = .unique then { v with offset := v.offset + offset } else v

def offsetUniqueVarnodes (op : PcodeOp) (offset : UInt64) : PcodeOp :=
  mapReads (offsetUnique offset) (mapOutput (offsetUnique offset) op)

-- Every varnode an op writes, CallOther included.
def writes : PcodeOp → Option Varnode
  | .callOther out _ _ => out
  | op => getOutput op

def varnodes (op : PcodeOp) : List Varnode := reads op ++ (writes op).toList

@[simp] theorem reads_mapReads (f : Varnode → Varnode) (op : PcodeOp) :
    reads (mapReads f op) = (reads op).map f := by
  cases op <;> rfl

@[simp] theorem mapReads_id (op : PcodeOp) : mapReads id op = op := by
  cases op <;> simp [mapReads]

@[simp] theorem reads_mapOutput (f : Varnode → Varnode) (op : PcodeOp) :
    reads (mapOutput f op) = reads op := by
  cases op <;> rfl

@[simp] theorem getOutput_mapReads (f : Varnode → Varnode) (op : PcodeOp) :
    getOutput (mapReads f op) = getOutput op := by
  cases op <;> rfl

@[simp] theorem getOutput_mapOutput (f : Varnode → Varnode) (op : PcodeOp) :
    getOutput (mapOutput f op) = (getOutput op).map f := by
  cases op <;> rfl

@[simp] theorem writes_mapReads (f : Varnode → Varnode) (op : PcodeOp) :
    writes (mapReads f op) = writes op := by
  cases op <;> rfl

theorem writes_of_output (output : getOutput op = some out) : writes op = some out := by
  cases op <;> simp_all [getOutput,writes]

theorem writes_mapOutput (output : getOutput op = some out) (f : Varnode → Varnode) :
    writes (mapOutput f op) = some (f out) := by
  apply writes_of_output
  rw [getOutput_mapOutput,output]
  rfl

theorem writesTo_iff : writesTo op target = true ↔ writes op = some target := by
  cases op with
  | callOther out funcId inputs => cases out <;> simp [writesTo,writes,getOutput]
  | _ => simp [writesTo,writes]

theorem countReads_zero : countReads op target = 0 ↔ target ∉ reads op := List.count_eq_zero

end Rsleigh.Pcode
