import Rsleigh.Decompile.Ir

namespace Rsleigh.Decompile.IndirectTargets

open Pcode

-- cfg.rs. The addresses of the ops are read by nothing here.
def writesAt (v : Varnode) (op : PcodeOp) : Bool :=
  (getOutput op).any fun out => out.space == v.space && out.offset == v.offset

-- `rposition` among the first ops.
def rposition (wanted : PcodeOp → Bool) (ops : List PcodeOp) : Nat → Option Nat
  | 0 => none
  | end_ + 1 => if (ops[end_]?).any wanted then some end_ else rposition wanted ops end_

def producer (ops : List PcodeOp) (end_ : Nat) (v : Varnode) : Option Nat := rposition (writesAt v) ops end_

-- The op a walk from the end of a block stops at.
def lastWriter (ops : List PcodeOp) (v : Varnode) : Option PcodeOp :=
  (producer ops ops.length v).bind fun place => ops[place]?

section Shapes

variable (ops : List PcodeOp)

-- The fuel is the depth that is left.
def constantDerived : Nat → Nat → Varnode → Bool
  | 0, _, v => decide (v.space = .const)
  | fuel + 1, end_, v =>
    if v.space = .const then true
    else
      match producer ops end_ v with
      | some place =>
        match ops[place]? with
        | some (.copy _ input) | some (.unary .intSext _ input) | some (.unary .intZext _ input)
        | some (.subpiece _ input _) => constantDerived fuel place input
        | _ => false
      | none => false

def computesIndex : Nat → Nat → Bool
  | 0, _ => false
  | fuel + 1, place =>
    let traced (v : Varnode) : Bool := (producer ops place v).any (computesIndex fuel)
    match ops[place]? with
    | some (.binary .intMult _ _ _) | some (.binary .intLsl _ _ _) => true
    | some (.binary .intAdd _ left right) =>
      if !constantDerived ops 5 place left && !constantDerived ops 5 place right then true
      else traced left || traced right
    | some (.copy _ input) | some (.unary .intSext _ input) | some (.unary .intZext _ input) => traced input
    | some (.load _ _ ptr) => traced ptr
    | _ => false

end Shapes

-- The bit that tells the pointer apart from the temporary that holds its address.
def pointerBit : UInt64 := 0x4000000000000000

section TailTarget

variable (ops : List PcodeOp) (dest : Varnode)

-- The fuel is what is left of the eight links.
def tailTrace : Nat → Varnode → Nat → Option CallTarget
  | 0, _, _ => none
  | fuel + 1, v, end_ =>
    match producer ops end_ v with
    | none => some (.indirect dest)
    | some place =>
      match ops[place]? with
      | some (.copy _ input) | some (.unary .intZext _ input) | some (.unary .intSext _ input) =>
        if input.space = .const then some (.direct input.offset) else tailTrace fuel input place
      | some (.load _ _ ptr) =>
        if ptr.space = .const then some (.direct ptr.offset)
        else if computesIndex ops 7 place then none
        else some (.indirect dest)
      | _ => none

-- With the target stands the load that is put at the end of the block.
def indirectJumpTailTarget : Option (CallTarget × Option PcodeOp) :=
  if dest.space = .ram then
    let address : Varnode := { dest with space := .unique }
    match producer ops ops.length address with
    | none => some (.direct dest.offset, none)
    | some place =>
      if computesIndex ops 7 place then none
      else
        let pointer : Varnode := ⟨.unique,dest.offset ||| pointerBit,dest.size⟩
        some (.indirect pointer, some (.load pointer .ram address))
  else (tailTrace ops dest 8 dest ops.length).map fun target => (target, none)

end TailTarget

-- Where a trace goes on after a producer: the address a load reads, another varnode and what is added to it, or a
-- constant.
inductive Follow where
  | slot (ptr : Varnode)
  | onto (v : Varnode) (added : UInt64)
  | constant (value : UInt64)
  | stop
deriving DecidableEq

def follow : PcodeOp → Follow
  | .load _ _ ptr => .slot ptr
  | .binary .intAnd _ left right => .onto (if right.space = .const then left else right) 0
  | .binary .intAdd _ left right =>
    if right.space = .const then .onto left right.offset
    else if left.space = .const then .onto right left.offset
    else .stop
  | .unary .intSext _ input | .unary .intZext _ input => .onto input 0
  | .copy _ input => if input.space = .const then .constant input.offset else .onto input 0
  | _ => .stop

inductive Scanned where
  | clobbered
  | found (op : PcodeOp)
  | absent
deriving DecidableEq

-- The ops before the call, the last one first.
def scanBack (v : Varnode) : List PcodeOp → Scanned
  | [] => .absent
  | op :: rest =>
    match op with
    | .call _ | .callInd _ => .clobbered
    | op => if writesAt v op then .found op else scanBack v rest

section CallTarget

variable (dest : Varnode)

def allOpsTrace (before : List PcodeOp) : Nat → Varnode → UInt64 → CallTarget
  | 0, _, _ => .indirect dest
  | fuel + 1, v, adjustment =>
    match scanBack v before.reverse with
    | .clobbered | .absent => .indirect dest
    | .found op =>
      match follow op with
      | .slot ptr => if ptr.space = .const then .direct (ptr.offset + adjustment) else .indirect dest
      | .onto v added => allOpsTrace before fuel v (adjustment + added)
      | .constant value => .direct (value + adjustment)
      | .stop => .indirect dest

def lastCallInd (allOps : List PcodeOp) : Option Nat :=
  rposition (fun op => op == .callInd dest) allOps allOps.length

def resolveCallindViaAllOps (allOps : List PcodeOp) (v : Varnode) (adjustment : UInt64) : CallTarget :=
  match lastCallInd dest allOps with
  | none => .indirect dest
  | some callIdx => allOpsTrace dest (allOps.take callIdx) 8 v adjustment

-- What resolve_gp_relative_addr answers for the pointer of a load is a parameter.
def blockTrace (gpRelative : Varnode → Option UInt64) (ops allOps : List PcodeOp) : Nat → Varnode → UInt64 → CallTarget
  | 0, _, _ => .indirect dest
  | fuel + 1, v, adjustment =>
    match lastWriter ops v with
    | none => resolveCallindViaAllOps dest allOps v adjustment
    | some op =>
      match follow op with
      | .slot ptr =>
        if ptr.space = .const then .direct (ptr.offset + adjustment)
        else if ptr.space = .unique then
          match gpRelative ptr with
          | some addr => .direct (addr + adjustment)
          | none => .indirect dest
        else .indirect dest
      | .onto v added => blockTrace gpRelative ops allOps fuel v (adjustment + added)
      | .constant value => .direct (value + adjustment)
      | .stop => .indirect dest

def resolveCallindTarget (gpRelative : Varnode → Option UInt64) (ops allOps : List PcodeOp) : CallTarget :=
  blockTrace dest gpRelative ops allOps 8 dest 0

end CallTarget

end Rsleigh.Decompile.IndirectTargets
