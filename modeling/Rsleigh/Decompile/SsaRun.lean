import Rsleigh.Decompile.Values

namespace Rsleigh.Decompile

open Pcode

-- What a run of a function shows, with the bytes that it loads, in the order of time. Calls and user operations may
-- write any byte.
inductive SsaEffect where
  | load (cells : List Cell)
  | store (addr val : VarId) (cells : List Cell) (value : Nat)
  | call (target : CallTarget) (args : List Nat) (written : List (Cell × UInt8))
  | userOp (funcId : UInt64) (inputs : List Nat) (written : List (Cell × UInt8))
  | branch (taken : Bool)
  | ret (value : Option Nat)
  | indirect (dest : Nat)
  deriving DecidableEq

def SsaEffect.isExternal : SsaEffect → Bool
  | .call _ _ _ | .userOp _ _ _ => true
  | _ => false

-- What the function does not determine: the answers of calls and user operations, incoming values, and which operand
-- of a phi stands for which edge. All may depend on the calls and user operations so far.
structure SsaWorld where
  env : Env
  result : List SsaEffect → Nat
  writes : List SsaEffect → List (Cell × UInt8)
  unknown : List SsaEffect → VarId → Nat
  edge : BlockId → BlockId → Nat

-- `entered` are the values at the entry of the block, which its phis read.
structure SsaState where
  val : VarId → Nat
  entered : VarId → Nat
  mem : Cell → UInt8
  log : List SsaEffect

def Stmt.binds : Stmt → Option VarId
  | .assign id => some id
  | .call _ _ out => out
  | .store _ _ => none

def SsaTerminator.binds : SsaTerminator → Option VarId
  | .call _ _ out _ => out
  | _ => none

-- A variable that no statement assigns stands for its expression.
def placed (ssa : SsaCfg) (id : VarId) : Bool :=
  ssa.blocks.any fun block => block.stmts.any (·.binds == some id) || block.terminator.binds == some id

def Access.space : Option Access → AddressSpaceId
  | some (.load space _ _) | some (.store space) => space
  | none => .ram

namespace SsaState

variable (world : SsaWorld) (ssa : SsaCfg)

def accessCells (space : AddressSpaceId) (addr : Nat) (size : UInt32) : List Cell :=
  (⟨space, UInt64.ofNat addr, size⟩ : Varnode).cells world.env

-- The value of an expression and the bytes loaded for it, given those of its operands.
def exprRead (s : SsaState) (operand : VarId → Nat × List Cell) (id : VarId) : Nat × List Cell :=
  let vdef := varAt ssa.vars id
  match vdef.expr with
  | .load ptr =>
    let cells := accessCells world (Access.space vdef.memory) (operand ptr).1 vdef.size
    (ByteStore.load s.mem cells, (operand ptr).2 ++ cells)
  | .fieldAccess base offset =>
    let cells := accessCells world (Access.space vdef.memory) ((operand base).1 + offset.toNat) vdef.size
    (ByteStore.load s.mem cells, (operand base).2 ++ cells)
  | .phi _ | .userOp _ _ | .unknown => (s.val id, [])
  | expr =>
    ((exprValue world.env ssa.vars (fun used => (operand used).1) vdef.size expr).getD 0 % 2 ^ (8 * vdef.size.toNat),
      expr.operands.flatMap fun used => (operand used).2)

def read (s : SsaState) : Nat → VarId → Nat × List Cell
  | 0, id => (s.val id, [])
  | levels + 1, id => if placed ssa id then (s.val id, []) else s.exprRead world ssa (read s levels) id

-- More levels than there are variables, which is enough without cycles.
def operand (s : SsaState) (id : VarId) : Nat × List Cell := s.read world ssa (ssa.vars.length + 1) id

def emit (s : SsaState) (effect : SsaEffect) : SsaState := { s with log := s.log ++ [effect] }

def loading (s : SsaState) (cells : List Cell) : SsaState := if cells = [] then s else s.emit (.load cells)

def assign (s : SsaState) (id : VarId) (value : Nat) : SsaState := { s with val := Function.update s.val id value }

def externals (s : SsaState) : List SsaEffect := s.log.filter (·.isExternal)

-- A call or a user operation, given what it shows when it writes these bytes.
def external (s : SsaState) (effect : List (Cell × UInt8) → SsaEffect) (out : Option VarId) : SsaState :=
  let history := s.externals ++ [effect []]
  let written := world.writes history
  let after := { s with mem := written.foldl (fun mem (byte : Cell × UInt8) => Function.update mem byte.1 byte.2) s.mem }
  let shown := after.emit (effect written)
  match out with
  | some id => shown.assign id (world.result history)
  | none => shown

def loads (s : SsaState) (ids : List VarId) : List Cell := ids.flatMap fun id => (s.operand world ssa id).2

def values (s : SsaState) (ids : List VarId) : List Nat := ids.map fun id => (s.operand world ssa id).1

def stmt (block prev : BlockId) (s : SsaState) : Stmt → SsaState
  | .assign id =>
    match (varAt ssa.vars id).expr with
    | .phi inputs =>
      let entry := { s with val := s.entered }
      let chosen := (inputs[world.edge prev block]?).elim (0, []) (entry.operand world ssa)
      (s.loading chosen.2).assign id chosen.1
    | .userOp funcId inputs =>
      (s.loading (s.loads world ssa inputs)).external world (.userOp funcId (s.values world ssa inputs)) (some id)
    | .unknown => s.assign id (world.unknown s.externals id)
    | _ =>
      let computed := s.exprRead world ssa (s.operand world ssa) id
      (s.loading computed.2).assign id computed.1
  | .store addr val =>
    let vdef := varAt ssa.vars val
    let cells := accessCells world (Access.space vdef.memory) (s.operand world ssa addr).1 vdef.size
    let value := (s.operand world ssa val).1
    let stored := { s.loading (s.loads world ssa [addr,val]) with mem := ByteStore.store s.mem cells value }
    stored.emit (.store addr val cells value)
  | .call target args out =>
    (s.loading (s.loads world ssa args)).external world (.call target (s.values world ssa args)) out

-- The block that is next, if the run goes on.
def terminator (s : SsaState) : SsaTerminator → Option BlockId × SsaState
  | .fallthrough next | .branch next => (some next, s)
  | .cbranch cond taken next =>
    let holds := (s.operand world ssa cond).1 != 0
    (some (if holds then taken else next), (s.loading (s.loads world ssa [cond])).emit (.branch holds))
  | .call target args out next =>
    (some next, (s.loading (s.loads world ssa args)).external world (.call target (s.values world ssa args)) out)
  | .ret value =>
    (none, (s.loading (s.loads world ssa value.toList)).emit (.ret (value.map fun id => (s.operand world ssa id).1)))
  | .indirect dest => (none, (s.loading (s.loads world ssa [dest])).emit (.indirect (s.operand world ssa dest).1))

def block (id prev : BlockId) (s : SsaState) (body : SsaBlock) : Option BlockId × SsaState :=
  (body.stmts.foldl (stmt world ssa id prev) { s with entered := s.val }).terminator world ssa body.terminator

-- A run through at most so many blocks, where it ends.
def run : Nat → BlockId → BlockId → SsaState → Option SsaState
  | 0, _, _, _ => none
  | steps + 1, id, prev, s =>
    match ssa.blocks[id]? with
    | none => none
    | some body =>
      match s.block world ssa id prev body with
      | (none, after) => some after
      | (some next, after) => run steps next id after

end SsaState

end Rsleigh.Decompile
