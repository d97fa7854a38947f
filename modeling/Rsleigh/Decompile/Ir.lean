import Rsleigh.Pcode.Op

namespace Rsleigh.Decompile

open Pcode

-- rsleigh-decompile/src/ir.rs. A block is named by its index, in both graphs.
abbrev BlockId := Nat

abbrev VarId := Nat

inductive Severity where
  | info
  | warn
  | error
  deriving DecidableEq

inductive DiagKind where
  | unresolvedBranchTarget
  | stackAliasingUnknown
  | unresolvedIndirectCall
  | tailCall
  | unrecoveredIndirectJump
  deriving DecidableEq

structure Diagnostic where
  severity : Severity
  kind : DiagKind
  addr : Option Nat
  detail : String
  deriving DecidableEq

inductive CallTarget where
  | direct (addr : UInt64)
  | indirect (varnode : Varnode)
  deriving DecidableEq

inductive Terminator where
  | fallthrough (next : BlockId)
  | branch (next : BlockId)
  | cbranch (cond : Varnode) (taken fallthrough : BlockId)
  | call (target : CallTarget) (fallthrough : BlockId)
  | ret
  | indirect (dest : Varnode)
  deriving DecidableEq

structure BasicBlock where
  id : BlockId
  addr : Nat
  ops : List (Nat × PcodeOp)
  terminator : Terminator

structure Cfg where
  blocks : List BasicBlock
  entry : BlockId
  diagnostics : List Diagnostic

def Terminator.successors : Terminator → List BlockId
  | .fallthrough next | .branch next => [next]
  | .cbranch _ taken next => [taken, next]
  | .call _ next => [next]
  | .ret | .indirect _ => []

namespace Cfg

def successors (cfg : Cfg) (block : BlockId) : List BlockId :=
  match cfg.blocks[block]? with
  | some block => block.terminator.successors
  | none => []

-- A block is once a predecessor for each of its edges.
def predecessors (cfg : Cfg) (block : BlockId) : List BlockId :=
  (List.range cfg.blocks.length).flatMap fun pred => ((cfg.successors pred).filter (· = block)).map fun _ => pred

theorem mem_predecessors {cfg : Cfg} {block pred : BlockId} :
    pred ∈ cfg.predecessors block ↔ block ∈ cfg.successors pred := by
  unfold predecessors
  rw [List.mem_flatMap]
  constructor
  · intro found
    obtain ⟨other,_,member⟩ := found
    obtain ⟨next,isNext,same⟩ := List.mem_map.mp member
    obtain ⟨isSuccessor,isBlock⟩ := List.mem_filter.mp isNext
    subst same
    rw [of_decide_eq_true isBlock] at isSuccessor
    exact isSuccessor
  · intro isSuccessor
    have inRange : pred < cfg.blocks.length := by
      by_contra outside
      unfold successors at isSuccessor
      rw [List.getElem?_eq_none (Nat.le_of_not_lt outside)] at isSuccessor
      cases isSuccessor
    refine ⟨pred,List.mem_range.mpr inRange,?_⟩
    exact List.mem_map.mpr ⟨block,List.mem_filter.mpr ⟨isSuccessor,decide_eq_true rfl⟩,rfl⟩

end Cfg

inductive BinOpKind where
  | add | sub | mult | div | sdiv | rem | srem | and | or | xor | lsl | lsr | asr
  | eq | notEq | less | lessEq | sless | slessEq | carry | scarry | sborrow
  | boolAnd | boolOr | boolXor
  | floatAdd | floatSub | floatMult | floatDiv | floatEq | floatNotEq | floatLess | floatLessEq
  deriving DecidableEq

inductive UnaryOpKind where
  | neg | not | zext | sext | boolNot | floatNeg | floatAbs | floatSqrt | floatNan | int2Float | float2Float
  | trunc | floatCeil | floatFloor | floatRound | popcount | lzcount
  deriving DecidableEq

inductive Expr where
  | var (inner : VarId)
  | const (value : UInt64) (size : UInt32)
  | binOp (op : BinOpKind) (left right : VarId)
  | unaryOp (op : UnaryOpKind) (inner : VarId)
  | load (ptr : VarId)
  | fieldAccess (base : VarId) (offset : UInt64)
  | phi (inputs : List VarId)
  | ternary (cond then_ else_ : VarId)
  | userOp (funcId : UInt64) (inputs : List VarId)
  | unknown
  deriving DecidableEq

-- memory.rs: why a load is not forwarded, and what is known of an access to memory.
inductive Boundary where
  | unmodeledMemory
  | ambiguousAlias
  | overlappingStore
  | unsupportedSideEffects
  | unsupportedAddressSpace
  | memoryStateLimit
  | memoryTraversalLimit
  deriving DecidableEq

inductive Access where
  | store (space : AddressSpaceId)
  | load (space : AddressSpaceId) (stores : List VarId) (boundary : Option Boundary)
  deriving DecidableEq

structure VarDef where
  varnode : Varnode
  expr : Expr
  memory : Option Access
  size : UInt32
  callReturn : Bool
  deriving DecidableEq

inductive Stmt where
  | assign (id : VarId)
  | store (addr val : VarId)
  | call (target : CallTarget) (args : List VarId) (out : Option VarId)
  deriving DecidableEq

inductive SsaTerminator where
  | fallthrough (next : BlockId)
  | branch (next : BlockId)
  | cbranch (cond : VarId) (taken fallthrough : BlockId)
  | call (target : CallTarget) (args : List VarId) (out : Option VarId) (fallthrough : BlockId)
  | ret (value : Option VarId)
  | indirect (dest : VarId)
  deriving DecidableEq

structure SsaBlock where
  addr : Nat
  stmts : List Stmt
  terminator : SsaTerminator

structure SsaCfg where
  blocks : List SsaBlock
  vars : List VarDef
  entry : BlockId
  diagnostics : List Diagnostic

namespace SsaCfg

-- What is read of a variable that is not there.
def sentinel : VarDef where
  varnode := ⟨.const, 0, 0⟩
  expr := .unknown
  memory := none
  size := 0
  callReturn := false

def var (ssa : SsaCfg) (id : VarId) : VarDef :=
  (ssa.vars[id]?).getD sentinel

def newVar (ssa : SsaCfg) (varnode : Varnode) (expr : Expr) (size : UInt32) : VarId × SsaCfg :=
  (ssa.vars.length, { ssa with vars := ssa.vars ++ [⟨varnode, expr, none, size, false⟩] })

-- `var_mut` of a variable that is there.
def modifyVar (ssa : SsaCfg) (id : VarId) (f : VarDef → VarDef) : SsaCfg :=
  { ssa with vars := ssa.vars.modify id f }

theorem var_modify (ssa : SsaCfg) (id other : VarId) (f : VarDef → VarDef) (inRange : id < ssa.vars.length) :
    (ssa.modifyVar id f).var other = if other = id then f (ssa.var other) else ssa.var other := by
  unfold var modifyVar
  rw [List.getElem?_modify]
  by_cases same : id = other
  · subst same
    rw [if_pos rfl,List.getElem?_eq_getElem inRange]
    simp
  · rw [if_neg (Ne.symm same)]
    simp [same]

theorem var_newVar (ssa : SsaCfg) (varnode : Varnode) (expr : Expr) (size : UInt32) {id : VarId}
    (inRange : id < ssa.vars.length) : (ssa.newVar varnode expr size).2.var id = ssa.var id := by
  unfold var newVar
  rw [List.getElem?_append_left inRange]

end SsaCfg

end Rsleigh.Decompile
