import Rsleigh.Decompile.Regions
import Rsleigh.Decompile.TaintPaths
import Rsleigh.Lib.Collect

namespace Rsleigh.Decompile.Lineage

open Pcode Regions TaintPaths Collect

-- smt_explore.rs.
section Keys

variable (vars : List VarDef)

def constValueFrom : Nat → VarId → Option UInt64
  | 0, _ => none
  | fuel + 1, id =>
    match vars[id]? with
    | some v =>
      match v.expr with
      | .const c _ => some c
      | .var arg => constValueFrom fuel arg
      | _ => none
    | none => none

def constValue (id : VarId) : Option UInt64 := constValueFrom vars 16 id

-- A chain of copies that is longer than the table comes back to itself, and the source does not come to its end.
def classifyOffsetFrom : Nat → VarId → OffsetClass
  | 0, _ => .constOffset 0
  | fuel + 1, id =>
    match vars[id]? with
    | some v =>
      match v.expr with
      | .fieldAccess _ offset => .constOffset offset
      | .binOp .add a b =>
        match constValue vars a with
        | some c => .constOffset c
        | none =>
          match constValue vars b with
          | some c => .constOffset c
          | none => .symbolic
      | .binOp .sub a b =>
        match constValue vars b with
        | some c =>
          match constValue vars a with
          | some ca => .constOffset (ca - c)
          | none => .constOffset (0 - c)
        | none => .symbolic
      | .var arg => classifyOffsetFrom fuel arg
      | .const c _ => .constOffset c
      | _ => .constOffset 0
    | none => .constOffset 0

def classifyOffset (id : VarId) : OffsetClass := classifyOffsetFrom vars (vars.length + 1) id

end Keys

abbrev MemKey := Option AllocSite × OffsetClass

section Chains

variable (ssa : SsaCfg) (params : VarId → Option UInt8)

def memKey (addr : VarId) : MemKey := (regionOf ssa params addr, classifyOffset ssa.vars addr)

def insertStore (mem : MemKey → Option VarId) (event : TaintEvent) : MemKey → Option VarId :=
  match event.kind with
  | .store addr val => Function.update mem (memKey ssa params addr) (some val)
  | _ => mem

def buildMemMap (events : List TaintEvent) : MemKey → Option VarId := events.foldl (insertStore ssa params) fun _ => none

def addCall (args : List VarId) (out : Option VarId) (calls : VarId → Option (List VarId)) : VarId → Option (List VarId) :=
  match out with
  | some out => Function.update calls out (some args)
  | none => calls

def addStmtCall (calls : VarId → Option (List VarId)) : Stmt → VarId → Option (List VarId)
  | .call _ args out => addCall args out calls
  | _ => calls

def addBlockCalls (calls : VarId → Option (List VarId)) (block : SsaBlock) : VarId → Option (List VarId) :=
  match block.terminator with
  | .call _ args out _ => addCall args out (block.stmts.foldl addStmtCall calls)
  | _ => block.stmts.foldl addStmtCall calls

def buildCallReturnMap : VarId → Option (List VarId) := ssa.blocks.foldl addBlockCalls fun _ => none

inductive AliasKey where
  | varnode (v : Varnode)
  | region (site : Option AllocSite) (offset : OffsetClass)
  deriving DecidableEq

def aliasKeys (id : VarId) : List AliasKey :=
  match ssa.vars[id]? with
  | some v =>
    (if v.varnode.space ≠ .register ∧ v.callReturn = false then [.varnode v.varnode] else []) ++
      match regionOf ssa params id with
      | some (.unknown _) | none => []
      | site => [.region site (classifyOffset ssa.vars id)]
  | none => []

variable (mem : MemKey → Option VarId)

-- The stored value that a load goes on at. A store at a symbolic offset counts for all offsets of its region.
def loadNext (addr : VarId) : Option VarId :=
  match mem (memKey ssa params addr) with
  | some stored => some stored
  | none => mem ((memKey ssa params addr).1, .symbolic)

def exprNext : Expr → List VarId
  | .var arg => [arg]
  | .load addr => (loadNext ssa params mem addr).toList
  | .binOp _ a b => [a, b]
  | .unaryOp _ a => [a]
  | .fieldAccess base _ => [base]
  | .phi args => args
  | _ => []

-- What is pushed for a variable, the last one first.
def chainNext (boundedOuts : VarId → Bool) (id : VarId) : List VarId :=
  let args := if boundedOuts id then [] else (buildCallReturnMap ssa id).getD []
  match ssa.vars[id]? with
  | some v => (args ++ exprNext ssa params mem v.expr).reverse
  | none => args.reverse

def chainVarnodesWithBound (boundedOuts : VarId → Bool) (start : VarId) : List AliasKey :=
  collect 64 (chainNext ssa params mem boundedOuts) (aliasKeys ssa params) [start] [] []

def chainVarnodes (start : VarId) : List AliasKey := chainVarnodesWithBound ssa params mem (fun _ => false) start

def varidLineageEq (a b : VarId) : Bool :=
  if a = b then true
  else (chainVarnodes ssa params mem a).any fun key => (chainVarnodes ssa params mem b).contains key

end Chains

section Check

def argAt (args : List VarId) (slot : AbiSlot) (out : Option VarId) : Option VarId :=
  match slot with
  | .arg n => args[n.toNat]?
  | .ret => out
  | .global _ => none

def sourceVar (path : TaintPath) : Option VarId :=
  match path.events[path.sourceEvent]? with
  | some ⟨_, .sourceCall _ args out _⟩ => argAt args path.source.tainted out
  | _ => none

def sinkVar (path : TaintPath) : Option VarId :=
  match path.events[path.sinkEvent]? with
  | some ⟨_, .sinkCall _ args out _⟩ => argAt args path.sink.watched out
  | _ => none

def inRegion (site : Option AllocSite) : AliasKey → Bool
  | .region other _ => other == site
  | .varnode _ => false

variable (ssa : SsaCfg) (params : VarId → Option UInt8) (path : TaintPath)

-- The check that `solve` makes before it asks the solver. Where it fails the path is NotReachable.
def lineageOk (src snk : VarId) : Bool :=
  let mem := buildMemMap ssa params path.events
  if path.source.name = "argv" then
    (chainVarnodes ssa params mem snk).any (inRegion (regionOf ssa params src)) || varidLineageEq ssa params mem snk src
  else varidLineageEq ssa params mem snk src

end Check

end Rsleigh.Decompile.Lineage
