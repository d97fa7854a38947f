import Mathlib.Logic.Function.Iterate
import Rsleigh.Decompile.FunctionSummary

namespace Rsleigh.Decompile.Regions

open Pcode

-- region.rs. A region is named by its site: the source numbers the sites as it meets them.
inductive AllocSite where
  | param (n : UInt8)
  | stackFrame
  | global (addr : UInt64)
  | heap (callSite : UInt64)
  | const (value : UInt64)
  | unknown (id : VarId)
  deriving DecidableEq

-- The bits of the signed offset.
inductive OffsetClass where
  | constOffset (offset : UInt64)
  | symbolic
  deriving DecidableEq

abbrev Sites := VarId → Option AllocSite

section Infer

variable (ssa : SsaCfg)

def addHeapReturn (target : CallTarget) (out : Option VarId) (heap : VarId → Option UInt64) : VarId → Option UInt64 :=
  match target, out with
  | .direct addr, some out => Function.update heap out (some addr)
  | _, _ => heap

def addStmtReturn (heap : VarId → Option UInt64) : Stmt → VarId → Option UInt64
  | .call target _ out => addHeapReturn target out heap
  | _ => heap

def addBlockReturns (heap : VarId → Option UInt64) (block : SsaBlock) : VarId → Option UInt64 :=
  match block.terminator with
  | .call target _ out _ => addHeapReturn target out (block.stmts.foldl addStmtReturn heap)
  | _ => block.stmts.foldl addStmtReturn heap

def collectHeapReturns : VarId → Option UInt64 := ssa.blocks.foldl addBlockReturns fun _ => none

def addVarnodeStore (stores : Varnode → Option VarId) : Stmt → Varnode → Option VarId
  | .store addr val =>
    match ssa.vars[addr]? with
    | some v => Function.update stores v.varnode (some val)
    | none => stores
  | _ => stores

def buildVarnodeMap : Varnode → Option VarId :=
  ssa.blocks.foldl (fun stores block => block.stmts.foldl (addVarnodeStore ssa) stores) fun _ => none

-- SpillMap::lookup: by the canonical form of the address, which is that of function_summary.rs, or by its varnode.
def spillLookup (addr : VarId) : Option VarId :=
  match (addrCanon ssa.vars addr).bind (buildStoreMap ssa) with
  | some stored => some stored
  | none => (ssa.vars[addr]?).bind fun v => buildVarnodeMap ssa v.varnode

-- A name `param_N` is a parameter of the model.
variable (params : VarId → Option UInt8)

def classify (sites : Sites) (id : VarId) (v : VarDef) : Option AllocSite :=
  match params id with
  | some n => some (.param n)
  | none =>
    if v.callReturn then (collectHeapReturns ssa id).map .heap
    else
      match v.expr with
      | .const c _ => if v.varnode.space = .ram ∧ c ≠ 0 then some (.global c) else some (.const c)
      | .var arg => sites arg
      | .binOp _ a b => (sites a).or (sites b)
      | .unaryOp _ a => sites a
      | .fieldAccess base offset => ((buildStoreMap ssa (fieldAccessCanon ssa.vars base offset)).bind sites).or (sites base)
      | .load addr => ((spillLookup ssa addr).bind sites).or (sites addr)
      | .phi args => args.findSome? sites
      | .unknown => if v.varnode.space = .register then some .stackFrame else none
      | _ => none

-- One variable of a round. The variables before it have their sites of this round already.
def settle (sites : Sites) (id : VarId) : Sites :=
  match ssa.vars[id]? with
  | some v => Function.update sites id (classify ssa params sites id v)
  | none => sites

def sweep (sites : Sites) : Sites := (List.range ssa.vars.length).foldl (settle ssa params) sites

def rounds : Nat → Sites → Sites
  | 0, sites => sites
  | fuel + 1, sites =>
    let swept := sweep ssa params sites
    if (List.range ssa.vars.length).all fun id => swept id == sites id then swept else rounds fuel swept

-- What is left is a region of its own.
def regionOf (id : VarId) : Option AllocSite :=
  if id < ssa.vars.length then some ((rounds ssa params 4 (fun _ => none) id).getD (.unknown id)) else none

end Infer

section Rounds

variable {ssa : SsaCfg} {params : VarId → Option UInt8}

-- The sites when the variables before one have been classified.
def partway (ssa : SsaCfg) (params : VarId → Option UInt8) (sites : Sites) (id : VarId) : Sites :=
  (List.range id).foldl (settle ssa params) sites

theorem partway_succ (sites : Sites) (id : Nat) :
    partway ssa params sites (id + 1) = settle ssa params (partway ssa params sites id) id := by
  unfold partway
  rw [List.range_succ,List.foldl_append]
  rfl

theorem settle_other (sites : Sites) {id other : Nat} (apart : other ≠ id) : settle ssa params sites id other = sites other := by
  unfold settle
  cases ssa.vars[id]? with
  | some v => exact Function.update_of_ne apart _ _
  | none => rfl

theorem partway_later (sites : Sites) {id other : Nat} (later : id ≤ other) : partway ssa params sites id other = sites other := by
  induction id with
  | zero => rfl
  | succ id ih =>
    rw [partway_succ,settle_other _ (by omega),ih (by omega)]

theorem partway_kept (sites : Sites) {id bound other : Nat} (earlier : other < id) (order : id ≤ bound) :
    partway ssa params sites bound other = partway ssa params sites id other := by
  induction bound with
  | zero => omega
  | succ bound ih =>
    by_cases same : id = bound + 1
    · rw [same]
    · rw [partway_succ,settle_other _ (by omega),ih (by omega)]

theorem sweep_at (sites : Sites) {id : Nat} (isVar : ssa.vars[id]? = some v) :
    sweep ssa params sites id = classify ssa params (partway ssa params sites id) id v := by
  have inRange : id < ssa.vars.length := (List.getElem?_eq_some_iff.mp isVar).1
  change partway ssa params sites ssa.vars.length id = _
  rw [partway_kept sites (Nat.lt_succ_self id) inRange,partway_succ]
  unfold settle
  rw [isVar]
  exact Function.update_self _ _ _

theorem partway_earlier (sites : Sites) {id other : Nat} (earlier : other < id) (inRange : id ≤ ssa.vars.length) :
    partway ssa params sites id other = sweep ssa params sites other := (partway_kept sites earlier inRange).symm

theorem sweep_outside (sites : Sites) {id : Nat} (outside : ssa.vars.length ≤ id) : sweep ssa params sites id = sites id :=
  partway_later sites outside

theorem rounds_iterate (fuel : Nat) (sites : Sites) : rounds ssa params fuel sites = (sweep ssa params)^[fuel] sites := by
  induction fuel generalizing sites with
  | zero => rfl
  | succ fuel ih =>
    unfold rounds
    simp only
    split
    · rename_i unchanged
      have same : sweep ssa params sites = sites := by
        funext id
        by_cases inRange : id < ssa.vars.length
        · exact beq_iff_eq.mp (List.all_eq_true.mp unchanged id (List.mem_range.mpr inRange))
        · exact sweep_outside sites (Nat.le_of_not_lt inRange)
      rw [same,Function.iterate_fixed same]
    · rw [ih,Function.iterate_succ_apply]

end Rounds

end Rsleigh.Decompile.Regions
