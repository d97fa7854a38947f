import Rsleigh.Decompile.Ir
import Rsleigh.Lib.Worklist
import Mathlib

namespace Rsleigh.Decompile

open Pcode

-- fold.rs.
inductive CallingConv where
  | sysV
  | win64
  | goAmd64
  | cdecl32
  | stdcall32
  | thiscall32
  | fastcall32
  | aarch64
  | arm32
  deriving DecidableEq

-- region.rs: an address for the forwarding of stores. The base of the stack is an incoming value.
inductive ExactLocation where
  | global (address : UInt64) (size : UInt32)
  | stack (base : VarId) (displacement : Int) (size : UInt32)
  deriving DecidableEq

namespace ExactLocation

def size : ExactLocation → UInt32
  | .global _ size | .stack _ _ size => size

def overlaps (a : Int) (aSize : UInt32) (b : Int) (bSize : UInt32) : Bool :=
  a < b + bSize.toNat ∧ b < a + aSize.toNat

-- Different bases may be the same.
def mayOverlap : ExactLocation → ExactLocation → Bool
  | .global a sa, .global b sb => overlaps a.toNat sa b.toNat sb
  | .stack a da sa, .stack b db sb => if a = b then overlaps da sa db sb else true
  | _, _ => true

-- The order of the keys in a map.
def lt : ExactLocation → ExactLocation → Bool
  | .global a sa, .global b sb => a < b ∨ a = b ∧ sa < sb
  | .global _ _, .stack _ _ _ => true
  | .stack _ _ _, .global _ _ => false
  | .stack a da sa, .stack b db sb => a < b ∨ a = b ∧ (da < db ∨ da = db ∧ sa < sb)

end ExactLocation

section Exact

variable (ssa : SsaCfg)

def isI64 (value : Int) : Bool :=
  -(2 ^ 63) ≤ value ∧ value < 2 ^ 63

-- The value sign extended from `width` bytes.
def signExtend (value : UInt64) (width : UInt32) : Int :=
  let shift := 64 - width.toNat * 8
  ((value.toBitVec <<< shift).sshiftRight shift).toInt

def inWidth (width : UInt32) : Bool :=
  1 ≤ width ∧ width ≤ 8

def offset (value : UInt64) (width : UInt32) : Option Int :=
  if inWidth width then some (signExtend value width) else none

-- `left` is what is left of the depth. The fuel is shared by both operands.
def constantBits : Nat → VarId → Nat → Option (UInt64 × Nat)
  | 0, _, _ => none
  | _ + 1, _, 0 => none
  | left + 1, id, fuel + 1 => do
    let var ← ssa.vars[id]?
    let mask : UInt64 := 0xffffffffffffffff >>> (64 - var.size.toUInt64 * 8)
    let bits : Option (UInt64 × Nat) := match var.expr with
      | .const value _ => some (value, fuel)
      | .var inner | .unaryOp .zext inner => constantBits left inner fuel
      | .unaryOp .sext inner => do
        let (value, fuel) ← constantBits left inner fuel
        let width ← (ssa.vars[inner]?).map VarDef.size
        if !inWidth width ∨ var.size < width then none
        else some (UInt64.ofInt (signExtend value width), fuel)
      | .binOp .add a b => do
        let (first, fuel) ← constantBits left a fuel
        let (second, fuel) ← constantBits left b fuel
        return (first + second, fuel)
      | .binOp .sub a b => do
        let (first, fuel) ← constantBits left a fuel
        let (second, fuel) ← constantBits left b fuel
        return (first - second, fuel)
      | _ => none
    if inWidth var.size then bits.map fun (value, fuel) => (value &&& mask, fuel) else none

def constant (id : VarId) : Option Int := do
  let (value, _) ← constantBits ssa 64 id 64
  let var ← ssa.vars[id]?
  offset value var.size

-- `width` is the size of the variable that holds the address.
def adjust (width : UInt32) (location : ExactLocation) (displacement : Int) : Option ExactLocation :=
  match location with
  | .global address size =>
    let address := (address.toNat : Int) + displacement
    if address < 0 ∨ 2 ^ 64 ≤ address then none
    else if width < 8 ∧ 2 ^ (width.toNat * 8) ≤ address then none
    else if 2 ^ 64 ≤ address + size.toNat then none
    else some (.global (UInt64.ofInt address) size)
  | .stack base prior size =>
    if isI64 (prior + displacement) then some (.stack base (prior + displacement) size) else none

def resolve (size : UInt32) (frames : List UInt64) : Nat → VarId → Option ExactLocation
  | 0, _ => none
  | left + 1, ptr =>
    if size = 0 then none
    else do
      let var ← ssa.vars[ptr]?
      match var.expr with
      | .const address _ => if address.toNat + size.toNat < 2 ^ 64 then some (.global address size) else none
      | .unknown =>
        if var.varnode.space = .register ∧ var.varnode.offset ∈ frames ∧ !var.callReturn then some (.stack ptr 0 size)
        else none
      | .var inner => resolve size frames left inner
      | .binOp .add a b =>
        match constant ssa b with
        | some displacement => do
          let location ← resolve size frames left a
          adjust var.size location displacement
        | none => do
          let location ← resolve size frames left b
          let displacement ← constant ssa a
          adjust var.size location displacement
      | .binOp .sub a b => do
        let location ← resolve size frames left a
        let displacement ← constant ssa b
        if isI64 (-displacement) then adjust var.size location (-displacement) else none
      | .binOp _ _ _ | .unaryOp _ _ | .load _ | .fieldAccess _ _ | .phi _ | .ternary _ _ _ | .userOp _ _ => none

def frames : CallingConv → List UInt64
  | .sysV | .win64 | .goAmd64 => [32, 40]
  | .cdecl32 | .stdcall32 | .thiscall32 | .fastcall32 => [16, 20]
  | .aarch64 => [8, 16616]
  | .arm32 => [84, 76]

def exactLocation (cc : CallingConv) (ptr : VarId) (size : UInt32) : Option ExactLocation :=
  resolve ssa size (frames cc) 64 ptr

end Exact

def maxLocations : Nat := 1024

def maxStores : Nat := 8

-- The stores that may be the last ones to each location, by location.
structure MemoryState where
  values : List (ExactLocation × List VarId)
  boundary : Boundary
  deriving DecidableEq

-- Keys and stores are in order.
def insertStore (store : VarId) : List VarId → List VarId
  | [] => [store]
  | first :: rest =>
    if store < first then store :: first :: rest
    else if store = first then first :: rest
    else first :: insertStore store rest

def insertValue (location : ExactLocation) (stores : List VarId) :
    List (ExactLocation × List VarId) → List (ExactLocation × List VarId)
  | [] => [(location, stores)]
  | (key, values) :: rest =>
    if location.lt key then (location, stores) :: (key, values) :: rest
    else if location = key then (location, stores) :: rest
    else (key, values) :: insertValue location stores rest

-- The store is to another space than the memory's.
def elsewhere (ssa : SsaCfg) (val : VarId) : Bool :=
  match (ssa.var val).memory with
  | some (.store space) => space != .ram
  | _ => false

namespace MemoryState

def empty (boundary : Boundary) : MemoryState where
  values := []
  boundary := boundary

def get (state : MemoryState) (location : ExactLocation) : Option (List VarId) :=
  state.values.lookup location

def invalidate (_ : MemoryState) (boundary : Boundary) : MemoryState :=
  empty boundary

-- What overlaps the store is forgotten.
def retain (state : MemoryState) (location : ExactLocation) : MemoryState where
  values := state.values.filter fun (key, _) => !key.mayOverlap location
  boundary :=
    if state.values.any fun (key, _) => key.mayOverlap location && key != location then .overlappingStore
    else state.boundary

def store (ssa : SsaCfg) (cc : CallingConv) (state : MemoryState) (addr val : VarId) : MemoryState :=
  if elsewhere ssa val then state.invalidate .unsupportedAddressSpace
  else
    match exactLocation ssa cc addr (ssa.var val).size with
    | none => state.invalidate .ambiguousAlias
    | some location =>
      let state := state.retain location
      let state := if maxLocations ≤ state.values.length then state.invalidate .memoryStateLimit else state
      { state with values := insertValue location [val] state.values }

def step (ssa : SsaCfg) (cc : CallingConv) (state : MemoryState) : Stmt → MemoryState
  | .store addr val => state.store ssa cc addr val
  | .call _ _ _ => state.invalidate .unsupportedSideEffects
  | .assign id =>
    match (ssa.var id).expr with
    | .userOp _ _ => state.invalidate .unsupportedSideEffects
    | _ => state

-- What is known at the end of two blocks: the boundary is that of the last location that is lost.
def mergeValues (other : MemoryState) :
    List (ExactLocation × List VarId) → Boundary → List (ExactLocation × List VarId) × Boundary
  | [], boundary => ([], boundary)
  | (key, values) :: rest, boundary =>
    match other.get key with
    | none => mergeValues other rest other.boundary
    | some inputs =>
      let values := inputs.foldl (fun values store => insertStore store values) values
      if values.length ≤ maxStores then
        let (kept, boundary) := mergeValues other rest boundary
        ((key, values) :: kept, boundary)
      else mergeValues other rest .memoryStateLimit

def merge (preds : List BlockId) (exits : BlockId → MemoryState) : MemoryState :=
  match preds with
  | [] => empty .unmodeledMemory
  | first :: rest =>
    rest.foldl (fun result pred =>
      let (values, boundary) := mergeValues (exits pred) result.values result.boundary
      { values := values, boundary := boundary }) (exits first)

end MemoryState

section Forward

variable (cfg : Cfg) (cc : CallingConv)

-- What leaves a block: a call at its end may write any memory.
def exitState (ssa : SsaCfg) (block : SsaBlock) (state : MemoryState) : MemoryState :=
  let state := block.stmts.foldl (MemoryState.step ssa cc) state
  match block.terminator with
  | .call _ _ _ _ => state.invalidate .unsupportedSideEffects
  | _ => state

def reachingStores (ssa : SsaCfg) : Worklist.Problem MemoryState where
  join block exits :=
    if block = cfg.entry then .empty .unmodeledMemory else MemoryState.merge (cfg.predecessors block) exits
  transfer block state :=
    match ssa.blocks[block]? with
    | some block => exitState cc ssa block state
    | none => state
  successors := cfg.successors

def reachingStart : Worklist.State MemoryState where
  queue := List.range cfg.blocks.length
  entries _ := .empty .unmodeledMemory
  exits _ := .empty .unmodeledMemory

-- What the stores before a load say of it, at its position.
def annotate (ssa : SsaCfg) (state : MemoryState) (id ptr : VarId) : AddressSpaceId × List VarId × Option Boundary :=
  let space := match (ssa.var id).memory with
    | some (.load space _ _) => space
    | _ => .ram
  if space ≠ .ram then (space, [], some .unsupportedAddressSpace)
  else
    match exactLocation ssa cc ptr (ssa.var id).size with
    | some location =>
      match state.get location with
      | some stores => (space, stores, none)
      | none => (space, [], some state.boundary)
    | none => (space, [], some (if state.values.isEmpty then state.boundary else .ambiguousAlias))

-- The variable that a forwarded load is a copy of.
def forwarded (ssa : SsaCfg) (stores : List VarId) (size : UInt32) : Option VarId × SsaCfg :=
  match stores with
  | [] => (none, ssa)
  | [single] => (some single, ssa)
  | stores =>
    let (id, ssa) := ssa.newVar (.unique (0xF0000000 + UInt64.ofNat ssa.vars.length) size) (.phi stores) size
    (some id, ssa)

def applyStmt (ssa : SsaCfg) (state : MemoryState) (stmt : Stmt) : SsaCfg :=
  match stmt with
  | .assign id =>
    match (ssa.var id).expr with
    | .load ptr =>
      let (space, stores, boundary) := annotate cc ssa state id ptr
      let size := (ssa.var id).size
      let ssa := ssa.modifyVar id fun var => { var with memory := some (.load space stores boundary) }
      let (value, ssa) := forwarded ssa stores size
      match value with
      | some value => ssa.modifyVar id fun var => { var with expr := .var value }
      | none => ssa
    | _ => ssa
  | _ => ssa

def applyBlock : List Stmt → SsaCfg → MemoryState → SsaCfg
  | [], ssa, _ => ssa
  | stmt :: rest, ssa, state =>
    let ssa := applyStmt cc ssa state stmt
    applyBlock rest ssa (state.step ssa cc stmt)

-- The blocks are in their order of storage, from the block `first` on.
def applyBlocks (entries : BlockId → MemoryState) : List SsaBlock → BlockId → SsaCfg → SsaCfg
  | [], _, ssa => ssa
  | block :: rest, first, ssa =>
    applyBlocks entries rest (first + 1) (applyBlock cc block.stmts ssa (entries first))

def forward (ssa : SsaCfg) : SsaCfg :=
  let result := Worklist.run (reachingStores cfg cc ssa) (cfg.blocks.length * 64) (reachingStart cfg)
  if result.queue.isEmpty then applyBlocks cc result.entries (ssa.blocks.take cfg.blocks.length) 0 ssa
  else
    let ssa := { ssa with diagnostics := ssa.diagnostics ++ [⟨.warn, .stackAliasingUnknown, none,
      "memory reaching-store iteration limit; only same-block stores are followed"⟩] }
    applyBlocks cc (fun _ => .empty .memoryTraversalLimit) (ssa.blocks.take cfg.blocks.length) 0 ssa

end Forward

end Rsleigh.Decompile
