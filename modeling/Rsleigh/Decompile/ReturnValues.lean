import Rsleigh.Decompile.RegisterCopies
import Rsleigh.Lib.Hops
import Rsleigh.Lib.Paths

namespace Rsleigh.Decompile.ReturnValues

open Pcode

-- fold.rs.
def raxOffset : UInt64 := 0

def arm32R0 : UInt64 := 32

def aarch64X0 : UInt64 := 16384

def xmm0Offset : UInt64 := 4608

section Blocks

variable (vars : List VarDef)

-- The variable of an assignment that a search is for.
def assigns (wanted : VarId → Bool) (stmt : Stmt) : Option VarId := stmt.assigned.filter wanted

def firstAssign (wanted : VarId → Bool) (stmts : List Stmt) : Option VarId := stmts.findSome? (assigns wanted)

def lastAssign (wanted : VarId → Bool) (stmts : List Stmt) : Option VarId := stmts.reverse.findSome? (assigns wanted)

def inRetReg (retRegOffset : UInt64) (id : VarId) : Bool :=
  inRegister vars id && (varAt vars id).varnode.offset == retRegOffset && 4 ≤ (varAt vars id).varnode.size

def isPhi : Expr → Bool
  | .phi _ => true
  | _ => false

def isRetPhi (retRegOffset : UInt64) (id : VarId) : Bool :=
  inRetReg vars retRegOffset id && isPhi (varAt vars id).expr

def findRetRegInBlock (retRegOffset : UInt64) (stmts : List Stmt) : Option VarId :=
  match firstAssign (isRetPhi vars retRegOffset) stmts with
  | some id => some id
  | none => lastAssign (inRetReg vars retRegOffset) stmts

def findFloatRetInBlock (floatRetOffset : UInt64) (stmts : List Stmt) : Option VarId :=
  lastAssign (fun id => inRegister vars id && (varAt vars id).varnode.offset == floatRetOffset) stmts

def lastCallReturn (stmts : List Stmt) : Option VarId := lastAssign (fun id => (varAt vars id).callReturn) stmts

end Blocks

-- The blocks a terminator flows to, when the search for a value follows it.
def flowsTo (block : BlockId) : SsaTerminator → Bool
  | .fallthrough next | .branch next => next == block
  | .cbranch _ taken next => taken == block || next == block
  | .call _ _ _ next => next == block
  | _ => false

def endsInCall : SsaTerminator → Bool
  | .call _ _ _ _ => true
  | _ => false

-- What the search for a value reads of a function. That leaves out what a block returns.
structure Outline where
  vars : List VarDef
  count : Nat
  stmts : BlockId → List Stmt
  flows : BlockId → BlockId → Bool
  calls : BlockId → Bool

def outline (ssa : SsaCfg) : Outline where
  vars := ssa.vars
  count := ssa.blocks.length
  stmts bi := (ssa.blocks[bi]?).elim [] SsaBlock.stmts
  flows pred bi := (ssa.blocks[pred]?).elim false fun block => flowsTo bi block.terminator
  calls bi := (ssa.blocks[bi]?).elim false fun block => endsInCall block.terminator

section Search

variable (view : Outline) (retRegOffset : UInt64)

-- Strategy 3.
def readPredecessor (bi pred : BlockId) : Option VarId :=
  if pred != bi && view.flows pred bi then
    match findRetRegInBlock view.vars retRegOffset (view.stmts pred) with
    | some id => some id
    | none => if view.calls pred then lastCallReturn view.vars (view.stmts pred) else none
  else none

-- What strategy 4 reads of a block.
def readBlock (bi : BlockId) : Option VarId :=
  match findRetRegInBlock view.vars retRegOffset (view.stmts bi) with
  | some id => some id
  | none => lastCallReturn view.vars (view.stmts bi)

-- The strategies for an integer register. With what is found stands whether it is noted as a stale return.
def integerReturn (bi : BlockId) : Option (VarId × Bool) :=
  match findRetRegInBlock view.vars retRegOffset (view.stmts bi) with
  | some id => some (id, false)
  | none =>
    match lastCallReturn view.vars (view.stmts bi) with
    | some id => some (id, true)
    | none =>
      match (List.range view.count).findSome? (readPredecessor view retRegOffset bi) with
      | some id => some (id, false)
      | none =>
        (Hops.hops view.flows (readBlock view retRegOffset) (List.range view.count) 3 [bi] [bi]).map fun id => (id, false)

def isFloatOp : Expr → Bool
  | .binOp .floatAdd _ _ | .binOp .floatSub _ _ | .binOp .floatMult _ _ | .binOp .floatDiv _ _ => true
  | .unaryOp .floatNeg _ | .unaryOp .floatAbs _ | .unaryOp .floatSqrt _ => true
  | .unaryOp .int2Float _ | .unaryOp .float2Float _ => true
  | _ => false

def isCopy : Expr → Bool
  | .var _ => true
  | _ => false

def readFloatPredecessor (bi pred : BlockId) : Option VarId :=
  if pred != bi && view.flows pred bi then findFloatRetInBlock view.vars xmm0Offset (view.stmts pred) else none

-- Strategy 5. A parameter is not what a function returns.
def floatReturn (isParam : VarId → Bool) (bi : BlockId) : Option VarId :=
  if view.vars.any fun v => isFloatOp v.expr then
    match findFloatRetInBlock view.vars xmm0Offset (view.stmts bi) with
    | some id => some id
    | none =>
      match (List.range view.count).findSome? (readFloatPredecessor view bi) with
      | some id => some id
      | none =>
        (List.range view.vars.length).reverse.find? fun id =>
          inRegister view.vars id && (varAt view.vars id).varnode.offset == xmm0Offset &&
            (isFloatOp (varAt view.vars id).expr || isCopy (varAt view.vars id).expr) && !isParam id
  else none

def returnValue (isParam : VarId → Bool) (bi : BlockId) : Option (VarId × Bool) :=
  match integerReturn view retRegOffset bi with
  | some found => some found
  | none => (floatReturn view isParam bi).map fun id => (id, false)

end Search

def hasArm32Regs (vars : List VarDef) : Bool :=
  vars.any fun v => decide (v.varnode.space = .register) && v.varnode.offset == 32 && v.varnode.size == 4

def hasAarch64Regs (vars : List VarDef) : Bool :=
  vars.any fun v =>
    decide (v.varnode.space = .register) && 16384 ≤ v.varnode.offset && v.varnode.offset ≤ 16440 &&
      (v.varnode.size == 4 || v.varnode.size == 8)

def retRegOffset (nativeReturn : Option UInt64) (vars : List VarDef) : UInt64 :=
  match nativeReturn with
  | some offset => offset
  | none =>
    if hasArm32Regs vars then arm32R0
    else if hasAarch64Regs vars then aarch64X0
    else raxOffset

-- The w register that an x register extends.
def unwrapZext (vars : List VarDef) (id : VarId) : VarId :=
  match (varAt vars id).expr with
  | .unaryOp .zext inner => if (varAt vars inner).varnode.size == 4 then inner else id
  | _ => id

def returned (vars : List VarDef) (id : VarId) : VarId := if hasAarch64Regs vars then unwrapZext vars id else id

def setTerminator (ssa : SsaCfg) (bi : BlockId) (terminator : SsaTerminator) : SsaCfg :=
  { ssa with blocks := ssa.blocks.modify bi fun block => { block with terminator := terminator } }

def terminatorAt (ssa : SsaCfg) (bi : BlockId) : Option SsaTerminator := (ssa.blocks[bi]?).map SsaBlock.terminator

def unwrapBlock (ssa : SsaCfg) (bi : BlockId) : SsaCfg :=
  match terminatorAt ssa bi with
  | some (.ret (some id)) => setTerminator ssa bi (.ret (some (returned ssa.vars id)))
  | _ => ssa

-- A block that returns nothing yet. The blocks that a StaleReturnInherited diagnostic is about are listed.
def returnBlock (isParam : VarId → Bool) (offset : UInt64) (state : SsaCfg × List BlockId) (bi : BlockId) :
    SsaCfg × List BlockId :=
  match terminatorAt state.1 bi with
  | some (.ret none) =>
    match returnValue (outline state.1) offset isParam bi with
    | some (id, stale) =>
      (setTerminator state.1 bi (.ret (some (returned state.1.vars id))), if stale then state.2 ++ [bi] else state.2)
    | none => state
  | _ => state

def detectReturnValues (isParam : VarId → Bool) (nativeReturn : Option UInt64) (ssa : SsaCfg) : SsaCfg × List BlockId :=
  let offset := retRegOffset nativeReturn ssa.vars
  let unwrapped := (List.range ssa.blocks.length).foldl unwrapBlock ssa
  (List.range ssa.blocks.length).foldl (returnBlock isParam offset) (unwrapped, [])

section Frame

theorem terminatorAt_set (ssa : SsaCfg) (bi other : BlockId) (terminator : SsaTerminator) :
    terminatorAt (setTerminator ssa bi terminator) other =
      if other = bi then (terminatorAt ssa bi).map fun _ => terminator else terminatorAt ssa other := by
  unfold terminatorAt setTerminator
  rw [List.getElem?_modify]
  by_cases same : other = bi
  · subst same
    rw [if_pos rfl]
    cases ssa.blocks[other]? <;> simp
  · rw [if_neg same]
    simp [Ne.symm same]

-- A search reads the same of a function when only what a block returns is another.
theorem outline_set (returns : terminatorAt ssa bi = some (.ret old)) (new : Option VarId) :
    outline (setTerminator ssa bi (.ret new)) = outline ssa := by
  have at_ (other : BlockId) : (setTerminator ssa bi (.ret new)).blocks[other]? =
      (ssa.blocks[other]?).map fun block => if bi = other then { block with terminator := .ret new } else block := by
    unfold setTerminator
    rw [List.getElem?_modify]
    rfl
  have here (other : BlockId) (block : SsaBlock) (same : bi = other) (found : ssa.blocks[other]? = some block) :
      block.terminator = .ret old := by
    unfold terminatorAt at returns
    rw [same,found] at returns
    simpa using returns
  unfold outline
  simp only [Outline.mk.injEq,at_]
  refine ⟨rfl,?_,?_,?_,?_⟩
  · simp [setTerminator]
  · funext other
    cases ssa.blocks[other]? with
    | none => rfl
    | some block => simp only [Option.map_some,Option.elim_some]; split <;> rfl
  · funext pred target
    cases found : ssa.blocks[pred]? with
    | none => rfl
    | some block =>
      simp only [Option.map_some,Option.elim_some]
      split
      · rename_i same
        rw [here pred block same found]
        rfl
      · rfl
  · funext other
    cases found : ssa.blocks[other]? with
    | none => rfl
    | some block =>
      simp only [Option.map_some,Option.elim_some]
      split
      · rename_i same
        rw [here other block same found]
        rfl
      · rfl

-- What a step about one block leaves as it was.
structure Frame (bi : BlockId) (before after : SsaCfg) : Prop where
  outline : ReturnValues.outline after = ReturnValues.outline before
  others : ∀ other, other ≠ bi → terminatorAt after other = terminatorAt before other

theorem frame_refl (bi : BlockId) (ssa : SsaCfg) : Frame bi ssa ssa := ⟨rfl,fun _ _ => rfl⟩

theorem frame_set (returns : terminatorAt ssa bi = some (.ret old)) (new : Option VarId) :
    Frame bi ssa (setTerminator ssa bi (.ret new)) where
  outline := outline_set returns new
  others other apart := by rw [terminatorAt_set,if_neg apart]

theorem frame_unwrapBlock (ssa : SsaCfg) (bi : BlockId) : Frame bi ssa (unwrapBlock ssa bi) := by
  unfold unwrapBlock
  split
  · rename_i id returns
    exact frame_set returns _
  · exact frame_refl bi ssa

theorem frame_returnBlock (isParam : VarId → Bool) (offset : UInt64) (state : SsaCfg × List BlockId) (bi : BlockId) :
    Frame bi state.1 (returnBlock isParam offset state bi).1 := by
  unfold returnBlock
  split
  · rename_i returns
    split
    · exact frame_set returns _
    · exact frame_refl bi state.1
  · exact frame_refl bi state.1

theorem outline_vars (same : outline ssa' = outline ssa) : ssa'.vars = ssa.vars := congrArg Outline.vars same

theorem unwrapped_frame (bis : List BlockId) (ssa : SsaCfg) :
    outline (bis.foldl unwrapBlock ssa) = outline ssa ∧
      ∀ bi, terminatorAt ssa bi = some (.ret none) → terminatorAt (bis.foldl unwrapBlock ssa) bi = some (.ret none) := by
  induction bis generalizing ssa with
  | nil => exact ⟨rfl,fun _ returns => returns⟩
  | cons first rest ih =>
    have frame := frame_unwrapBlock ssa first
    obtain ⟨same,kept⟩ := ih (unwrapBlock ssa first)
    refine ⟨same.trans frame.outline,?_⟩
    intro bi returns
    apply kept
    by_cases here : bi = first
    · subst here
      unfold unwrapBlock
      rw [returns]
      exact returns
    · rw [frame.others bi here]
      exact returns

theorem returned_frame (isParam : VarId → Bool) (offset : UInt64) (bis : List BlockId) (state : SsaCfg × List BlockId) :
    outline (bis.foldl (returnBlock isParam offset) state).1 = outline state.1 ∧
      ∀ bi, bi ∉ bis → terminatorAt (bis.foldl (returnBlock isParam offset) state).1 bi = terminatorAt state.1 bi := by
  induction bis generalizing state with
  | nil => exact ⟨rfl,fun _ _ => rfl⟩
  | cons first rest ih =>
    have frame := frame_returnBlock isParam offset state first
    obtain ⟨same,kept⟩ := ih (returnBlock isParam offset state first)
    refine ⟨same.trans frame.outline,?_⟩
    intro bi outside
    rw [List.mem_cons,not_or] at outside
    rw [List.foldl_cons,kept bi outside.2]
    exact frame.others bi outside.1

theorem returnBlock_at (isParam : VarId → Bool) (offset : UInt64) (state : SsaCfg × List BlockId)
    (returns : terminatorAt state.1 bi = some (.ret none)) :
    terminatorAt (returnBlock isParam offset state bi).1 bi =
      some (.ret ((returnValue (outline state.1) offset isParam bi).map fun found => returned state.1.vars found.1)) := by
  unfold returnBlock
  rw [returns]
  cases found : returnValue (outline state.1) offset isParam bi with
  | none => simp [returns]
  | some value =>
    simp only [Option.map_some]
    rw [terminatorAt_set,if_pos rfl,returns]
    rfl

theorem terminatorAt_lt (isBlock : terminatorAt ssa bi = some terminator) : bi < ssa.blocks.length := by
  by_contra outside
  unfold terminatorAt at isBlock
  rw [List.getElem?_eq_none (Nat.le_of_not_lt outside)] at isBlock
  cases isBlock

theorem detectReturnValues_at (isParam : VarId → Bool) (nativeReturn : Option UInt64) (ssa : SsaCfg)
    (returns : terminatorAt ssa bi = some (.ret none)) :
    terminatorAt (detectReturnValues isParam nativeReturn ssa).1 bi =
      some (.ret ((returnValue (outline ssa) (retRegOffset nativeReturn ssa.vars) isParam bi).map fun found =>
        returned ssa.vars found.1)) := by
  obtain ⟨unwrappedSame,unwrappedKept⟩ := unwrapped_frame (List.range ssa.blocks.length) ssa
  unfold detectReturnValues
  simp only
  generalize (List.range ssa.blocks.length).foldl unwrapBlock ssa = unwrapped at unwrappedSame unwrappedKept
  obtain ⟨before,after,split⟩ := List.append_of_mem (List.mem_range.mpr (terminatorAt_lt returns))
  have nodup : (before ++ bi :: after).Nodup := split ▸ List.nodup_range
  have notBefore : bi ∉ before := fun member =>
    (List.nodup_append.mp nodup).2.2 bi member bi List.mem_cons_self rfl
  have notAfter : bi ∉ after := (List.nodup_cons.mp (List.nodup_append.mp nodup).2.1).1
  rw [split,List.foldl_append,List.foldl_cons,(returned_frame isParam _ after _).2 bi notAfter]
  obtain ⟨same,kept⟩ := returned_frame isParam (retRegOffset nativeReturn ssa.vars) before (unwrapped, [])
  generalize before.foldl (returnBlock isParam (retRegOffset nativeReturn ssa.vars)) (unwrapped, []) = state at same kept
  have outlined : outline state.1 = outline ssa := same.trans unwrappedSame
  rw [returnBlock_at isParam _ state ((kept bi notBefore).trans (unwrappedKept bi returns)),outlined,
    outline_vars outlined]

end Frame

end Rsleigh.Decompile.ReturnValues
