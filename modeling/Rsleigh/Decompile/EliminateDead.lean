import Rsleigh.Decompile.RegisterCopies
import Rsleigh.Decompile.SsaRun

namespace Rsleigh.Decompile

open Pcode

-- fold.rs: the offsets of the register space.
def flagOffsets : List UInt64 :=
  [512,513,514,518,519,521,523,256,257,258,259,261,262,263,264,96,97,98,99,100,101,102,103,104]

def rspOffset : UInt64 := 32
def espOffset : UInt64 := 16
def ripOffset : UInt64 := 648

section Uses

def Stmt.used : Stmt → List VarId
  | .assign _ => []
  | .store addr val => [addr, val]
  | .call _ args _ => args

def SsaTerminator.used : SsaTerminator → List VarId
  | .cbranch cond _ _ => [cond]
  | .ret (some value) => [value]
  | .indirect dest => [dest]
  | .call _ args _ _ => args
  | .fallthrough _ | .branch _ | .ret none => []

-- Every use that `recount_uses` counts: those of definitions that no statement assigns are among them.
def allUses (ssa : SsaCfg) : List VarId :=
  (ssa.vars.flatMap fun vdef => vdef.expr.operands) ++
    ssa.blocks.flatMap fun block => block.stmts.flatMap Stmt.used ++ block.terminator.used

def recountUses (ssa : SsaCfg) (id : VarId) : Nat := (allUses ssa).count id

end Uses

section Reads

variable (vars : List VarDef)

-- The registers read so far, and the variables visited.
abbrev Reads := List RegisterKey × List VarId

def noteRegister (id : VarId) (reads : List RegisterKey) : List RegisterKey :=
  if inRegister vars id then registerKey vars id :: reads else reads

def collectExprReads (inner : Reads → VarId → Reads) (expr : Expr) (reads : Reads) : Reads :=
  match expr with
  | .var id => (noteRegister vars id reads.1, reads.2)
  | .binOp _ left right => [left, right].foldl inner reads
  | .unaryOp _ operand | .load operand | .fieldAccess operand _ => inner reads operand
  | .phi inputs => inputs.foldl inner reads
  | .ternary cond then_ else_ => [cond, then_, else_].foldl inner reads
  | _ => reads

-- `collect_var_reads_inner`. Each level visits another variable.
def collectVarReadsInner : Nat → Reads → VarId → Reads
  | 0, reads, _ => reads
  | levels + 1, reads, id =>
    if id ∈ reads.2 then reads
    else
      collectExprReads vars (collectVarReadsInner levels) (varAt vars id).expr
        (noteRegister vars id reads.1, id :: reads.2)

def collectVarReads (reads : List RegisterKey) (id : VarId) : List RegisterKey :=
  (collectVarReadsInner vars (vars.length + 1) (reads, []) id).1

def isStackPointer (offset : UInt64) (anySize : Bool) (vn : Varnode) : Bool :=
  vn.space == .register && vn.offset == offset && (anySize || vn.size == 4)

-- `is_rsp_derived` and `is_esp_derived`.
def isDerived (isPointer : Varnode → Bool) (id : VarId) : Bool :=
  isPointer (varAt vars id).varnode ||
    match (varAt vars id).expr with
    | .var base | .binOp _ base _ => isPointer (varAt vars base).varnode
    | _ => false

def isRspDerived : VarId → Bool := isDerived vars (isStackPointer rspOffset true)

def isEspDerived : VarId → Bool := isDerived vars (isStackPointer espOffset false)

def holdsConst (id : VarId) : Bool :=
  match (varAt vars id).expr with
  | .const _ _ => true
  | _ => false

-- A store that is taken for the saving of a return address.
def isConstPush (addr val : VarId) : Bool :=
  (isRspDerived vars addr || isEspDerived vars addr) && holdsConst vars val

end Reads

section Elimination

variable (argRegs : List UInt64) (useCount : VarId → Nat) (vars : List VarDef)

def isUserOp : Expr → Bool
  | .userOp _ _ => true
  | _ => false

def isCarry : Expr → Bool
  | .binOp .carry _ _ | .binOp .scarry _ _ | .binOp .sborrow _ _ => true
  | _ => false

def writesRip (id : VarId) : Bool := inRegister vars id && (varAt vars id).varnode.offset == ripOffset

def isDeadAssign (readAfter : List RegisterKey) (precedesCall : Bool) (id : VarId) : Bool :=
  let vdef := varAt vars id
  let unused := useCount id == 0
  let register := inRegister vars id
  (register && flagOffsets.contains vdef.varnode.offset && unused) ||
    (vdef.varnode.space == .unique && unused && !isUserOp vdef.expr) ||
    (unused && isCarry vdef.expr) ||
    writesRip vars id ||
    (register && !readAfter.contains (registerKey vars id) && unused &&
      !(argRegs.contains vdef.varnode.offset && register && precedesCall))

def Stmt.isCall : Stmt → Bool
  | .call _ _ _ => true
  | _ => false

def SsaTerminator.isCall : SsaTerminator → Bool
  | .call _ _ _ _ => true
  | _ => false

-- From the last statement to the first, with the registers that are read after each.
def eliminateStmts (terminator : SsaTerminator) : List Stmt → List Stmt × List RegisterKey
  | [] => ([], terminator.used.foldl (collectVarReads vars) [])
  | stmt :: rest =>
    let (kept, readAfter) := eliminateStmts terminator rest
    match stmt with
    | .assign id =>
      if isDeadAssign argRegs useCount vars readAfter (rest.any Stmt.isCall || terminator.isCall) id then
        (kept, readAfter)
      else
        (stmt :: kept,
          (collectExprReads vars (collectVarReadsInner vars (vars.length + 1)) (varAt vars id).expr (readAfter, [])).1)
    | .store addr val =>
      if isConstPush vars addr val then (kept, readAfter)
      else (stmt :: kept, collectVarReads vars (collectVarReads vars readAfter addr) val)
    | .call _ args _ => (stmt :: kept, args.foldl (collectVarReads vars) readAfter)

end Elimination

def eliminateDead (argRegs : List UInt64) (useCount : VarId → Nat) (ssa : SsaCfg) : SsaCfg :=
  { ssa with
    blocks := ssa.blocks.map fun block =>
      { block with stmts := (eliminateStmts argRegs useCount ssa.vars block.terminator block.stmts).1 } }

section Dropped

variable {argRegs : List UInt64} {useCount : VarId → Nat} {vars : List VarDef}

-- A list of statements without some of those that may go.
inductive Dropped (gone : Stmt → Prop) : List Stmt → List Stmt → Prop where
  | nil : Dropped gone [] []
  | keep (stmt : Stmt) : Dropped gone before after → Dropped gone (stmt :: before) (stmt :: after)
  | drop : gone stmt → Dropped gone before after → Dropped gone (stmt :: before) after

-- What a statement that is removed may be.
def Removable (useCount : VarId → Nat) (vars : List VarDef) : Stmt → Prop
  | .assign id => writesRip vars id = true ∨ useCount id = 0 ∧ (isUserOp (varAt vars id).expr = true → inRegister vars id = true)
  | .store addr val => isConstPush vars addr val = true
  | .call _ _ _ => False

theorem isDeadAssign_removable {id : VarId} (dead : isDeadAssign argRegs useCount vars readAfter precedesCall id = true) :
    Removable useCount vars (.assign id) := by
  simp only [isDeadAssign,Bool.or_eq_true,Bool.and_eq_true,beq_iff_eq] at dead
  rcases dead with (((⟨⟨register,_⟩,unused⟩ | ⟨⟨_,unused⟩,noUserOp⟩) | ⟨unused,carry⟩) | rip) | ⟨⟨⟨register,_⟩,unused⟩,_⟩
  · exact .inr ⟨unused,fun _ => register⟩
  · exact .inr ⟨unused,fun userOp => by simp [userOp] at noUserOp⟩
  · refine .inr ⟨unused,fun userOp => ?_⟩
    cases shape : (varAt vars id).expr <;> simp [shape,isUserOp,isCarry] at userOp carry
  · exact .inl rip
  · exact .inr ⟨unused,fun _ => register⟩

theorem eliminateStmts_dropped (terminator : SsaTerminator) (stmts : List Stmt) :
    Dropped (Removable useCount vars) stmts (eliminateStmts argRegs useCount vars terminator stmts).1 := by
  induction stmts with
  | nil => exact .nil
  | cons stmt rest ih =>
    cases stmt with
    | assign id =>
      unfold eliminateStmts
      dsimp only
      split
      · rename_i dead
        exact .drop (isDeadAssign_removable dead) ih
      · exact .keep _ ih
    | store addr val =>
      unfold eliminateStmts
      dsimp only
      split
      · rename_i push
        exact .drop push ih
      · exact .keep _ ih
    | call target args out => exact .keep _ ih

end Dropped

section Shown

variable (ssa : SsaCfg)

-- A byte that an effect writes.
def SsaEffect.writesCell (effect : SsaEffect) (cell : Cell) : Bool :=
  match effect with
  | .store _ _ cells _ => cells.contains cell
  | .call _ _ written | .userOp _ _ written => (written.map Prod.fst).contains cell
  | _ => false

def SsaEffect.isPush : SsaEffect → Bool
  | .store addr val _ _ => isConstPush ssa.vars addr val
  | _ => false

def SsaEffect.isLoad : SsaEffect → Bool
  | .load _ => true
  | _ => false

-- A byte that was last written by a store of a constant through the stack pointer.
def stale (log : List SsaEffect) (cell : Cell) : Bool :=
  match log.reverse.find? (·.writesCell cell) with
  | some effect => effect.isPush ssa
  | none => false

-- No such byte is loaded.
def LoadsKept (log : List SsaEffect) : Prop :=
  ∀ before cells after, log = before ++ .load cells :: after → ∀ cell ∈ cells, stale ssa before cell = false

-- What a run shows beside these stores and its loads.
def shown (log : List SsaEffect) : List SsaEffect :=
  log.filter fun effect => !effect.isLoad && !effect.isPush ssa

variable {ssa}

theorem stale_append (log : List SsaEffect) (effect : SsaEffect) (cell : Cell) :
    stale ssa (log ++ [effect]) cell = if effect.writesCell cell then effect.isPush ssa else stale ssa log cell := by
  unfold stale
  rw [List.reverse_append,List.reverse_singleton,List.singleton_append,List.find?_cons]
  cases effect.writesCell cell <;> rfl

theorem LoadsKept.before (kept : LoadsKept ssa log) (grown : earlier <+: log) : LoadsKept ssa earlier := by
  obtain ⟨rest,rfl⟩ := grown
  intro before cells after split
  exact kept before cells (after ++ rest) (by rw [split]; simp)

theorem LoadsKept.last (kept : LoadsKept ssa (log ++ [.load cells])) : ∀ cell ∈ cells, stale ssa log cell = false :=
  kept log cells [] rfl

end Shown

section Simulation

-- The variables that something uses, in a program and in one that is without some statements.
structure Reduced (ssa after : SsaCfg) : Prop where
  vars : after.vars = ssa.vars
  entry : after.entry = ssa.entry
  placed : ∀ id ∈ allUses ssa, placed after id = placed ssa id

-- Two states that agree on what is used, and on the bytes that may be loaded.
structure Alike (ssa : SsaCfg) (s s' : SsaState) : Prop where
  val : ∀ id ∈ allUses ssa, s.val id = s'.val id
  entered : ∀ id ∈ allUses ssa, s.entered id = s'.entered id
  mem : ∀ cell, stale ssa s.log cell = false → s.mem cell = s'.mem cell
  log : shown ssa s.log = shown ssa s'.log

variable {ssa after : SsaCfg} {world : SsaWorld} {s s' : SsaState}

theorem operand_used {id used : VarId} (operand : used ∈ (varAt ssa.vars id).expr.operands) : used ∈ allUses ssa := by
  unfold varAt at operand
  cases found : ssa.vars[id]? with
  | none =>
    rw [found] at operand
    cases operand
  | some vdef =>
    rw [found] at operand
    exact List.mem_append_left _ (List.mem_flatMap.mpr ⟨vdef,List.mem_of_getElem? found,operand⟩)

-- Expressions that do not say what they stand for.
def Expr.isGiven : Expr → Bool
  | .phi _ | .userOp _ _ | .unknown => true
  | _ => false

-- What is read of an expression depends on its operands, and on the bytes that are loaded.
theorem exprRead_alike (reduced : Reduced ssa after) {operand operand' : VarId → Nat × List Cell} {id : VarId}
    (own : (varAt ssa.vars id).expr.isGiven = true → s.val id = s'.val id)
    (operands : ∀ used ∈ (varAt ssa.vars id).expr.operands,
      (∀ cell ∈ (operand used).2, stale ssa s.log cell = false) → operand used = operand' used)
    (mem : ∀ cell, stale ssa s.log cell = false → s.mem cell = s'.mem cell)
    (fresh : ∀ cell ∈ (s.exprRead world ssa operand id).2, stale ssa s.log cell = false) :
    s.exprRead world ssa operand id = s'.exprRead world after operand' id := by
  unfold SsaState.exprRead at fresh ⊢
  rw [reduced.vars]
  cases shape : (varAt ssa.vars id).expr with
  | load ptr =>
    simp only [shape] at fresh ⊢
    have same := operands ptr (by simp [shape,Expr.operands]) fun cell member =>
      fresh cell (List.mem_append_left _ member)
    rw [← same]
    refine Prod.ext (ByteStore.load_congr fun cell member => mem cell ?_) rfl
    exact fresh cell (List.mem_append_right _ member)
  | fieldAccess base offset =>
    simp only [shape] at fresh ⊢
    have same := operands base (by simp [shape,Expr.operands]) fun cell member =>
      fresh cell (List.mem_append_left _ member)
    rw [← same]
    refine Prod.ext (ByteStore.load_congr fun cell member => mem cell ?_) rfl
    exact fresh cell (List.mem_append_right _ member)
  | phi _ => simp only [shape,own (by rw [shape]; rfl)]
  | userOp _ _ => simp only [shape,own (by rw [shape]; rfl)]
  | unknown => simp only [shape,own (by rw [shape]; rfl)]
  | _ =>
    simp only [shape] at fresh ⊢
    have same : ∀ used ∈ (varAt ssa.vars id).expr.operands, operand used = operand' used := fun used member =>
      operands used member fun cell inside => fresh cell (List.mem_flatMap.mpr ⟨used,by rwa [shape] at member,inside⟩)
    rw [shape] at same
    refine Prod.ext ?_ (List.flatMap_congr fun used member => congrArg Prod.snd (same used member))
    simp only
    rw [exprValue_congr fun used member => congrArg Prod.fst (same used member)]

theorem read_alike (reduced : Reduced ssa after) (alike : Alike ssa s s') (levels : Nat) {id : VarId}
    (used : id ∈ allUses ssa) (fresh : ∀ cell ∈ (s.read world ssa levels id).2, stale ssa s.log cell = false) :
    s.read world ssa levels id = s'.read world after levels id := by
  induction levels generalizing id with
  | zero => simp only [SsaState.read,alike.val id used]
  | succ levels ih =>
    unfold SsaState.read at fresh ⊢
    rw [reduced.placed id used]
    split
    · rw [alike.val id used]
    · rename_i loose
      rw [if_neg loose] at fresh
      exact exprRead_alike reduced (fun _ => alike.val id used) (fun u operand => ih (operand_used operand)) alike.mem fresh

theorem operand_alike (reduced : Reduced ssa after) (alike : Alike ssa s s') {id : VarId} (used : id ∈ allUses ssa)
    (fresh : ∀ cell ∈ (s.operand world ssa id).2, stale ssa s.log cell = false) :
    s.operand world ssa id = s'.operand world after id := by
  unfold SsaState.operand at fresh ⊢
  rw [reduced.vars]
  exact read_alike reduced alike _ used fresh

theorem operands_alike (reduced : Reduced ssa after) (alike : Alike ssa s s') {ids : List VarId}
    (used : ∀ id ∈ ids, id ∈ allUses ssa) (fresh : ∀ cell ∈ s.loads world ssa ids, stale ssa s.log cell = false) :
    (∀ id ∈ ids, s.operand world ssa id = s'.operand world after id) ∧
      s.loads world ssa ids = s'.loads world after ids ∧ s.values world ssa ids = s'.values world after ids := by
  have same : ∀ id ∈ ids, s.operand world ssa id = s'.operand world after id := fun id member =>
    operand_alike reduced alike (used id member) fun cell inside => fresh cell (List.mem_flatMap.mpr ⟨id,member,inside⟩)
  exact ⟨same,List.flatMap_congr fun id member => congrArg Prod.snd (same id member),
    List.map_congr_left fun id member => congrArg Prod.fst (same id member)⟩

section Effects

theorem loading_log (s : SsaState) (cells : List Cell) :
    (s.loading cells).log = s.log ++ if cells = [] then [] else [.load cells] := by
  unfold SsaState.loading
  split <;> simp [SsaState.emit]

theorem loading_fresh (kept : LoadsKept ssa (s.loading cells).log) : ∀ cell ∈ cells, stale ssa s.log cell = false := by
  rw [loading_log] at kept
  by_cases none_ : cells = []
  · rw [none_]
    intro cell member
    cases member
  · rw [if_neg none_] at kept
    exact kept.last

@[simp] theorem loading_val (s : SsaState) (cells : List Cell) : (s.loading cells).val = s.val := by
  unfold SsaState.loading
  split <;> rfl

@[simp] theorem loading_entered (s : SsaState) (cells : List Cell) : (s.loading cells).entered = s.entered := by
  unfold SsaState.loading
  split <;> rfl

@[simp] theorem loading_mem (s : SsaState) (cells : List Cell) : (s.loading cells).mem = s.mem := by
  unfold SsaState.loading
  split <;> rfl

@[simp] theorem loading_stale (s : SsaState) (cells : List Cell) (cell : Cell) :
    stale ssa (s.loading cells).log cell = stale ssa s.log cell := by
  rw [loading_log]
  split
  · rw [List.append_nil]
  · rw [stale_append]
    rfl

@[simp] theorem loading_shown (s : SsaState) (cells : List Cell) : shown ssa (s.loading cells).log = shown ssa s.log := by
  rw [loading_log,shown,List.filter_append]
  split <;> simp [shown,SsaEffect.isLoad]

theorem loading_alike (alike : Alike ssa s s') (cells cells' : List Cell) :
    Alike ssa (s.loading cells) (s'.loading cells') where
  val := by simpa using alike.val
  entered := by simpa using alike.entered
  mem := by simpa using alike.mem
  log := by simpa using alike.log

theorem assign_alike (alike : Alike ssa s s') (id : VarId) (value : Nat) :
    Alike ssa (s.assign id value) (s'.assign id value) where
  val u used := by
    simp only [SsaState.assign,Function.update_apply]
    split
    · rfl
    · exact alike.val u used
  entered := alike.entered
  mem := alike.mem
  log := alike.log

theorem assign_unused (alike : Alike ssa s s') {id : VarId} (unused : id ∉ allUses ssa) (value : Nat) :
    Alike ssa (s.assign id value) s' where
  val u used := by
    have other : u ≠ id := fun same => unused (same ▸ used)
    simp only [SsaState.assign,Function.update_of_ne other]
    exact alike.val u used
  entered := alike.entered
  mem := alike.mem
  log := alike.log

theorem externals_shown (s : SsaState) : s.externals = (shown ssa s.log).filter (·.isExternal) := by
  rw [SsaState.externals,shown,List.filter_filter]
  refine List.filter_congr fun effect _ => ?_
  cases effect <;> rfl

theorem alike_externals (alike : Alike ssa s s') : s.externals = s'.externals := by
  rw [@externals_shown ssa,@externals_shown ssa,alike.log]

theorem written_agree (written : List (Cell × UInt8)) {m m' : Cell → UInt8} {cell : Cell}
    (agree : m cell = m' cell ∨ cell ∈ written.map Prod.fst) :
    written.foldl (fun mem (byte : Cell × UInt8) => Function.update mem byte.1 byte.2) m cell =
      written.foldl (fun mem (byte : Cell × UInt8) => Function.update mem byte.1 byte.2) m' cell := by
  induction written generalizing m m' with
  | nil => simpa using agree
  | cons byte rest ih =>
    refine ih ?_
    dsimp only
    by_cases here : cell = byte.1
    · rw [here]
      simp
    · rw [Function.update_of_ne here,Function.update_of_ne here]
      rcases agree with same | member
      · exact .inl same
      · rw [List.map_cons,List.mem_cons] at member
        exact .inr (member.resolve_left here)

end Effects

section Steps

theorem external_alike (alike : Alike ssa s s') (effect : List (Cell × UInt8) → SsaEffect)
    (external : ∀ written, (effect written).isLoad = false ∧ (effect written).isPush ssa = false ∧
      ∀ cell, (effect written).writesCell cell = (written.map Prod.fst).contains cell) (out : Option VarId) :
    Alike ssa (s.external world effect out) (s'.external world effect out) := by
  have history := alike_externals alike
  have shownSame : Alike ssa (s.external world effect none) (s'.external world effect none) := by
    unfold SsaState.external
    rw [← history]
    refine ⟨alike.val,alike.entered,?_,?_⟩
    · intro cell fresh
      simp only [SsaState.emit,stale_append,(external _).2.2] at fresh
      refine written_agree _ ?_
      split at fresh
      · rename_i member
        exact .inr (by simpa using member)
      · exact .inl (alike.mem cell fresh)
    · simp only [SsaState.emit,shown,List.filter_append]
      exact congrArg (· ++ _) alike.log
  cases out with
  | none => exact shownSame
  | some id =>
    have assigned := assign_alike shownSame id (world.result (s.externals ++ [effect []]))
    unfold SsaState.external at assigned ⊢
    rw [← history] at assigned ⊢
    exact assigned

theorem call_external (target : CallTarget) (args : List Nat) (written : List (Cell × UInt8)) :
    (SsaEffect.call target args written).isLoad = false ∧ (SsaEffect.call target args written).isPush ssa = false ∧
      ∀ cell, (SsaEffect.call target args written).writesCell cell = (written.map Prod.fst).contains cell :=
  ⟨rfl,rfl,fun _ => rfl⟩

theorem userOp_external (funcId : UInt64) (inputs : List Nat) (written : List (Cell × UInt8)) :
    (SsaEffect.userOp funcId inputs written).isLoad = false ∧
      (SsaEffect.userOp funcId inputs written).isPush ssa = false ∧
      ∀ cell, (SsaEffect.userOp funcId inputs written).writesCell cell = (written.map Prod.fst).contains cell :=
  ⟨rfl,rfl,fun _ => rfl⟩

theorem external_log (effect : List (Cell × UInt8) → SsaEffect) (out : Option VarId) (s : SsaState) :
    s.log <+: (s.external world effect out).log := by
  unfold SsaState.external
  cases out <;> exact List.prefix_append _ _

theorem loading_extends (s : SsaState) (cells : List Cell) : s.log <+: (s.loading cells).log := by
  rw [loading_log]
  exact List.prefix_append _ _

theorem stmt_log (block prev : BlockId) (stmt : Stmt) (s : SsaState) : s.log <+: (s.stmt world ssa block prev stmt).log := by
  unfold SsaState.stmt
  cases stmt with
  | assign id =>
    dsimp only
    split
    · exact loading_extends s _
    · exact (loading_extends s _).trans (external_log _ _ _)
    · exact List.prefix_refl _
    · exact loading_extends s _
  | store addr val => exact (loading_extends s _).trans (List.prefix_append _ _)
  | call target args out => exact (loading_extends s _).trans (external_log _ _ _)

theorem terminator_log (terminator : SsaTerminator) (s : SsaState) :
    s.log <+: (s.terminator world ssa terminator).2.log := by
  unfold SsaState.terminator
  cases terminator with
  | call target args out next => exact (loading_extends s _).trans (external_log _ _ _)
  | fallthrough next => exact List.prefix_refl _
  | branch next => exact List.prefix_refl _
  | _ => exact (loading_extends s _).trans (List.prefix_append _ _)

theorem stmts_log (block prev : BlockId) (stmts : List Stmt) (s : SsaState) :
    s.log <+: (stmts.foldl (SsaState.stmt world ssa block prev) s).log := by
  induction stmts generalizing s with
  | nil => exact List.prefix_refl _
  | cons stmt rest ih => exact (stmt_log block prev stmt s).trans (ih _)

theorem loading_left (alike : Alike ssa s s') (cells : List Cell) : Alike ssa (s.loading cells) s' :=
  loading_alike alike cells []

-- A statement that stays does the same to both.
theorem stmt_alike (reduced : Reduced ssa after) (alike : Alike ssa s s') (block prev : BlockId) {stmt : Stmt}
    (used : ∀ id ∈ stmt.used, id ∈ allUses ssa) (kept : LoadsKept ssa (s.stmt world ssa block prev stmt).log) :
    Alike ssa (s.stmt world ssa block prev stmt) (s'.stmt world after block prev stmt) := by
  unfold SsaState.stmt at kept ⊢
  cases stmt with
  | assign id =>
    dsimp only at kept ⊢
    rw [reduced.vars]
    have operands : ∀ used ∈ (varAt ssa.vars id).expr.operands, used ∈ allUses ssa := fun used => operand_used
    cases shape : (varAt ssa.vars id).expr with
    | phi inputs =>
      simp only [shape] at kept ⊢
      have fresh := loading_fresh kept
      cases chosen : inputs[world.edge prev block]? with
      | none => exact assign_alike (loading_alike alike _ _) id _
      | some input =>
        rw [chosen] at fresh
        have entries : Alike ssa { s with val := s.entered } { s' with val := s'.entered } :=
          ⟨alike.entered,alike.entered,alike.mem,alike.log⟩
        have same := @operand_alike _ _ world _ _ reduced entries _
          (operands input (by rw [shape]; exact List.mem_of_getElem? chosen)) fresh
        simp only [Option.elim_some,same]
        exact assign_alike (loading_alike alike _ _) id _
    | userOp funcId inputs =>
      simp only [shape] at kept ⊢
      have fresh := loading_fresh (kept.before (external_log _ _ _))
      obtain ⟨_,_,values⟩ := operands_alike reduced alike (by rwa [shape] at operands) fresh
      rw [values]
      exact external_alike (loading_alike alike _ _) _ (userOp_external _ _) _
    | unknown =>
      simp only [shape] at kept ⊢
      rw [alike_externals alike]
      exact assign_alike alike id _
    | _ =>
      simp only [shape] at kept ⊢
      have fresh := loading_fresh kept
      have same : s.exprRead world ssa (s.operand world ssa) id = s'.exprRead world after (s'.operand world after) id :=
        exprRead_alike reduced (fun given => by simp [shape,Expr.isGiven] at given)
          (fun used operand => operand_alike reduced alike (operands used operand)) alike.mem fresh
      rw [same]
      exact assign_alike (loading_alike alike _ _) id _
  | store addr val =>
    have fresh := loading_fresh (kept.before (List.prefix_append _ _))
    obtain ⟨same,_,_⟩ := operands_alike reduced alike used fresh
    have address := same addr (by simp [Stmt.used])
    have value := same val (by simp [Stmt.used])
    dsimp only
    rw [reduced.vars,address,value]
    refine ⟨by simpa [SsaState.emit] using alike.val,by simpa [SsaState.emit] using alike.entered,?_,?_⟩
    · intro cell cellFresh
      simp only [SsaState.emit,stale_append,loading_stale] at cellFresh
      simp only [SsaState.emit]
      by_cases inside : cell ∈ SsaState.accessCells world (Access.space (varAt ssa.vars val).memory)
        (s'.operand world after addr).1 (varAt ssa.vars val).size
      · exact ByteStore.store_on _ _ _ inside
      · rw [ByteStore.store_off _ _ inside,ByteStore.store_off _ _ inside]
        refine alike.mem cell ?_
        simpa [SsaEffect.writesCell,inside] using cellFresh
    · simp only [SsaState.emit,shown,List.filter_append]
      refine congrArg (· ++ _) ?_
      simpa [shown] using (loading_alike alike (s.loads world ssa [addr,val]) (s'.loads world after [addr,val])).log
  | call target args out =>
    have fresh := loading_fresh (kept.before (external_log _ _ _))
    obtain ⟨_,_,values⟩ := @operands_alike _ _ _ _ _ reduced alike args used fresh
    dsimp only
    rw [values]
    exact external_alike (loading_alike alike _ _) _ (call_external _ _) _

theorem removed_alike (alike : Alike ssa s s') (block prev : BlockId) {stmt : Stmt}
    (removable : Removable (recountUses ssa) ssa.vars stmt)
    (unused : ∀ id, stmt = .assign id → id ∉ allUses ssa ∧ isUserOp (varAt ssa.vars id).expr = false) :
    Alike ssa (s.stmt world ssa block prev stmt) s' := by
  unfold SsaState.stmt
  cases stmt with
  | assign id =>
    obtain ⟨noUse,noUserOp⟩ := unused id rfl
    dsimp only
    split
    · exact assign_unused (loading_left alike _) noUse _
    · rename_i shape
      simp [shape,isUserOp] at noUserOp
    · exact assign_unused alike noUse _
    · exact assign_unused (loading_left alike _) noUse _
  | store addr val =>
    have push : isConstPush ssa.vars addr val = true := removable
    refine ⟨by simpa [SsaState.emit] using alike.val,by simpa [SsaState.emit] using alike.entered,?_,?_⟩
    · intro cell cellFresh
      simp only [SsaState.emit,stale_append,loading_stale,SsaEffect.isPush,push] at cellFresh
      simp only [SsaState.emit]
      split at cellFresh
      · cases cellFresh
      · rename_i outside
        rw [ByteStore.store_off _ _ (by simpa [SsaEffect.writesCell] using outside)]
        exact alike.mem cell cellFresh
    · simp only [SsaState.emit,shown,List.filter_append]
      simpa [shown,SsaEffect.isPush,push] using (loading_left alike (s.loads world ssa [addr,val])).log
  | call target args out => exact removable.elim

end Steps

section Runs

-- No instruction pointer that is written is used, and the result of every user operation in a register is.
structure Preservable (ssa : SsaCfg) : Prop where
  rip : ∀ block ∈ ssa.blocks, ∀ id, .assign id ∈ block.stmts → writesRip ssa.vars id = true → id ∉ allUses ssa
  userOp : ∀ block ∈ ssa.blocks, ∀ id, .assign id ∈ block.stmts → isUserOp (varAt ssa.vars id).expr = true →
    inRegister ssa.vars id = true → id ∈ allUses ssa

theorem removed_unused (preservable : Preservable ssa) {block : SsaBlock} (inside : block ∈ ssa.blocks) {id : VarId}
    (member : .assign id ∈ block.stmts) (removable : Removable (recountUses ssa) ssa.vars (.assign id)) :
    id ∉ allUses ssa ∧ isUserOp (varAt ssa.vars id).expr = false := by
  have unused : id ∉ allUses ssa := by
    rcases removable with rip | ⟨noUse,_⟩
    · exact preservable.rip block inside id member rip
    · exact List.count_eq_zero.mp noUse
  refine ⟨unused,?_⟩
  by_contra userOp
  rw [Bool.not_eq_false] at userOp
  refine unused (preservable.userOp block inside id member userOp ?_)
  rcases removable with rip | ⟨_,register⟩
  · exact (Bool.and_eq_true_iff.mp rip).1
  · exact register userOp

theorem stmts_alike (reduced : Reduced ssa after) (block prev : BlockId) {stmts stmts' : List Stmt}
    (dropped : Dropped (Removable (recountUses ssa) ssa.vars) stmts stmts')
    (used : ∀ stmt ∈ stmts, ∀ id ∈ stmt.used, id ∈ allUses ssa)
    (unused : ∀ id, .assign id ∈ stmts → Removable (recountUses ssa) ssa.vars (.assign id) →
      id ∉ allUses ssa ∧ isUserOp (varAt ssa.vars id).expr = false)
    (alike : Alike ssa s s') (kept : LoadsKept ssa (stmts.foldl (SsaState.stmt world ssa block prev) s).log) :
    Alike ssa (stmts.foldl (SsaState.stmt world ssa block prev) s)
      (stmts'.foldl (SsaState.stmt world after block prev) s') := by
  induction dropped generalizing s s' with
  | nil => exact alike
  | keep stmt _ ih =>
    refine ih (fun other member => used other (List.mem_cons_of_mem _ member))
      (fun id member => unused id (List.mem_cons_of_mem _ member)) ?_ kept
    exact stmt_alike reduced alike block prev (used stmt List.mem_cons_self) (kept.before (stmts_log _ _ _ _))
  | @drop stmt _ _ gone _ ih =>
    refine ih (fun other member => used other (List.mem_cons_of_mem _ member))
      (fun id member => unused id (List.mem_cons_of_mem _ member)) ?_ kept
    refine removed_alike alike block prev gone fun id same => ?_
    subst same
    exact unused id List.mem_cons_self gone

theorem terminator_alike (reduced : Reduced ssa after) (alike : Alike ssa s s') {terminator : SsaTerminator}
    (used : ∀ id ∈ terminator.used, id ∈ allUses ssa)
    (kept : LoadsKept ssa (s.terminator world ssa terminator).2.log) :
    (s.terminator world ssa terminator).1 = (s'.terminator world after terminator).1 ∧
      Alike ssa (s.terminator world ssa terminator).2 (s'.terminator world after terminator).2 := by
  have emitted {t t' : SsaState} (states : Alike ssa t t') (effect : SsaEffect)
      (plain : effect.isPush ssa = false ∧ ∀ cell, effect.writesCell cell = false) :
      Alike ssa (t.emit effect) (t'.emit effect) := by
    refine ⟨states.val,states.entered,fun cell fresh => ?_,?_⟩
    · rw [SsaState.emit,stale_append,plain.2 cell] at fresh
      exact states.mem cell (by simpa using fresh)
    · simp only [SsaState.emit,shown,List.filter_append]
      exact congrArg (· ++ _) states.log
  unfold SsaState.terminator at kept ⊢
  cases terminator with
  | fallthrough next => exact ⟨rfl,alike⟩
  | branch next => exact ⟨rfl,alike⟩
  | cbranch cond taken next =>
    have fresh := loading_fresh (kept.before (List.prefix_append _ _))
    have same := (@operands_alike _ _ _ _ _ reduced alike [cond] used fresh).1 cond List.mem_cons_self
    dsimp only
    rw [same]
    exact ⟨rfl,emitted (loading_alike alike _ _) _ ⟨rfl,fun _ => rfl⟩⟩
  | call target args out next =>
    have fresh := loading_fresh (kept.before (external_log _ _ _))
    obtain ⟨_,_,values⟩ := @operands_alike _ _ _ _ _ reduced alike args used fresh
    dsimp only
    rw [values]
    exact ⟨rfl,external_alike (loading_alike alike _ _) _ (call_external _ _) _⟩
  | ret value =>
    have fresh := loading_fresh (kept.before (List.prefix_append _ _))
    have inside : ∀ id ∈ value.toList, id ∈ allUses ssa := by
      cases value with
      | none => exact fun id member => by cases member
      | some result => exact used
    have same := (operands_alike reduced alike inside fresh).1
    have result : (value.map fun id => (s.operand world ssa id).1) = value.map fun id => (s'.operand world after id).1 := by
      cases value with
      | none => rfl
      | some result => exact congrArg (fun read => some read.1) (same result List.mem_cons_self)
    dsimp only
    rw [result]
    exact ⟨rfl,emitted (loading_alike alike _ _) _ ⟨rfl,fun _ => rfl⟩⟩
  | indirect dest =>
    have fresh := loading_fresh (kept.before (List.prefix_append _ _))
    have same := (@operands_alike _ _ _ _ _ reduced alike [dest] used fresh).1 dest List.mem_cons_self
    dsimp only
    rw [same]
    exact ⟨rfl,emitted (loading_alike alike _ _) _ ⟨rfl,fun _ => rfl⟩⟩

theorem run_log (steps : Nat) {id prev : BlockId} {final : SsaState} (ended : s.run world ssa steps id prev = some final) :
    s.log <+: final.log := by
  induction steps generalizing s id prev with
  | zero => cases ended
  | succ steps ih =>
    unfold SsaState.run at ended
    split at ended
    · cases ended
    · rename_i body _
      have grown : s.log <+: (s.block world ssa id prev body).2.log :=
        (stmts_log id prev body.stmts { s with entered := s.val }).trans (terminator_log _ _)
      split at ended
      · rename_i result
        obtain rfl := Option.some.inj ended
        rwa [result] at grown
      · rename_i result
        rw [result] at grown
        exact grown.trans (ih ended)

variable {argRegs : List UInt64}

theorem eliminated_block {id : BlockId} {body : SsaBlock} (found : ssa.blocks[id]? = some body) :
    (eliminateDead argRegs (recountUses ssa) ssa).blocks[id]? =
      some { body with stmts := (eliminateStmts argRegs (recountUses ssa) ssa.vars body.terminator body.stmts).1 } := by
  simp [eliminateDead,found]

theorem stmt_used {block : SsaBlock} (inside : block ∈ ssa.blocks) :
    (∀ stmt ∈ block.stmts, ∀ id ∈ stmt.used, id ∈ allUses ssa) ∧ ∀ id ∈ block.terminator.used, id ∈ allUses ssa := by
  constructor
  · intro stmt member id used
    exact List.mem_append_right _ (List.mem_flatMap.mpr ⟨block,inside,
      List.mem_append_left _ (List.mem_flatMap.mpr ⟨stmt,member,used⟩)⟩)
  · intro id used
    exact List.mem_append_right _ (List.mem_flatMap.mpr ⟨block,inside,List.mem_append_right _ used⟩)

theorem dropped_any {gone : Stmt → Prop} {before after : List Stmt} (dropped : Dropped gone before after)
    {test : Stmt → Bool} (kept : ∀ stmt ∈ before, gone stmt → test stmt = false) : after.any test = before.any test := by
  induction dropped with
  | nil => rfl
  | keep stmt _ ih =>
    rw [List.any_cons,List.any_cons,ih fun other member => kept other (List.mem_cons_of_mem _ member)]
  | drop gone _ ih =>
    rw [List.any_cons,kept _ List.mem_cons_self gone,Bool.false_or,
      ih fun other member => kept other (List.mem_cons_of_mem _ member)]

theorem eliminateDead_reduced (preservable : Preservable ssa) :
    Reduced ssa (eliminateDead argRegs (recountUses ssa) ssa) where
  vars := rfl
  entry := rfl
  placed id used := by
    simp only [placed,eliminateDead,List.any_map]
    rw [Bool.eq_iff_iff,List.any_eq_true,List.any_eq_true]
    refine exists_congr fun block => and_congr_right fun inside => ?_
    have same := @dropped_any _ _ _ (@eliminateStmts_dropped argRegs (recountUses ssa) ssa.vars block.terminator
      block.stmts) (·.binds == some id) fun stmt member removable => by
        cases stmt with
        | assign u =>
          have unused := (removed_unused preservable inside member removable).1
          simp only [Stmt.binds,beq_eq_false_iff_ne,ne_eq,Option.some.injEq]
          exact fun here => unused (here ▸ used)
        | store addr val => rfl
        | call target args out => exact removable.elim
    rw [Function.comp_apply,same]

-- A run that loads no byte of a store that goes ends in the same way without what goes.
theorem run_alike (preservable : Preservable ssa) (steps : Nat) {id prev : BlockId} {final : SsaState}
    (alike : Alike ssa s s') (ended : s.run world ssa steps id prev = some final) (kept : LoadsKept ssa final.log) :
    ∃ final', s'.run world (eliminateDead argRegs (recountUses ssa) ssa) steps id prev = some final' ∧
      Alike ssa final final' := by
  induction steps generalizing s s' id prev with
  | zero => cases ended
  | succ steps ih =>
    have reduced := @eliminateDead_reduced _ argRegs preservable
    unfold SsaState.run at ended ⊢
    cases found : ssa.blocks[id]? with
    | none => simp [found] at ended
    | some body =>
      have inside := List.mem_of_getElem? found
      obtain ⟨stmtUses,terminatorUses⟩ := stmt_used inside
      simp only [found] at ended
      simp only [eliminated_block found]
      have whole : LoadsKept ssa (s.block world ssa id prev body).2.log := by
        split at ended
        · rename_i result
          obtain rfl := Option.some.inj ended
          rwa [result]
        · rename_i result
          rw [result]
          exact kept.before (run_log steps ended)
      have entries : Alike ssa { s with entered := s.val } { s' with entered := s'.val } :=
        ⟨alike.val,alike.val,alike.mem,alike.log⟩
      have stmts := stmts_alike reduced id prev (@eliminateStmts_dropped argRegs _ _ body.terminator body.stmts)
        stmtUses (fun u member => removed_unused preservable inside member) entries
        (whole.before (terminator_log _ _))
      obtain ⟨next,states⟩ := terminator_alike reduced stmts terminatorUses whole
      have result : (s.block world ssa id prev body).1 = (s'.block world (eliminateDead argRegs (recountUses ssa) ssa) id
          prev { body with stmts := (eliminateStmts argRegs (recountUses ssa) ssa.vars body.terminator body.stmts).1 }).1 ∧
        Alike ssa (s.block world ssa id prev body).2 (s'.block world (eliminateDead argRegs (recountUses ssa) ssa) id
          prev { body with stmts := (eliminateStmts argRegs (recountUses ssa) ssa.vars body.terminator body.stmts).1 }).2 :=
        ⟨next,states⟩
      clear next states
      obtain ⟨next,states⟩ := result
      cases ends : s.block world ssa id prev body with
      | mk goesOn middle =>
        cases ends' : s'.block world (eliminateDead argRegs (recountUses ssa) ssa) id prev { body with
            stmts := (eliminateStmts argRegs (recountUses ssa) ssa.vars body.terminator body.stmts).1 } with
        | mk goesOn' middle' =>
          rw [ends,ends'] at next states
          simp only at next
          subst next
          cases goesOn with
          | none =>
            simp only [ends,Option.some.injEq] at ended
            subst ended
            exact ⟨middle',rfl,states⟩
          | some successor =>
            simp only [ends] at ended
            exact ih states ended

end Runs

end Simulation

section References

-- What a statement or a terminator refers to, through any chain of expressions.
inductive Referenced (ssa : SsaCfg) : VarId → Prop where
  | stmt : block ∈ ssa.blocks → stmt ∈ block.stmts → u ∈ stmt.used → Referenced ssa u
  | expr : block ∈ ssa.blocks → .assign v ∈ block.stmts → UsedBy ssa.vars v u → Referenced ssa u
  | terminator : block ∈ ssa.blocks → u ∈ block.terminator.used → Referenced ssa u
  | chain : Referenced ssa v → UsedBy ssa.vars v u → Referenced ssa u

theorem dropped_sublist {gone : Stmt → Prop} (dropped : Dropped gone before after) : after.Sublist before := by
  induction dropped with
  | nil => exact .slnil
  | keep stmt _ ih => exact ih.cons_cons stmt
  | drop _ _ ih => exact ih.cons _

theorem dropped_gone {gone : Stmt → Prop} (dropped : Dropped gone before after) {stmt : Stmt}
    (fewer : after.count stmt < before.count stmt) : stmt ∈ before ∧ gone stmt := by
  induction dropped with
  | nil => simp at fewer
  | keep other _ ih =>
    rw [List.count_cons,List.count_cons] at fewer
    obtain ⟨member,isGone⟩ := ih (by omega)
    exact ⟨List.mem_cons_of_mem _ member,isGone⟩
  | @drop other _ _ isGone _ ih =>
    by_cases same : other = stmt
    · rw [← same]
      exact ⟨List.mem_cons_self,isGone⟩
    · rw [List.count_cons_of_ne same] at fewer
      obtain ⟨member,isGone⟩ := ih fewer
      exact ⟨List.mem_cons_of_mem _ member,isGone⟩

theorem referenced_used {argRegs : List UInt64} {ssa : SsaCfg}
    (referenced : Referenced (eliminateDead argRegs (recountUses ssa) ssa) u) : u ∈ allUses ssa := by
  have original {block' : SsaBlock} (inside : block' ∈ (eliminateDead argRegs (recountUses ssa) ssa).blocks) :
      ∃ block ∈ ssa.blocks, block'.terminator = block.terminator ∧ ∀ stmt ∈ block'.stmts, stmt ∈ block.stmts := by
    obtain ⟨block,member,rfl⟩ := List.mem_map.mp inside
    exact ⟨block,member,rfl,fun stmt inside => (dropped_sublist (eliminateStmts_dropped _ _)).mem inside⟩
  induction referenced with
  | stmt inside member used =>
    obtain ⟨block,isBlock,_,stmts⟩ := original inside
    exact (stmt_used isBlock).1 _ (stmts _ member) _ used
  | expr _ _ used => exact operand_used used
  | terminator inside used =>
    obtain ⟨block,isBlock,same,_⟩ := original inside
    exact (stmt_used isBlock).2 _ (same ▸ used)
  | chain _ used _ => exact operand_used used

end References

-- No removed assignment is referred to by what remains, and every run that loads no byte last written by a constant
-- stored through the stack pointer shows the same without the removed statements, but for these stores.
theorem eliminateDead_preserves (argRegs : List UInt64) (ssa : SsaCfg) (preservable : Preservable ssa) :
    (∀ (index : BlockId) (block block' : SsaBlock) (id : VarId), ssa.blocks[index]? = some block →
      (eliminateDead argRegs (recountUses ssa) ssa).blocks[index]? = some block' →
      block'.stmts.count (.assign id) < block.stmts.count (.assign id) →
      ¬ Referenced (eliminateDead argRegs (recountUses ssa) ssa) id) ∧
    ∀ (world : SsaWorld) (start final : SsaState) (steps : Nat) (prev : BlockId),
      start.run world ssa steps ssa.entry prev = some final → LoadsKept ssa final.log →
      ∃ final', start.run world (eliminateDead argRegs (recountUses ssa) ssa) steps
          (eliminateDead argRegs (recountUses ssa) ssa).entry prev = some final' ∧
        shown ssa final'.log = shown ssa final.log := by
  constructor
  · intro index block block' id found found' fewer referenced
    rw [eliminated_block found] at found'
    obtain rfl := Option.some.inj found'
    obtain ⟨member,removable⟩ := dropped_gone (eliminateStmts_dropped block.terminator block.stmts) fewer
    exact (removed_unused preservable (List.mem_of_getElem? found) member removable).1 (referenced_used referenced)
  · intro world start final steps prev ended kept
    obtain ⟨final',ended',alike⟩ := @run_alike _ _ _ _ argRegs preservable steps _ _ _
      (⟨fun _ _ => rfl,fun _ _ => rfl,fun _ _ => rfl,rfl⟩ : Alike ssa start start) ended kept
    exact ⟨final',ended',alike.log.symm⟩

-- [RSP + 8] = 5; RAX = [ptr]; return RAX, in single bytes. The pointer is RSP + 8, or 256.
def storeThenRead (ptr : VarId) : SsaCfg where
  blocks := [⟨0x401000,[.store 2 3,.assign 4],.ret (some 4)⟩]
  vars := [⟨⟨.register,32,8⟩,.unknown,none,8,false⟩,plainVar (.const 8 8) 8,plainVar (.binOp .add 0 1) 8,
    plainVar (.const 5 1) 1,⟨⟨.register,0,1⟩,.load ptr,none,1,false⟩,plainVar (.const 256 8) 8]
  entry := 0
  diagnostics := []

def plainWorld : SsaWorld := ⟨plainEnv,fun _ => 0,fun _ => [],fun _ _ => 0,fun _ _ => 0⟩

def blankState : SsaState := ⟨fun _ => 0,fun _ => 0,fun _ => 0,[]⟩

theorem storeThenRead_preservable (ptr : VarId) : Preservable (storeThenRead ptr) := by
  constructor
  · intro block inside id member rip
    obtain rfl := List.mem_singleton.mp inside
    simp only [List.mem_cons,Stmt.assign.injEq,reduceCtorEq,List.not_mem_nil,or_false,false_or] at member
    subst member
    exact absurd rip (by simp [writesRip,storeThenRead,varAt,ripOffset])
  · intro block inside id member userOp
    obtain rfl := List.mem_singleton.mp inside
    simp only [List.mem_cons,Stmt.assign.injEq,reduceCtorEq,List.not_mem_nil,or_false,false_or] at member
    subst member
    exact absurd userOp (by simp [isUserOp,storeThenRead,varAt])

def readElsewhere : List SsaEffect :=
  [.store 2 3 [(.ram,8)] 5,.load [(.ram,256)],.ret (some 0)]

theorem readElsewhere_kept : LoadsKept (storeThenRead 5) readElsewhere := by
  intro before cells after split
  unfold readElsewhere at split
  rcases before with _ | ⟨first,_ | ⟨second,_ | ⟨third,rest⟩⟩⟩
  · simp at split
  · simp only [List.cons_append,List.nil_append,List.cons.injEq,SsaEffect.load.injEq] at split
    obtain ⟨rfl,rfl,_⟩ := split
    decide
  · simp at split
  · simp at split

theorem eliminateDead_preserves_elsewhere : Preservable (storeThenRead 5) ∧
    ∃ final', blankState.run plainWorld (eliminateDead [] (recountUses (storeThenRead 5)) (storeThenRead 5)) 1 0 0 =
      some final' ∧ shown (storeThenRead 5) final'.log = [.ret (some 0)] := by
  refine ⟨storeThenRead_preservable 5,?_⟩
  obtain ⟨final',ended,same⟩ := (eliminateDead_preserves [] (storeThenRead 5) (storeThenRead_preservable 5)).2 plainWorld
    blankState _ 1 0 rfl readElsewhere_kept
  exact ⟨final',ended,same.trans (by decide)⟩

-- The value stored is not read back.
theorem storeThenRead_changes : ∃ final final',
    blankState.run plainWorld (storeThenRead 2) 1 0 0 = some final ∧
    blankState.run plainWorld (eliminateDead [] (recountUses (storeThenRead 2)) (storeThenRead 2)) 1 0 0 = some final' ∧
    final.log.getLast? = some (.ret (some 5)) ∧ final'.log.getLast? = some (.ret (some 0)) :=
  ⟨_,_,rfl,rfl,by decide,by decide⟩

end Rsleigh.Decompile
