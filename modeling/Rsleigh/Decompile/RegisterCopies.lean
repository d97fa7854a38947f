import Mathlib
import Rsleigh.Decompile.Values

namespace Rsleigh.Decompile

open Pcode

section Copies

-- The slot of a register that an assignment is looked up by.
abbrev RegisterKey := UInt64 × UInt32

def registerKey (vars : List VarDef) (id : VarId) : RegisterKey :=
  ((varAt vars id).varnode.offset, (varAt vars id).varnode.size)

def inRegister (vars : List VarDef) (id : VarId) : Bool := (varAt vars id).varnode.space = .register

-- `Stmt::Assign(id)`.
def Stmt.assigned : Stmt → Option VarId
  | .assign id => some id
  | _ => none

def assignedVars (stmts : List Stmt) : List VarId := stmts.filterMap Stmt.assigned

-- The new definition of an assigned register, where the one assigned most recently takes the place of its left
-- operand. The use counts are those of the last recount.
def copiedDefinition (uses : VarId → UInt32) (vars : List VarDef) (recent : RegisterKey → Option VarId) (id : VarId) :
    Option Expr :=
  match (varAt vars id).expr with
  | .binOp kind left right =>
    if inRegister vars left ∧ (varAt vars left).varnode.offset = (varAt vars id).varnode.offset ∧ uses left ≤ 1 then
      (recent (registerKey vars id)).map fun prev => .binOp kind prev right
    else none
  | _ => none

-- What one block replaces, in the order of its statements.
def registerCopies (uses : VarId → UInt32) (vars : List VarDef) :
    (recent : RegisterKey → Option VarId) → List VarId → List (VarId × Expr)
  | _, [] => []
  | recent, id :: rest =>
    if inRegister vars id then
      ((copiedDefinition uses vars recent id).map fun expr => (id, expr)).toList ++
        registerCopies uses vars (Function.update recent (registerKey vars id) (some id)) rest
    else registerCopies uses vars recent rest

def applyCopies (vars : List VarDef) (copies : List (VarId × Expr)) : List VarDef :=
  copies.foldl (fun vars copy => rewriteExpr vars copy.1 copy.2) vars

def propagateBlock (uses : VarId → UInt32) (vars : List VarDef) (block : SsaBlock) : List VarDef :=
  applyCopies vars (registerCopies uses vars (fun _ => none) (assignedVars block.stmts))

def propagateRegisterCopies (uses : VarId → UInt32) (ssa : SsaCfg) : SsaCfg :=
  { ssa with vars := ssa.blocks.foldl (propagateBlock uses) ssa.vars }

-- The last of these variables that is in the slot.
def lastAssigned (vars : List VarDef) (key : RegisterKey) (ids : List VarId) : Option VarId :=
  (ids.filter fun id => inRegister vars id && registerKey vars id = key).getLast?

-- `v` is a register that an operation on an earlier version defines, of the same offset and with at most this use,
-- and `prev` was assigned to its slot last in the block.
structure ReadsEarlier (uses : VarId → UInt32) (vars : List VarDef) (ids : List VarId) (v prev : VarId)
    (kind : BinOpKind) (left right : VarId) : Prop where
  register : inRegister vars v = true
  definition : (varAt vars v).expr = .binOp kind left right
  operand : inRegister vars left = true
  offset : (varAt vars left).varnode.offset = (varAt vars v).varnode.offset
  once : uses left ≤ 1
  recent : ∃ before after, ids = before ++ v :: after ∧ lastAssigned vars (registerKey vars v) before = some prev

theorem copiedDefinition_eq {id : VarId} {recent : RegisterKey → Option VarId} :
    copiedDefinition uses vars recent id = some expr ↔
      ∃ kind left right prev, (varAt vars id).expr = .binOp kind left right ∧ inRegister vars left = true ∧
        (varAt vars left).varnode.offset = (varAt vars id).varnode.offset ∧ uses left ≤ 1 ∧
        recent (registerKey vars id) = some prev ∧ expr = .binOp kind prev right := by
  unfold copiedDefinition
  constructor
  · intro copied
    split at copied
    · rename_i kind left right definition
      split at copied
      · rename_i read
        obtain ⟨prev,found,rfl⟩ := Option.map_eq_some_iff.mp copied
        exact ⟨kind,left,right,prev,definition,read.1,read.2.1,read.2.2,found,rfl⟩
      · cases copied
    · cases copied
  · rintro ⟨kind,left,right,prev,definition,operand,offset,once,found,rfl⟩
    simp [definition,operand,offset,once,found]

theorem lastAssigned_cons {key : RegisterKey} (id : VarId) (before : List VarId) :
    lastAssigned vars key (id :: before) =
      (lastAssigned vars key before).or (if inRegister vars id ∧ registerKey vars id = key then some id else none) := by
  unfold lastAssigned
  by_cases here : inRegister vars id = true ∧ registerKey vars id = key
  · rw [List.filter_cons_of_pos (by simp [here]),if_pos here]
    rw [List.getLast?_cons]
    cases (before.filter fun id => inRegister vars id && registerKey vars id = key).getLast? <;> rfl
  · rw [List.filter_cons_of_neg (by simpa using here),if_neg here,Option.or_none]

theorem mem_registerCopies {recent : RegisterKey → Option VarId} :
    (v,expr) ∈ registerCopies uses vars recent ids ↔
      ∃ before after, ids = before ++ v :: after ∧ inRegister vars v = true ∧
        copiedDefinition uses vars (fun key => (lastAssigned vars key before).or (recent key)) v = some expr := by
  induction ids generalizing recent with
  | nil => simp [registerCopies]
  | cons id rest ih =>
    have split (P : List VarId → List VarId → Prop) :
        (∃ before after, id :: rest = before ++ v :: after ∧ P before after) ↔
          (id = v ∧ P [] rest) ∨ ∃ before after, rest = before ++ v :: after ∧ P (id :: before) after := by
      constructor
      · rintro ⟨before,after,equal,holds⟩
        cases before with
        | nil =>
          obtain ⟨rfl,rfl⟩ := List.cons.inj equal
          exact .inl ⟨rfl,holds⟩
        | cons first before =>
          obtain ⟨rfl,rfl⟩ := List.cons.inj equal
          exact .inr ⟨before,after,rfl,holds⟩
      · rintro (⟨rfl,holds⟩ | ⟨before,after,rfl,holds⟩)
        · exact ⟨[],rest,rfl,holds⟩
        · exact ⟨id :: before,after,rfl,holds⟩
    rw [split]
    have none : (fun key => (lastAssigned vars key []).or (recent key)) = recent := by
      funext key
      simp [lastAssigned]
    rw [none,registerCopies]
    by_cases register : inRegister vars id = true
    · have known (before : List VarId) : (fun key => (lastAssigned vars key before).or
          (Function.update recent (registerKey vars id) (some id) key)) =
          fun key => (lastAssigned vars key (id :: before)).or (recent key) := by
        funext key
        rw [lastAssigned_cons,Option.or_assoc]
        by_cases same : key = registerKey vars id
        · subst same
          rw [Function.update_self,if_pos ⟨register,rfl⟩,Option.some_or]
        · rw [Function.update_of_ne same,if_neg fun here => same here.2.symm,Option.none_or]
      rw [if_pos register,List.mem_append,ih]
      simp only [known]
      refine or_congr ⟨?_,?_⟩ Iff.rfl
      · intro copied
        obtain ⟨expr',found,equal⟩ := Option.map_eq_some_iff.mp (Option.mem_toList.mp copied)
        obtain ⟨rfl,rfl⟩ := Prod.mk.inj equal
        exact ⟨rfl,register,found⟩
      · rintro ⟨rfl,_,found⟩
        exact Option.mem_toList.mpr (Option.map_eq_some_iff.mpr ⟨expr,found,rfl⟩)
    · have known (before : List VarId) : (fun key => (lastAssigned vars key before).or (recent key)) =
          fun key => (lastAssigned vars key (id :: before)).or (recent key) := by
        funext key
        rw [lastAssigned_cons,if_neg fun here => register here.1,Option.or_none]
      rw [if_neg register,ih]
      constructor
      · rintro ⟨before,after,place,inside,copied⟩
        rw [known before] at copied
        exact .inr ⟨before,after,place,inside,copied⟩
      · rintro (⟨rfl,inside,_⟩ | ⟨before,after,place,inside,copied⟩)
        · exact absurd inside register
        · rw [← known before] at copied
          exact ⟨before,after,place,inside,copied⟩

theorem registerCopies_reads :
    (v,expr) ∈ registerCopies uses vars (fun _ => none) ids ↔
      ∃ kind left right prev, ReadsEarlier uses vars ids v prev kind left right ∧ expr = .binOp kind prev right := by
  rw [mem_registerCopies]
  simp only [Option.or_none]
  constructor
  · rintro ⟨before,after,place,register,copied⟩
    obtain ⟨kind,left,right,prev,definition,operand,offset,once,found,rfl⟩ := copiedDefinition_eq.mp copied
    exact ⟨kind,left,right,prev,⟨register,definition,operand,offset,once,before,after,place,found⟩,rfl⟩
  · rintro ⟨kind,left,right,prev,reads,rfl⟩
    obtain ⟨before,after,place,found⟩ := reads.recent
    exact ⟨before,after,place,reads.register,copiedDefinition_eq.mpr
      ⟨kind,left,right,prev,reads.definition,reads.operand,reads.offset,reads.once,found,rfl⟩⟩

theorem registerCopies_sublist (uses : VarId → UInt32) (vars : List VarDef) (recent : RegisterKey → Option VarId)
    (ids : List VarId) : ((registerCopies uses vars recent ids).map Prod.fst).Sublist ids := by
  induction ids generalizing recent with
  | nil => simp [registerCopies]
  | cons id rest ih =>
    rw [registerCopies]
    split
    · cases copiedDefinition uses vars recent id with
      | none => exact (ih _).cons id
      | some expr => exact (ih _).cons_cons id
    · exact (ih _).cons id

@[simp] theorem size_applyCopies (vars : List VarDef) (copies : List (VarId × Expr)) (id : VarId) :
    (varAt (applyCopies vars copies) id).size = (varAt vars id).size := by
  induction copies generalizing vars with
  | nil => rfl
  | cons copy rest ih =>
    rw [applyCopies,List.foldl_cons,← applyCopies,ih,size_rewriteExpr]

theorem varnode_rewriteExpr (vars : List VarDef) (id : VarId) (expr : Expr) (other : VarId) :
    (varAt (rewriteExpr vars id expr) other).varnode = (varAt vars other).varnode := by
  unfold varAt rewriteExpr
  rw [List.getElem?_modify]
  by_cases same : id = other
  · subst same
    cases vars[id]? <;> simp
  · simp [same]

theorem varnode_applyCopies (vars : List VarDef) (copies : List (VarId × Expr)) (id : VarId) :
    (varAt (applyCopies vars copies) id).varnode = (varAt vars id).varnode := by
  induction copies generalizing vars with
  | nil => rfl
  | cons copy rest ih =>
    rw [applyCopies,List.foldl_cons,← applyCopies,ih,varnode_rewriteExpr]

theorem varAt_rewriteExpr_other {id other : VarId} (different : other ≠ id) (vars : List VarDef) (expr : Expr) :
    varAt (rewriteExpr vars id expr) other = varAt vars other := by
  unfold varAt rewriteExpr
  rw [List.getElem?_modify]
  simp [Ne.symm different]

theorem varAt_applyCopies {id : VarId} {copies : List (VarId × Expr)} (untouched : id ∉ copies.map Prod.fst) (vars : List VarDef) :
    varAt (applyCopies vars copies) id = varAt vars id := by
  induction copies generalizing vars with
  | nil => rfl
  | cons copy rest ih =>
    rw [List.map_cons,List.mem_cons,not_or] at untouched
    rw [applyCopies,List.foldl_cons,← applyCopies,ih untouched.2,varAt_rewriteExpr_other untouched.1]

theorem holds_untouched {env : Env} {vars vars' : List VarDef} {val : VarId → Nat}
    (same : varAt vars' v = varAt vars v) (sizes : ∀ u, (varAt vars' u).size = (varAt vars u).size) :
    HoldsValue env vars' val v ↔ HoldsValue env vars val v := by
  have value (size : UInt32) (expr : Expr) : exprValue env vars' val size expr = exprValue env vars val size expr := by
    cases expr <;> simp [exprValue,sizes]
  constructor
  · intro holds
    exact ⟨by simpa [same] using holds.within,fun x computed => by
      simpa [same] using holds.computed x (by simpa [same,value] using computed)⟩
  · intro holds
    exact ⟨by simpa [same] using holds.within,fun x computed => by
      simpa [same] using holds.computed x (by simpa [same,value] using computed)⟩

-- Replacing definitions keeps the value of a variable where its own new definition has it.
theorem holds_applyCopies {env : Env} {vars : List VarDef} {val : VarId → Nat} {copies : List (VarId × Expr)}
    (once : (copies.map Prod.fst).Nodup) (inRange : ∀ copy ∈ copies, copy.1 < vars.length)
    (valued : HoldsValue env vars val v) :
    HoldsValue env (applyCopies vars copies) val v ↔ ∀ expr, (v,expr) ∈ copies → KeepsValue env vars val v expr := by
  induction copies generalizing vars with
  | nil => simpa [applyCopies] using valued
  | cons copy rest ih =>
    obtain ⟨u,expr⟩ := copy
    rw [List.map_cons,List.nodup_cons] at once
    rw [applyCopies,List.foldl_cons,← applyCopies]
    by_cases here : v = u
    · subst here
      have later : HoldsValue env (applyCopies (rewriteExpr vars v expr) rest) val v ↔
          HoldsValue env (rewriteExpr vars v expr) val v :=
        holds_untouched (varAt_applyCopies once.1 _) fun w => size_applyCopies _ _ w
      rw [later,holds_rewriteExpr (inRange (v,expr) (by simp)) valued]
      constructor
      · intro keeps other inside
        rcases List.mem_cons.mp inside with same | inside
        · rw [(Prod.mk.inj same).2]
          exact keeps
        · exact absurd (List.mem_map_of_mem inside) once.1
      · exact fun keeps => keeps expr (by simp)
    · have valued' : HoldsValue env (rewriteExpr vars u expr) val v :=
        (holds_untouched (varAt_rewriteExpr_other here vars expr) fun w => size_rewriteExpr _ _ _ w).mpr valued
      rw [ih once.2 (fun copy inside => by simpa using inRange copy (by simp [inside])) valued']
      constructor
      · intro keeps other inside
        rcases List.mem_cons.mp inside with same | inside
        · exact absurd (Prod.mk.inj same).1 here
        · simpa [KeepsValue] using keeps other inside
      · intro keeps other inside
        simpa [KeepsValue] using keeps other (by simp [inside])

theorem registerCopies_congr {vars vars' : List VarDef} (varnodes : ∀ id, (varAt vars' id).varnode = (varAt vars id).varnode)
    (definitions : ∀ id ∈ ids, (varAt vars' id).expr = (varAt vars id).expr) (recent : RegisterKey → Option VarId) :
    registerCopies uses vars' recent ids = registerCopies uses vars recent ids := by
  have registers (id : VarId) : inRegister vars' id = inRegister vars id := by simp [inRegister,varnodes]
  have keys (id : VarId) : registerKey vars' id = registerKey vars id := by simp [registerKey,varnodes]
  induction ids generalizing recent with
  | nil => rfl
  | cons id rest ih =>
    have copied : copiedDefinition uses vars' recent id = copiedDefinition uses vars recent id := by
      unfold copiedDefinition
      rw [definitions id (by simp)]
      simp only [registers,keys,varnodes]
    rw [registerCopies,registerCopies,registers,copied,keys]
    simp only [ih (fun other inside => definitions other (by simp [inside]))]

theorem propagateRegisterCopies_vars (uses : VarId → UInt32) (ssa : SsaCfg)
    (single : (ssa.blocks.flatMap fun block => assignedVars block.stmts).Nodup) :
    (propagateRegisterCopies uses ssa).vars = applyCopies ssa.vars
      (ssa.blocks.flatMap fun block => registerCopies uses ssa.vars (fun _ => none) (assignedVars block.stmts)) := by
  rw [propagateRegisterCopies]
  dsimp only
  generalize ssa.vars = vars
  generalize ssa.blocks = blocks at single ⊢
  induction blocks generalizing vars with
  | nil => rfl
  | cons block rest ih =>
    rw [List.flatMap_cons,List.nodup_append] at single
    obtain ⟨_,others,apart⟩ := single
    rw [List.foldl_cons,ih _ others,propagateBlock,List.flatMap_cons]
    have same : ∀ later ∈ rest,
        registerCopies uses (applyCopies vars (registerCopies uses vars (fun _ => none) (assignedVars block.stmts)))
          (fun _ => none) (assignedVars later.stmts) =
        registerCopies uses vars (fun _ => none) (assignedVars later.stmts) := by
      intro later inside
      refine registerCopies_congr (varnode_applyCopies _ _) (fun id assigned => ?_) _
      rw [varAt_applyCopies]
      intro touched
      have first := (registerCopies_sublist uses vars (fun _ => none) (assignedVars block.stmts)).subset touched
      exact apart id first id (List.mem_flatMap.mpr ⟨later,inside,assigned⟩) rfl
    rw [List.flatMap_congr same]
    simp only [applyCopies,List.foldl_append]

theorem ReadsEarlier.inRange (reads : ReadsEarlier uses vars ids v prev kind left right) : v < vars.length := by
  by_contra outside
  have definition := reads.definition
  unfold varAt at definition
  rw [List.getElem?_eq_none (Nat.le_of_not_lt outside)] at definition
  cases definition

theorem ReadsEarlier.assigned (reads : ReadsEarlier uses vars ids v prev kind left right) : v ∈ ids := by
  obtain ⟨before,after,rfl,_⟩ := reads.recent
  simp

-- The operation has on the register assigned last the value that it has on its operand.
def CopyAgrees (env : Env) (vars : List VarDef) (val : VarId → Nat) (v prev : VarId) (kind : BinOpKind)
    (left right : VarId) : Prop :=
  evalBinary env kind.pcode (varAt vars prev).size (varAt vars v).size (val prev) (val right) ≡
    evalBinary env kind.pcode (varAt vars left).size (varAt vars v).size (val left) (val right)
    [MOD 2 ^ (8 * (varAt vars v).size.toNat)]

theorem keeps_copyAgrees {env : Env} {vars : List VarDef} {val : VarId → Nat} (valued : HoldsValue env vars val v)
    (definition : (varAt vars v).expr = .binOp kind left right) (prev : VarId) :
    KeepsValue env vars val v (.binOp kind prev right) ↔ CopyAgrees env vars val v prev kind left right := by
  have value := valued.computed _ (by rw [definition]; exact rfl)
  unfold KeepsValue CopyAgrees Nat.ModEq
  constructor
  · intro keeps
    rw [← keeps _ rfl,value]
  · intro agrees x computed
    cases Option.some.inj computed
    rw [agrees,value]

theorem registerCopies_nodup (uses : VarId → UInt32) (ssa : SsaCfg)
    (single : (ssa.blocks.flatMap fun block => assignedVars block.stmts).Nodup) :
    ((ssa.blocks.flatMap fun block =>
      registerCopies uses ssa.vars (fun _ => none) (assignedVars block.stmts)).map Prod.fst).Nodup := by
  refine List.Sublist.nodup ?_ single
  rw [List.map_flatMap]
  induction ssa.blocks with
  | nil => simp
  | cons block rest ih =>
    rw [List.flatMap_cons,List.flatMap_cons]
    exact (registerCopies_sublist _ _ _ _).append ih

theorem propagateRegisterCopies_holds {env : Env} {val : VarId → Nat} (uses : VarId → UInt32) (ssa : SsaCfg)
    (single : (ssa.blocks.flatMap fun block => assignedVars block.stmts).Nodup)
    (valued : ∀ v, HoldsValue env ssa.vars val v) :
    (∀ v, HoldsValue env (propagateRegisterCopies uses ssa).vars val v) ↔
      ∀ block ∈ ssa.blocks, ∀ v prev kind left right,
        ReadsEarlier uses ssa.vars (assignedVars block.stmts) v prev kind left right →
        CopyAgrees env ssa.vars val v prev kind left right := by
  have inRange : ∀ copy ∈ ssa.blocks.flatMap fun block =>
      registerCopies uses ssa.vars (fun _ => none) (assignedVars block.stmts), copy.1 < ssa.vars.length := by
    rintro ⟨v,expr⟩ copied
    obtain ⟨block,_,copied⟩ := List.mem_flatMap.mp copied
    obtain ⟨kind,left,right,prev,reads,_⟩ := registerCopies_reads.mp copied
    exact reads.inRange
  rw [propagateRegisterCopies_vars uses ssa single]
  constructor
  · intro holds block inside v prev kind left right reads
    have keeps := (holds_applyCopies (registerCopies_nodup uses ssa single) inRange (valued v)).mp (holds v)
      (.binOp kind prev right)
      (List.mem_flatMap.mpr ⟨block,inside,registerCopies_reads.mpr ⟨kind,left,right,prev,reads,rfl⟩⟩)
    exact (keeps_copyAgrees (valued v) reads.definition prev).mp keeps
  · intro agrees v
    refine (holds_applyCopies (registerCopies_nodup uses ssa single) inRange (valued v)).mpr fun expr copied => ?_
    obtain ⟨block,inside,copied⟩ := List.mem_flatMap.mp copied
    obtain ⟨kind,left,right,prev,reads,rfl⟩ := registerCopies_reads.mp copied
    exact (keeps_copyAgrees (valued v) reads.definition prev).mpr (agrees block inside v prev kind left right reads)

end Copies

section FrameOffset

-- `-s` with overflow checks.
def checkedNeg (s : Int64) : Option Int64 := if s = Int64.minValue then none else some (-s)

-- What an operation adds to the frame register.
def checkedDelta (op : BinOpKind) (s : Int64) : Option Int64 := if op = .sub then checkedNeg s else some s

-- fold.rs: combine_frame_offset, none where an operation overflows.
def combineFrameOffset (op1 : BinOpKind) (c1 : UInt64) (op2 : BinOpKind) (c2 : UInt64) :
    Option (BinOpKind × UInt64) := do
  let s1 := c1.toInt64
  let s2 := c2.toInt64
  let delta1 ← checkedDelta op1 s1
  let delta2 ← checkedDelta op2 s2
  let combined := delta1 + delta2
  if combined < 0 then
    let positive ← checkedNeg combined
    some (.sub, positive.toUInt64)
  else some (.add, combined.toUInt64)

-- `x op c` on 64-bit words.
def offsetBy (op : BinOpKind) (x c : UInt64) : UInt64 := if op = .sub then x - c else x + c

-- What it should add.
def delta (op : BinOpKind) (c : UInt64) : UInt64 := if op = .sub then -c else c

theorem offsetBy_delta (op : BinOpKind) (x c : UInt64) : offsetBy op x c = x + delta op c := by
  unfold offsetBy delta
  split
  · exact UInt64.sub_eq_add_neg x c
  · rfl

theorem toInt64_min {c : UInt64} : c.toInt64 = Int64.minValue ↔ c = 0x8000000000000000 := by
  constructor
  · intro equal
    exact congrArg Int64.toUInt64 equal
  · rintro rfl
    rfl

theorem checkedNeg_eq (c : UInt64) :
    checkedNeg c.toInt64 = if c = 0x8000000000000000 then none else some (-c).toInt64 := by
  unfold checkedNeg
  simp only [toInt64_min]
  rfl

theorem checkedDelta_eq (op : BinOpKind) (c : UInt64) : checkedDelta op c.toInt64 =
    if op = .sub ∧ c = 0x8000000000000000 then none else some (delta op c).toInt64 := by
  unfold checkedDelta delta
  by_cases sub : op = .sub
  · simp only [sub,if_true,true_and,checkedNeg_eq]
  · simp only [sub,if_false,false_and]

theorem combineFrameOffset_value (op1 op2 : BinOpKind) (c1 c2 : UInt64) :
    (∃ op c, combineFrameOffset op1 c1 op2 c2 = some (op,c) ∧
      ∀ x, offsetBy op2 (offsetBy op1 x c1) c2 = offsetBy op x c) ↔
    ¬ (op1 = .sub ∧ c1 = 0x8000000000000000) ∧ ¬ (op2 = .sub ∧ c2 = 0x8000000000000000) ∧
      delta op1 c1 + delta op2 c2 ≠ 0x8000000000000000 := by
  unfold combineFrameOffset
  simp only [checkedDelta_eq]
  by_cases low1 : op1 = .sub ∧ c1 = 0x8000000000000000
  · rw [if_pos low1]
    simp [low1]
  by_cases low2 : op2 = .sub ∧ c2 = 0x8000000000000000
  · rw [if_neg low1,if_pos low2]
    simp [low2]
  rw [if_neg low1,if_neg low2]
  simp only [Option.bind_eq_bind,Option.bind_some,offsetBy_delta,low1,low2,not_false_eq_true,true_and]
  rw [← UInt64.toInt64_add,checkedNeg_eq]
  generalize total_ : delta op1 c1 + delta op2 c2 = total
  have sum (x : UInt64) : x + delta op1 c1 + delta op2 c2 = x + total := by rw [add_assoc,total_]
  simp only [sum]
  by_cases low : total = 0x8000000000000000
  · subst low
    have negative : (0x8000000000000000 : UInt64).toInt64 < 0 := by decide
    rw [if_pos negative]
    simp
  · simp only [low,if_false,Option.bind_some,ne_eq,not_false_eq_true,iff_true]
    by_cases negative : total.toInt64 < 0
    · refine ⟨.sub,-total,by rw [if_pos negative]; rfl,fun x => ?_⟩
      simp [delta]
    · refine ⟨.add,total,by rw [if_neg negative]; rfl,fun x => ?_⟩
      simp [delta]

end FrameOffset

-- A pass keeps the values of the variables exactly where the operations it changes have on the register assigned
-- last what they have on their operand; an offset is combined rightly exactly where no negation overflows.
theorem copiesAndOffsets_value (uses : VarId → UInt32) (ssa : SsaCfg)
    (single : (ssa.blocks.flatMap fun block => assignedVars block.stmts).Nodup) (env : Env) (val : VarId → Nat)
    (valued : ∀ v, HoldsValue env ssa.vars val v) (op1 op2 : BinOpKind) (c1 c2 : UInt64) :
    ((∀ v, HoldsValue env (propagateRegisterCopies uses ssa).vars val v) ↔
      ∀ block ∈ ssa.blocks, ∀ v prev kind left right,
        ReadsEarlier uses ssa.vars (assignedVars block.stmts) v prev kind left right →
        CopyAgrees env ssa.vars val v prev kind left right) ∧
    ((∃ op c, combineFrameOffset op1 c1 op2 c2 = some (op,c) ∧
        ∀ x, offsetBy op2 (offsetBy op1 x c1) c2 = offsetBy op x c) ↔
      ¬ (op1 = .sub ∧ c1 = 0x8000000000000000) ∧ ¬ (op2 = .sub ∧ c2 = 0x8000000000000000) ∧
        delta op1 c1 + delta op2 c2 ≠ 0x8000000000000000) :=
  ⟨propagateRegisterCopies_holds uses ssa single valued,combineFrameOffset_value op1 op2 c1 c2⟩

section Runs

def wideRegister (expr : Expr) : VarDef := ⟨⟨.register,0,8⟩,expr,none,8,false⟩

-- `RAX = 5; RAX = left + 1` with two versions of RAX before the sum.
def countedBlock (left : VarId) : SsaCfg where
  blocks := [⟨0,[.assign 1,.assign 3],.ret none⟩]
  vars := [wideRegister .unknown,wideRegister (.const 5 8),plainVar (.const 1 8) 8,wideRegister (.binOp .add left 2)]
  entry := 0
  diagnostics := []

def countedValue (sum : Nat) (v : VarId) : Nat := [0,5,1,sum].getD v 0

theorem countedBlock_valued {left : VarId} {sum : Nat} (narrow : sum < 2 ^ 64)
    (value : evalBinary plainEnv .intAdd (varAt (countedBlock left).vars left).size 8 (countedValue sum left) 1 = sum) :
    ∀ v, HoldsValue plainEnv (countedBlock left).vars (countedValue sum) v
  | 0 => ⟨(by decide : 0 < 2 ^ 64),fun _ computed => by cases computed⟩
  | 1 => ⟨(by decide : 5 < 2 ^ 64),fun _ computed => by cases computed; rfl⟩
  | 2 => ⟨(by decide : 1 < 2 ^ 64),fun _ computed => by cases computed; rfl⟩
  | 3 => by
    refine ⟨narrow,fun x computed => ?_⟩
    have computed' : evalBinary plainEnv .intAdd (varAt (countedBlock left).vars left).size 8
        (countedValue sum left) 1 = x := Option.some.inj computed
    rw [value] at computed'
    rw [← computed']
    exact (Nat.mod_eq_of_lt narrow).symm
  | v + 4 => ⟨Nat.one_pos,fun _ computed => by cases computed⟩

theorem copiesAndOffsets_value_counted :
    HoldsValue plainEnv (propagateRegisterCopies (fun _ => 1) (countedBlock 1)).vars (countedValue 6) 3 := by
  refine (copiesAndOffsets_value (fun _ => 1) (countedBlock 1) (by decide) plainEnv (countedValue 6)
    (countedBlock_valued (by decide) (by decide)) .add .add 0 0).1.mpr ?_ 3
  intro block inside v prev kind left right reads
  have only : block = ⟨0,[.assign 1,.assign 3],.ret none⟩ := List.mem_singleton.mp inside
  subst only
  have assigned : v ∈ [1,3] := reads.assigned
  have definition := reads.definition
  rcases List.mem_cons.mp assigned with rfl | third
  · cases definition
  · rw [List.mem_singleton.mp third] at definition reads ⊢
    cases definition
    obtain ⟨before,after,place,found⟩ := reads.recent
    rcases before with _ | ⟨first,_ | ⟨second,before⟩⟩
    · cases place
    · have last : lastAssigned (countedBlock 1).vars (registerKey (countedBlock 1).vars 3) [1] = some 1 := by decide
      rw [← (List.cons.inj place).1] at found
      cases last.symm.trans found
      exact Nat.ModEq.refl _
    · have count := congrArg List.length place
      simp [assignedVars,Stmt.assigned] at count

-- An operand that is the version before the last one: the sum is 6, and was 1.
theorem countedBlock_changes : ¬
    ((∀ (uses : VarId → UInt32) (ssa : SsaCfg), (ssa.blocks.flatMap fun block => assignedVars block.stmts).Nodup →
      ∀ env val, (∀ v, HoldsValue env ssa.vars val v) →
        ∀ v, HoldsValue env (propagateRegisterCopies uses ssa).vars val v) ∧
    ∀ (op1 op2 : BinOpKind) (c1 c2 : UInt64), ∃ op c, combineFrameOffset op1 c1 op2 c2 = some (op,c) ∧
      ∀ x, offsetBy op2 (offsetBy op1 x c1) c2 = offsetBy op x c) := by
  rintro ⟨keeps,_⟩
  have held := keeps (fun _ => 1) (countedBlock 0) (by decide) plainEnv (countedValue 1)
    (countedBlock_valued (by decide) (by decide)) 3
  have sum := held.computed 6 (by decide +kernel)
  exact absurd sum (by decide)

end Runs

end Rsleigh.Decompile
