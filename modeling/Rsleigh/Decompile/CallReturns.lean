import Rsleigh.Decompile.EliminateDead

namespace Rsleigh.Decompile.CallReturns

open Pcode

-- fold.rs.
def raxOffset : UInt64 := 0

section Pass

variable (useCount : VarId → Nat)

def markReturn (vars : List VarDef) (id : VarId) : List VarDef := vars.modify id fun old => { old with callReturn := true }

def isRax (vars : List VarDef) (id : VarId) : Bool :=
  inRegister vars id && (varAt vars id).varnode.offset == raxOffset

-- The last assignment of a variable that is marked, and what stands before and after it.
def lastMarked (vars : List VarDef) : List Stmt → Option (List Stmt × VarId × List Stmt)
  | [] => none
  | stmt :: rest =>
    match lastMarked vars rest with
    | some (before, id, after) => some (stmt :: before, id, after)
    | none =>
      match stmt with
      | .assign id => if (varAt vars id).callReturn then some ([], id, rest) else none
      | _ => none

def setBlock (ssa : SsaCfg) (bi : BlockId) (stmts : List Stmt) (terminator : SsaTerminator) : SsaCfg :=
  { ssa with blocks := ssa.blocks.modify bi fun block => { block with stmts := stmts, terminator := terminator } }

-- `Wire out`, for a block that ends in a call.
def wireOut (bi : BlockId) (ssa : SsaCfg) : SsaCfg :=
  match ssa.blocks[bi]? with
  | some block =>
    match block.terminator with
    | .call target args _ next =>
      match lastMarked ssa.vars block.stmts with
      | some (before, id, after) =>
        if useCount id > 0 then setBlock ssa bi (before ++ after) (.call target args (some id) next) else ssa
      | none => ssa
    | _ => ssa
  | none => ssa

-- The first unknown assignment of RAX, unless one that is marked comes before it.
def firstUnknown (vars : List VarDef) : List Stmt → Option VarId
  | [] => none
  | .assign id :: rest =>
    if (varAt vars id).callReturn then none
    else if isRax vars id && (varAt vars id).expr == .unknown then some id
    else firstUnknown vars rest
  | _ :: rest => firstUnknown vars rest

def markFallthrough (bi : BlockId) (ssa : SsaCfg) : SsaCfg :=
  match ssa.blocks[bi]? with
  | some block =>
    match block.terminator with
    | .call _ _ _ next =>
      match ssa.blocks[next]? with
      | some target =>
        match firstUnknown ssa.vars target.stmts with
        | some id => { ssa with vars := markReturn ssa.vars id }
        | none => ssa
      | none => ssa
    | _ => ssa
  | none => ssa

def setOut (id : VarId) : Stmt → Stmt
  | .call target args _ => .call target args (some id)
  | stmt => stmt

-- The statements of a block from left to right: those that stay so far, and where the call among them is whose result
-- is still to come.
def bindReturns : List Stmt → List Stmt → Option Nat → List VarDef → List Stmt × List VarDef
  | [], kept, _, vars => (kept, vars)
  | .call target args out :: rest, kept, _, vars =>
    bindReturns rest (kept ++ [.call target args out]) (some kept.length) vars
  | .store addr val :: rest, kept, _, vars => bindReturns rest (kept ++ [.store addr val]) none vars
  | .assign id :: rest, kept, none, vars => bindReturns rest (kept ++ [.assign id]) none vars
  | .assign id :: rest, kept, some call, vars =>
    if (varAt vars id).callReturn then
      if useCount id > 0 then bindReturns rest (kept.modify call (setOut id)) none vars
      else bindReturns rest (kept ++ [.assign id]) none vars
    else if isRax vars id then
      if useCount id > 0 then bindReturns rest (kept.modify call (setOut id)) none (markReturn vars id)
      else bindReturns rest (kept ++ [.assign id]) none (markReturn vars id)
    else bindReturns rest (kept ++ [.assign id]) (some call) vars

def bindStatements (bi : BlockId) (ssa : SsaCfg) : SsaCfg :=
  match ssa.blocks[bi]? with
  | some block =>
    let bound := bindReturns useCount block.stmts [] none ssa.vars
    { setBlock ssa bi bound.1 block.terminator with vars := bound.2 }
  | none => ssa

def propagateBlock (ssa : SsaCfg) (bi : BlockId) : SsaCfg :=
  bindStatements useCount bi (markFallthrough bi (wireOut useCount bi ssa))

def propagateCallReturns (ssa : SsaCfg) : SsaCfg :=
  (List.range ssa.blocks.length).foldl (propagateBlock useCount) ssa

end Pass

-- The passes of a fold round that are about calls, with the counts of the last recount.
structure FoldState where
  ssa : SsaCfg
  useCount : VarId → Nat

inductive FoldPass where
  | propagateCallReturns
  | recountUses
  | eliminateDead (argRegs : List UInt64)
  deriving DecidableEq

def FoldState.apply (state : FoldState) : FoldPass → FoldState
  | .propagateCallReturns => { state with ssa := CallReturns.propagateCallReturns state.useCount state.ssa }
  | .recountUses => { state with useCount := Decompile.recountUses state.ssa }
  | .eliminateDead argRegs => { state with ssa := Decompile.eliminateDead argRegs state.useCount state.ssa }

def FoldState.run (state : FoldState) (passes : List FoldPass) : FoldState := passes.foldl apply state

section Spec

variable (ret : UInt64)

-- What stands for the result of a call: an unknown value of the return register.
def Placeholder (vars : List VarDef) (id : VarId) : Prop :=
  (varAt vars id).expr = .unknown ∧ inRegister vars id = true ∧ (varAt vars id).varnode.offset = ret

-- A statement that defines the register of a variable again, or a part of it. A call does.
def Redefines (vars : List VarDef) (id : VarId) : Stmt → Prop
  | .assign other =>
    let vn := (varAt vars id).varnode
    let vn' := (varAt vars other).varnode
    inRegister vars other = true ∧ vn'.offset.toNat < vn.offset.toNat + vn.size.toNat ∧
      vn.offset.toNat < vn'.offset.toNat + vn'.size.toNat
  | .call _ _ _ => True
  | .store _ _ => False

-- One binding of a result to the call that it is of. Nothing else changes.
inductive Binds : SsaCfg → SsaCfg → Prop where
  -- After a call, with no other definition between.
  | statement {ssa : SsaCfg} {bi : BlockId} {block : SsaBlock} : ssa.blocks[bi]? = some block →
    block.stmts = before ++ .call target args out :: (mid ++ .assign v :: after) → Placeholder ret ssa.vars v →
    (∀ stmt ∈ mid, ¬ Redefines ssa.vars v stmt) →
    Binds ssa { setBlock ssa bi (before ++ .call target args (some v) :: (mid ++ after)) block.terminator with
      vars := markReturn ssa.vars v }
  | marked {ssa : SsaCfg} {bi : BlockId} {block : SsaBlock} : ssa.blocks[bi]? = some block →
    block.stmts = before ++ .call target args out :: (mid ++ .assign v :: after) → Placeholder ret ssa.vars v →
    (∀ stmt ∈ mid, ¬ Redefines ssa.vars v stmt) → Binds ssa { ssa with vars := markReturn ssa.vars v }
  -- At the end of a block, and not the result of a call within it.
  | terminator {ssa : SsaCfg} {bi : BlockId} {block : SsaBlock} : ssa.blocks[bi]? = some block → block.terminator = .call target args out next →
    block.stmts = before ++ .assign v :: after → Placeholder ret ssa.vars v →
    (∀ stmt ∈ after, ¬ Redefines ssa.vars v stmt) →
    (∀ earlier target args mid, before = earlier ++ .call target args none :: mid → ∃ stmt ∈ mid, Redefines ssa.vars v stmt) →
    Binds ssa (setBlock ssa bi (before ++ after) (.call target args (some v) next))
  | fallthrough {ssa : SsaCfg} {bi : BlockId} {block block' : SsaBlock} : ssa.blocks[bi]? = some block → block.terminator = .call target args out next →
    ssa.blocks[next]? = some block' → block'.stmts = before ++ .assign v :: after → Placeholder ret ssa.vars v →
    (∀ stmt ∈ before, ¬ Redefines ssa.vars v stmt) → Binds ssa { ssa with vars := markReturn ssa.vars v }

def MarksHold (vars : List VarDef) : Prop := ∀ v, (varAt vars v).callReturn = true → Placeholder ret vars v

-- An assignment that the scan after a call stops at.
def Stops (vars : List VarDef) (v : VarId) : Prop := (varAt vars v).callReturn = true ∨ isRax vars v = true

-- After `mid`, the first such assignment in a row of them is a placeholder, unless nothing is made of it.
def Follows (useCount : VarId → Nat) (vars : List VarDef) (mid rest : List Stmt) : Prop :=
  ∀ mid' v after, rest = mid' ++ .assign v :: after → (∀ stmt ∈ mid', ∃ u, stmt = .assign u ∧ ¬ Stops vars u) →
    Stops vars v → useCount v > 0 ∨ (varAt vars v).callReturn = false →
    ((varAt vars v).callReturn = false → Placeholder ret vars v) ∧ ∀ stmt ∈ mid ++ mid', ¬ Redefines vars v stmt

def StatementsMet (useCount : VarId → Nat) (vars : List VarDef) (stmts : List Stmt) : Prop :=
  ∀ before target args out rest, stmts = before ++ .call target args out :: rest → Follows ret useCount vars [] rest

-- What is marked last in a block that ends in a call, and used, is the result of that call.
def TerminatorMet (useCount : VarId → Nat) (vars : List VarDef) (block : SsaBlock) : Prop :=
  block.terminator.isCall = true → ∀ before v after, block.stmts = before ++ .assign v :: after →
    (varAt vars v).callReturn = true → (∀ u, .assign u ∈ after → (varAt vars u).callReturn = false) → useCount v > 0 →
    (∀ stmt ∈ after, ¬ Redefines vars v stmt) ∧
      ∀ earlier target args mid, before = earlier ++ .call target args none :: mid → ∃ stmt ∈ mid, Redefines vars v stmt

-- The first unknown assignment of RAX where a call returns to is not after another definition.
def FallthroughMet (ssa : SsaCfg) (block : SsaBlock) : Prop :=
  ∀ target args out next block', block.terminator = .call target args out next → ssa.blocks[next]? = some block' →
    ∀ before v after, block'.stmts = before ++ .assign v :: after →
      (∀ u, .assign u ∈ before → (varAt ssa.vars u).callReturn = false ∧
        ¬ (isRax ssa.vars u = true ∧ (varAt ssa.vars u).expr = .unknown)) →
      (varAt ssa.vars v).callReturn = false → isRax ssa.vars v = true → (varAt ssa.vars v).expr = .unknown →
      ret = raxOffset ∧ ∀ stmt ∈ before, ¬ Redefines ssa.vars v stmt

-- Before each of the three parts that a block takes.
structure BlockMet (useCount : VarId → Nat) (ssa : SsaCfg) (bi : BlockId) : Prop where
  terminator : ∀ block, ssa.blocks[bi]? = some block → TerminatorMet useCount ssa.vars block
  fallthrough : ∀ block, (wireOut useCount bi ssa).blocks[bi]? = some block →
    FallthroughMet ret (wireOut useCount bi ssa) block
  statements : ∀ block, (markFallthrough bi (wireOut useCount bi ssa)).blocks[bi]? = some block →
    StatementsMet ret useCount (markFallthrough bi (wireOut useCount bi ssa)).vars block.stmts

def Met (state : FoldState) : FoldPass → Prop
  | .propagateCallReturns => ∀ bi < state.ssa.blocks.length,
    BlockMet ret state.useCount ((List.range bi).foldl (propagateBlock state.useCount) state.ssa) bi
  | _ => True

end Spec

section Marks

variable {ret : UInt64} {vars : List VarDef}

theorem varAt_markReturn (vars : List VarDef) (v u : VarId) :
    (varAt (markReturn vars v) u).expr = (varAt vars u).expr ∧
      (varAt (markReturn vars v) u).varnode = (varAt vars u).varnode ∧
      ((varAt (markReturn vars v) u).callReturn = true → (varAt vars u).callReturn = true ∨ u = v) ∧
      ((varAt vars u).callReturn = true → (varAt (markReturn vars v) u).callReturn = true) := by
  unfold varAt markReturn
  rw [List.getElem?_modify]
  by_cases same : v = u
  · subst same
    cases vars[v]? <;> simp
  · simp [same]
    exact .inl

@[simp] theorem expr_markReturn (vars : List VarDef) (v u : VarId) :
    (varAt (markReturn vars v) u).expr = (varAt vars u).expr := (varAt_markReturn vars v u).1

@[simp] theorem varnode_markReturn (vars : List VarDef) (v u : VarId) :
    (varAt (markReturn vars v) u).varnode = (varAt vars u).varnode := (varAt_markReturn vars v u).2.1

theorem unmarked_markReturn {v u : VarId} (unmarked : (varAt (markReturn vars v) u).callReturn = false) :
    (varAt vars u).callReturn = false := by
  by_contra marked
  rw [Bool.not_eq_false] at marked
  rw [(varAt_markReturn vars v u).2.2.2 marked] at unmarked
  cases unmarked

@[simp] theorem inRegister_markReturn (vars : List VarDef) (v u : VarId) :
    inRegister (markReturn vars v) u = inRegister vars u := by simp [inRegister]

@[simp] theorem isRax_markReturn (vars : List VarDef) (v u : VarId) : isRax (markReturn vars v) u = isRax vars u := by
  simp [isRax]

@[simp] theorem placeholder_markReturn (v u : VarId) :
    Placeholder ret (markReturn vars v) u ↔ Placeholder ret vars u := by simp [Placeholder]

@[simp] theorem redefines_markReturn (v u : VarId) (stmt : Stmt) :
    Redefines (markReturn vars v) u stmt ↔ Redefines vars u stmt := by
  cases stmt <;> simp [Redefines]

theorem markReturn_marked {v : VarId} (marked : (varAt vars v).callReturn = true) : markReturn vars v = vars := by
  unfold markReturn
  apply List.ext_getElem?
  intro u
  rw [List.getElem?_modify]
  by_cases same : v = u
  · subst same
    cases found : vars[v]? with
    | none => rfl
    | some old =>
      have here : old.callReturn = true := by simpa [varAt,found] using marked
      simp [← here]
  · simp [same]

theorem marks_markReturn {v : VarId} (marks : MarksHold ret vars) (holder : Placeholder ret vars v) :
    MarksHold ret (markReturn vars v) := by
  intro u marked
  rw [placeholder_markReturn]
  rcases (varAt_markReturn vars v u).2.2.1 marked with before | rfl
  · exact marks u before
  · exact holder

theorem stops_markReturn {v : VarId} (stops : Stops vars v) (u : VarId) : Stops (markReturn vars v) u ↔ Stops vars u := by
  unfold Stops
  rw [isRax_markReturn]
  constructor
  · rintro (marked | rax)
    · rcases (varAt_markReturn vars v u).2.2.1 marked with before | rfl
      · exact .inl before
      · exact stops
    · exact .inr rax
  · rintro (marked | rax)
    · exact .inl ((varAt_markReturn vars v u).2.2.2 marked)
    · exact .inr rax

end Marks

section Scan

variable {ret : UInt64} {useCount : VarId → Nat} {vars : List VarDef}

theorem follows_markReturn {v : VarId} (stops : Stops vars v) (follows : Follows ret useCount vars mid rest) :
    Follows ret useCount (markReturn vars v) mid rest := by
  intro mid' u after split plain stopsAt needed
  have plain' : ∀ stmt ∈ mid', ∃ u, stmt = .assign u ∧ ¬ Stops vars u := by
    intro stmt member
    obtain ⟨w,isAssign,noStop⟩ := plain stmt member
    exact ⟨w,isAssign,fun stop => noStop ((stops_markReturn stops w).mpr stop)⟩
  obtain ⟨holder,alone⟩ := follows mid' u after split plain' ((stops_markReturn stops u).mp stopsAt)
    (needed.imp_right unmarked_markReturn)
  refine ⟨fun unmarked => ?_,fun stmt member => ?_⟩
  · rw [placeholder_markReturn]
    exact holder (unmarked_markReturn unmarked)
  · rw [redefines_markReturn]
    exact alone stmt member

theorem statements_markReturn {v : VarId} (stops : Stops vars v) (met : StatementsMet ret useCount vars stmts) :
    StatementsMet ret useCount (markReturn vars v) stmts :=
  fun before target args out rest split => follows_markReturn stops (met before target args out rest split)

theorem StatementsMet.tail (met : StatementsMet ret useCount vars (stmt :: stmts)) :
    StatementsMet ret useCount vars stmts :=
  fun before target args out rest split => met (stmt :: before) target args out rest (by rw [split]; rfl)

theorem Follows.pass {v : VarId} (follows : Follows ret useCount vars mid (.assign v :: rest)) (plain : ¬ Stops vars v) :
    Follows ret useCount vars (mid ++ [.assign v]) rest := by
  intro mid' u after split row stopsAt needed
  rw [List.append_assoc]
  refine follows (.assign v :: mid') u after (by rw [split]; rfl) (fun stmt member => ?_) stopsAt needed
  rcases List.mem_cons.mp member with rfl | inside
  · exact ⟨v,rfl,plain⟩
  · exact row stmt inside

theorem modify_at (before mid : List Stmt) (stmt : Stmt) (f : Stmt → Stmt) :
    (before ++ stmt :: mid).modify before.length f = before ++ f stmt :: mid := by
  induction before with
  | nil => rfl
  | cons first before ih => simp [ih]

variable {ssa : SsaCfg} {bi : BlockId} {block : SsaBlock}

-- The program while the statements of a block are scanned.
def scanned (ssa : SsaCfg) (bi : BlockId) (block : SsaBlock) (stmts : List Stmt) (vars : List VarDef) : SsaCfg :=
  { setBlock ssa bi stmts block.terminator with vars := vars }

theorem scanned_block (found : ssa.blocks[bi]? = some block) (stmts : List Stmt) (vars : List VarDef) :
    (scanned ssa bi block stmts vars).blocks[bi]? = some { block with stmts := stmts } := by
  simp [scanned,setBlock,found]

theorem scanned_again (stmts stmts' : List Stmt) (vars vars' : List VarDef) :
    ({ setBlock (scanned ssa bi block stmts vars) bi stmts' block.terminator with vars := vars' } : SsaCfg) =
      scanned ssa bi block stmts' vars' := by
  simp only [scanned,setBlock,SsaCfg.mk.injEq,and_true]
  apply List.ext_getElem?
  intro index
  rw [List.getElem?_modify,List.getElem?_modify,List.getElem?_modify]
  by_cases here : bi = index
  · subst here
    cases ssa.blocks[bi]? <;> simp
  · simp [here]

-- Where the call is whose result is still to come, and what stands between.
def Pending (kept mid : List Stmt) (call : Nat) : Prop :=
  ∃ before target args out, kept = before ++ .call target args out :: mid ∧ before.length = call

theorem bindReturns_binds (found : ssa.blocks[bi]? = some block) (rest kept : List Stmt) (call : Option Nat)
    (vars : List VarDef) (marks : MarksHold ret vars) (met : StatementsMet ret useCount vars rest)
    (pending : ∀ c, call = some c → ∃ mid, Pending kept mid c ∧ Follows ret useCount vars mid rest) :
    Relation.ReflTransGen (Binds ret) (scanned ssa bi block (kept ++ rest) vars)
        (scanned ssa bi block (bindReturns useCount rest kept call vars).1 (bindReturns useCount rest kept call vars).2) ∧
      MarksHold ret (bindReturns useCount rest kept call vars).2 := by
  induction rest generalizing kept call vars with
  | nil =>
    rw [List.append_nil]
    exact ⟨.refl,marks⟩
  | cons stmt rest ih =>
    have moved (stmt : Stmt) : kept ++ stmt :: rest = (kept ++ [stmt]) ++ rest := by simp
    cases stmt with
    | call target args out =>
      rw [moved]
      refine ih (kept ++ [.call target args out]) (some kept.length) vars marks met.tail ?_
      intro c here
      obtain rfl := Option.some.inj here
      exact ⟨[],⟨kept,target,args,out,rfl,rfl⟩,met [] target args out rest rfl⟩
    | store addr val =>
      rw [moved]
      exact ih (kept ++ [.store addr val]) none vars marks met.tail (fun c here => by cases here)
    | assign v =>
      cases call with
      | none =>
        rw [moved]
        exact ih (kept ++ [.assign v]) none vars marks met.tail (fun c here => by cases here)
      | some c =>
        obtain ⟨mid,⟨before,target,args,out,keptIs,length⟩,follows⟩ := pending c rfl
        have split : kept ++ .assign v :: rest = before ++ .call target args out :: (mid ++ .assign v :: rest) := by
          rw [keptIs,List.append_assoc,List.cons_append]
        have here := scanned_block found (kept ++ .assign v :: rest) vars
        have first (needed : useCount v > 0 ∨ (varAt vars v).callReturn = false) (stops : Stops vars v) :
            Placeholder ret vars v ∧ ∀ stmt ∈ mid, ¬ Redefines vars v stmt := by
          obtain ⟨holder,alone⟩ := follows [] v rest rfl (fun _ member => by cases member) stops needed
          rw [List.append_nil] at alone
          refine ⟨?_,alone⟩
          cases marked : (varAt vars v).callReturn with
          | true => exact marks v marked
          | false => exact holder marked
        have bound (facts : Placeholder ret vars v ∧ ∀ stmt ∈ mid, ¬ Redefines vars v stmt) :
            Binds ret (scanned ssa bi block (kept ++ .assign v :: rest) vars)
              (scanned ssa bi block (kept.modify c (setOut v) ++ rest) (markReturn vars v)) := by
          have step := Binds.statement here split facts.1 facts.2
          rw [scanned_again] at step
          have result : kept.modify c (setOut v) ++ rest = before ++ .call target args (some v) :: (mid ++ rest) := by
            rw [keptIs,← length,modify_at]
            simp [setOut]
          rw [result]
          exact step
        unfold bindReturns
        by_cases marked : (varAt vars v).callReturn = true
        · rw [if_pos marked]
          by_cases used : useCount v > 0
          · rw [if_pos used]
            have step := bound (first (.inl used) (.inl marked))
            rw [markReturn_marked marked] at step
            obtain ⟨binds,marks'⟩ := ih (kept.modify c (setOut v)) none vars marks met.tail (fun c here => by cases here)
            exact ⟨.head step binds,marks'⟩
          · rw [if_neg used,moved]
            exact ih (kept ++ [.assign v]) none vars marks met.tail (fun c here => by cases here)
        · rw [if_neg marked]
          by_cases rax : isRax vars v = true
          · rw [if_pos rax]
            have facts := first (.inr (Bool.not_eq_true _ ▸ marked)) (.inr rax)
            have marks' := marks_markReturn marks facts.1
            have met' := statements_markReturn (.inr rax) met.tail
            by_cases used : useCount v > 0
            · rw [if_pos used]
              obtain ⟨binds,marks''⟩ := ih (kept.modify c (setOut v)) none _ marks' met' (fun c here => by cases here)
              exact ⟨.head (bound facts) binds,marks''⟩
            · rw [if_neg used]
              have step := Binds.marked here split facts.1 facts.2
              obtain ⟨binds,marks''⟩ := ih (kept ++ [.assign v]) none _ marks' met' (fun c here => by cases here)
              rw [← moved] at binds
              exact ⟨.head step binds,marks''⟩
          · rw [if_neg rax,moved]
            have plain : ¬ Stops vars v := by
              rintro (stop | stop)
              · exact marked stop
              · exact rax stop
            refine ih (kept ++ [.assign v]) (some c) vars marks met.tail ?_
            intro c' same
            obtain rfl := Option.some.inj same
            exact ⟨mid ++ [.assign v],⟨before,target,args,out,by rw [keptIs]; simp,length⟩,follows.pass plain⟩

theorem lastMarked_some {stmts before after : List Stmt} {v : VarId}
    (found : lastMarked vars stmts = some (before,v,after)) :
    stmts = before ++ .assign v :: after ∧ (varAt vars v).callReturn = true ∧
      ∀ u, .assign u ∈ after → (varAt vars u).callReturn = false := by
  have none_ {stmts : List Stmt} (none_ : lastMarked vars stmts = none) :
      ∀ u, .assign u ∈ stmts → (varAt vars u).callReturn = false := by
    induction stmts with
    | nil => exact fun u member => by cases member
    | cons stmt rest ih =>
      unfold lastMarked at none_
      cases last : lastMarked vars rest with
      | some split => simp [last] at none_
      | none =>
        intro u member
        rcases List.mem_cons.mp member with rfl | inside
        · simpa [last] using none_
        · exact ih last u inside
  induction stmts generalizing before with
  | nil => cases found
  | cons stmt rest ih =>
    unfold lastMarked at found
    cases last : lastMarked vars rest with
    | some split =>
      obtain ⟨before',v',after'⟩ := split
      simp only [last,Option.some.injEq,Prod.mk.injEq] at found
      obtain ⟨rfl,rfl,rfl⟩ := found
      obtain ⟨split,marked,later⟩ := ih last
      exact ⟨by rw [split]; rfl,marked,later⟩
    | none =>
      simp only [last] at found
      cases stmt with
      | assign u =>
        dsimp only at found
        split at found
        · rename_i marked
          simp only [Option.some.injEq,Prod.mk.injEq] at found
          obtain ⟨rfl,rfl,rfl⟩ := found
          exact ⟨rfl,marked,none_ last⟩
        · cases found
      | store addr val => cases found
      | call target args out => cases found

theorem firstUnknown_some {stmts : List Stmt} {v : VarId} (found : firstUnknown vars stmts = some v) :
    ∃ before after, stmts = before ++ .assign v :: after ∧
      (∀ u, .assign u ∈ before → (varAt vars u).callReturn = false ∧
        ¬ (isRax vars u = true ∧ (varAt vars u).expr = .unknown)) ∧
      (varAt vars v).callReturn = false ∧ isRax vars v = true ∧ (varAt vars v).expr = .unknown := by
  induction stmts with
  | nil => cases found
  | cons stmt rest ih =>
    have later (found : firstUnknown vars rest = some v) (plain : ∀ u, stmt = .assign u →
        (varAt vars u).callReturn = false ∧ ¬ (isRax vars u = true ∧ (varAt vars u).expr = .unknown)) :
        ∃ before after, stmt :: rest = before ++ .assign v :: after ∧
          (∀ u, .assign u ∈ before → (varAt vars u).callReturn = false ∧
            ¬ (isRax vars u = true ∧ (varAt vars u).expr = .unknown)) ∧
          (varAt vars v).callReturn = false ∧ isRax vars v = true ∧ (varAt vars v).expr = .unknown := by
      obtain ⟨before,after,split,row,facts⟩ := ih found
      refine ⟨stmt :: before,after,by rw [split]; rfl,fun u member => ?_,facts⟩
      rcases List.mem_cons.mp member with same | inside
      · exact plain u same.symm
      · exact row u inside
    cases stmt with
    | assign u =>
      unfold firstUnknown at found
      split at found
      · cases found
      · rename_i unmarked
        rw [Bool.not_eq_true] at unmarked
        split at found
        · rename_i unknown
          obtain rfl := Option.some.inj found
          rw [Bool.and_eq_true,beq_iff_eq] at unknown
          exact ⟨[],rest,rfl,fun u member => (by cases member),unmarked,unknown⟩
        · rename_i known
          refine later found fun w same => ?_
          obtain rfl := Stmt.assign.inj same
          exact ⟨unmarked,fun unknown => known (by rw [Bool.and_eq_true,beq_iff_eq]; exact unknown)⟩
    | store addr val => exact later found fun u same => by cases same
    | call target args out => exact later found fun u same => by cases same

theorem wireOut_binds (marks : MarksHold ret ssa.vars)
    (met : ∀ block, ssa.blocks[bi]? = some block → TerminatorMet useCount ssa.vars block) :
    Relation.ReflTransGen (Binds ret) ssa (wireOut useCount bi ssa) ∧ (wireOut useCount bi ssa).vars = ssa.vars := by
  unfold wireOut
  cases found : ssa.blocks[bi]? with
  | none => exact ⟨.refl,rfl⟩
  | some block =>
    dsimp only
    cases ends : block.terminator with
    | call target args out next =>
      dsimp only
      cases last : lastMarked ssa.vars block.stmts with
      | none => exact ⟨.refl,rfl⟩
      | some split =>
        obtain ⟨before,v,after⟩ := split
        dsimp only
        by_cases used : useCount v > 0
        · rw [if_pos used]
          obtain ⟨split,marked,later⟩ := lastMarked_some last
          obtain ⟨alone,own⟩ := met block found (by rw [ends]; rfl) before v after split marked later used
          exact ⟨.single (.terminator found ends split (marks v marked) alone own),rfl⟩
        · rw [if_neg used]
          exact ⟨.refl,rfl⟩
    | _ => exact ⟨.refl,rfl⟩

theorem markFallthrough_binds (marks : MarksHold ret ssa.vars)
    (met : ∀ block, ssa.blocks[bi]? = some block → FallthroughMet ret ssa block) :
    Relation.ReflTransGen (Binds ret) ssa (markFallthrough bi ssa) ∧ MarksHold ret (markFallthrough bi ssa).vars := by
  unfold markFallthrough
  cases found : ssa.blocks[bi]? with
  | none => exact ⟨.refl,marks⟩
  | some block =>
    dsimp only
    cases ends : block.terminator with
    | call target args out next =>
      dsimp only
      cases returns : ssa.blocks[next]? with
      | none => exact ⟨.refl,marks⟩
      | some block' =>
        dsimp only
        cases first : firstUnknown ssa.vars block'.stmts with
        | none => exact ⟨.refl,marks⟩
        | some v =>
          obtain ⟨before,after,split,row,unmarked,rax,unknown⟩ := firstUnknown_some first
          obtain ⟨same,alone⟩ := met block found target args out next block' ends returns before v after split row
            unmarked rax unknown
          have holder : Placeholder ret ssa.vars v := by
            rw [isRax,Bool.and_eq_true,beq_iff_eq] at rax
            exact ⟨unknown,rax.1,by rw [same]; exact rax.2⟩
          exact ⟨.single (.fallthrough found ends returns split holder alone),marks_markReturn marks holder⟩
    | _ => exact ⟨.refl,marks⟩

theorem bindStatements_binds (marks : MarksHold ret ssa.vars)
    (met : ∀ block, ssa.blocks[bi]? = some block → StatementsMet ret useCount ssa.vars block.stmts) :
    Relation.ReflTransGen (Binds ret) ssa (bindStatements useCount bi ssa) ∧
      MarksHold ret (bindStatements useCount bi ssa).vars := by
  unfold bindStatements
  cases found : ssa.blocks[bi]? with
  | none => exact ⟨.refl,marks⟩
  | some block =>
    have bound := bindReturns_binds found block.stmts [] none ssa.vars marks (met block found)
      (fun c here => by cases here)
    have start : scanned ssa bi block ([] ++ block.stmts) ssa.vars = ssa := by
      have same : ssa.blocks.modify bi (fun old => { old with stmts := [] ++ block.stmts, terminator := block.terminator }) =
          ssa.blocks := by
        apply List.ext_getElem?
        intro index
        rw [List.getElem?_modify]
        by_cases here : bi = index
        · subst here
          simp [found]
        · simp [here]
      simp only [scanned,setBlock,same]
    rw [start] at bound
    exact bound

end Scan

section Runs

variable {ret : UInt64} {useCount : VarId → Nat}

theorem propagateBlock_binds {ssa : SsaCfg} (marks : MarksHold ret ssa.vars) {bi : BlockId}
    (met : BlockMet ret useCount ssa bi) :
    Relation.ReflTransGen (Binds ret) ssa (propagateBlock useCount ssa bi) ∧
      MarksHold ret (propagateBlock useCount ssa bi).vars := by
  obtain ⟨wired,same⟩ := wireOut_binds marks met.terminator
  rw [← same] at marks
  obtain ⟨marked,marks'⟩ := markFallthrough_binds marks met.fallthrough
  obtain ⟨bound,marks''⟩ := bindStatements_binds marks' met.statements
  exact ⟨wired.trans (marked.trans bound),marks''⟩

theorem propagate_binds {ssa : SsaCfg} (marks : MarksHold ret ssa.vars) (count : Nat)
    (met : ∀ bi < count, BlockMet ret useCount ((List.range bi).foldl (propagateBlock useCount) ssa) bi) :
    Relation.ReflTransGen (Binds ret) ssa ((List.range count).foldl (propagateBlock useCount) ssa) ∧
      MarksHold ret ((List.range count).foldl (propagateBlock useCount) ssa).vars := by
  induction count with
  | zero => exact ⟨.refl,marks⟩
  | succ count ih =>
    obtain ⟨before,marks'⟩ := ih fun bi earlier => met bi (Nat.lt_succ_of_lt earlier)
    rw [List.range_succ,List.foldl_append]
    obtain ⟨step,marks''⟩ := propagateBlock_binds marks' (met count (Nat.lt_succ_self count))
    exact ⟨before.trans step,marks''⟩

theorem apply_marks {state : FoldState} (marks : MarksHold ret state.ssa.vars) (pass : FoldPass)
    (met : Met ret state pass) : MarksHold ret (state.apply pass).ssa.vars := by
  cases pass with
  | propagateCallReturns => exact (propagate_binds marks _ met).2
  | recountUses => exact marks
  | eliminateDead argRegs => exact marks

theorem run_marks {start : FoldState} (marks : MarksHold ret start.ssa.vars) (passes : List FoldPass)
    (met : ∀ before pass after, passes = before ++ pass :: after → Met ret (start.run before) pass) :
    MarksHold ret (start.run passes).ssa.vars := by
  induction passes using List.reverseRecOn with
  | nil => exact marks
  | append_singleton passes pass ih =>
    rw [FoldState.run,List.foldl_append]
    refine apply_marks (ih fun before earlier after split => ?_) pass (met passes pass [] rfl)
    exact met before earlier (after ++ [pass]) (by rw [split]; simp)

end Runs

section Computed

variable {ret : UInt64}

def stmtsAt (ssa : SsaCfg) (bi : BlockId) : List Stmt := (ssa.blocks[bi]?).elim [] SsaBlock.stmts

-- What is assigned a computed value stays.
structure KeepsComputed (ssa ssa' : SsaCfg) : Prop where
  expr : ∀ v, (varAt ssa'.vars v).expr = (varAt ssa.vars v).expr
  stays : ∀ bi v, (varAt ssa.vars v).expr ≠ .unknown →
    (stmtsAt ssa' bi).count (.assign v) = (stmtsAt ssa bi).count (.assign v)

theorem stmtsAt_setBlock {ssa : SsaCfg} {bi : BlockId} {block : SsaBlock} (found : ssa.blocks[bi]? = some block)
    (stmts : List Stmt) (terminator : SsaTerminator) (index : BlockId) :
    stmtsAt (setBlock ssa bi stmts terminator) index = if index = bi then stmts else stmtsAt ssa index := by
  unfold stmtsAt setBlock
  rw [List.getElem?_modify]
  by_cases here : bi = index
  · subst here
    simp [found]
  · simp [here,Ne.symm here]

theorem Binds.keepsComputed {ssa ssa' : SsaCfg} (binds : Binds ret ssa ssa') : KeepsComputed ssa ssa' := by
  have removed {v u : VarId} (unknown : (varAt ssa.vars v).expr = .unknown) (computed : (varAt ssa.vars u).expr ≠ .unknown) :
      Stmt.assign v ≠ .assign u := by
    intro same
    rw [Stmt.assign.inj same] at unknown
    exact computed unknown
  cases binds with
  | @statement before mid after v target args out _ bi block found split holder alone =>
    refine ⟨expr_markReturn ssa.vars v,fun index u computed => ?_⟩
    change (stmtsAt (setBlock ssa bi _ _) index).count _ = _
    rw [stmtsAt_setBlock found]
    by_cases here : index = bi
    · subst here
      have stmts : stmtsAt ssa index = block.stmts := by simp [stmtsAt,found]
      rw [if_pos rfl,stmts,split]
      simp [List.count_append,removed holder.1 computed]
    · rw [if_neg here]
  | marked _ _ _ _ => exact ⟨expr_markReturn ssa.vars _,fun _ _ _ => rfl⟩
  | @terminator target args out next before after v _ bi block found ends split holder alone own =>
    refine ⟨fun _ => rfl,fun index u computed => ?_⟩
    rw [stmtsAt_setBlock found]
    by_cases here : index = bi
    · subst here
      have stmts : stmtsAt ssa index = block.stmts := by simp [stmtsAt,found]
      rw [if_pos rfl,stmts,split]
      simp [List.count_append,removed holder.1 computed]
    · rw [if_neg here]
  | fallthrough _ _ _ _ _ _ => exact ⟨expr_markReturn ssa.vars _,fun _ _ _ => rfl⟩

theorem binds_keepsComputed {ssa ssa' : SsaCfg} (binds : Relation.ReflTransGen (Binds ret) ssa ssa') :
    KeepsComputed ssa ssa' := by
  induction binds with
  | refl => exact ⟨fun _ => rfl,fun _ _ _ => rfl⟩
  | tail _ step ih =>
    have kept := step.keepsComputed
    refine ⟨fun v => (kept.expr v).trans (ih.expr v),fun bi v computed => ?_⟩
    rw [kept.stays bi v (by rwa [ih.expr]),ih.stays bi v computed]

end Computed

-- In every run of the passes whose steps find the placeholders in place, what is marked is always a placeholder, each
-- propagation does nothing but bind placeholders to their calls, and it removes no computed assignment.
theorem callReturns_bound (ret : UInt64) (start : FoldState) (marks : MarksHold ret start.ssa.vars)
    (passes : List FoldPass)
    (met : ∀ before pass after, passes = before ++ pass :: after → Met ret (start.run before) pass) :
    ∀ before after, passes = before ++ after → MarksHold ret (start.run before).ssa.vars ∧
      ∀ later, after = .propagateCallReturns :: later →
        Relation.ReflTransGen (Binds ret) (start.run before).ssa ((start.run before).apply .propagateCallReturns).ssa ∧
          KeepsComputed (start.run before).ssa ((start.run before).apply .propagateCallReturns).ssa := by
  intro before after split
  have marks' : MarksHold ret (start.run before).ssa.vars :=
    run_marks marks before fun first pass rest inside => met first pass (rest ++ after) (by rw [split,inside]; simp)
  refine ⟨marks',fun later same => ?_⟩
  have binds := (propagate_binds marks' _ (met before .propagateCallReturns later (by rw [split,same]))).1
  exact ⟨binds,binds_keepsComputed binds⟩

-- A call, its placeholder, and EAX = EDI + 1, where these are assigned.
def calling (assigned : List VarId) (result : VarId) : SsaCfg where
  blocks := [⟨0x401000,.call (.direct 0x402000) [] none :: assigned.map .assign,.ret (some result)⟩]
  vars := [⟨⟨.register,0,8⟩,.unknown,none,8,true⟩,⟨⟨.register,56,4⟩,.unknown,none,4,false⟩,plainVar (.const 1 4) 4,
    ⟨⟨.register,0,4⟩,.binOp .add 1 2,none,4,false⟩]
  entry := 0
  diagnostics := []

def callingState (assigned : List VarId) (result : VarId) : FoldState :=
  ⟨calling assigned result,recountUses (calling assigned result)⟩

theorem calling_marks (assigned : List VarId) (result : VarId) : MarksHold 0 (calling assigned result).vars := by
  intro v marked
  have listed (n : Nat) : n = 0 ∨ n = 1 ∨ n = 2 ∨ n = 3 ∨ 4 ≤ n := by omega
  rcases listed v with rfl | rfl | rfl | rfl | outside
  · exact ⟨rfl,rfl,rfl⟩
  · cases marked
  · cases marked
  · cases marked
  · rw [varAt,List.getElem?_eq_none outside] at marked
    cases marked

theorem calling_met : Met 0 (callingState [0] 0) .propagateCallReturns := by
  intro bi inRange
  obtain rfl : bi = 0 := Nat.lt_one_iff.mp inRange
  constructor
  · intro block found isCall
    obtain rfl := Option.some.inj found
    cases isCall
  · intro block found target args out next block' ends
    obtain rfl := Option.some.inj found
    cases ends
  · intro block found before target args out rest split mid' v after row plain stops needed
    obtain rfl := Option.some.inj found
    obtain rfl : before = [] := by
      cases before with
      | nil => rfl
      | cons first before =>
        obtain ⟨_,later⟩ := List.cons.inj split
        have member : Stmt.call target args out ∈ [Stmt.assign 0] := by
          rw [show [Stmt.assign 0] = before ++ .call target args out :: rest from later]
          simp
        simp at member
    obtain ⟨_,isRest⟩ := List.cons.inj split
    rw [row] at isRest
    cases mid' with
    | nil =>
      obtain ⟨same,_⟩ := List.cons.inj isRest
      obtain rfl := Stmt.assign.inj same
      exact ⟨fun _ => ⟨rfl,rfl,rfl⟩,fun stmt member => by cases member⟩
    | cons first mid' =>
      have lengths := congrArg List.length isRest
      simp at lengths

theorem callReturns_bound_calling : MarksHold 0 (calling [0] 0).vars ∧
    Relation.ReflTransGen (Binds 0) (calling [0] 0) ((callingState [0] 0).apply .propagateCallReturns).ssa := by
  refine ⟨calling_marks [0] 0,?_⟩
  have bound := callReturns_bound 0 (callingState [0] 0) (calling_marks [0] 0) [.propagateCallReturns]
    (fun before pass after split => ?_) [] [.propagateCallReturns] rfl
  · exact (bound.2 [] rfl).1
  · obtain ⟨rfl,rfl,rfl⟩ : before = [] ∧ pass = .propagateCallReturns ∧ after = [] := by
      cases before with
      | nil => simpa [eq_comm] using split
      | cons first before =>
        have lengths := congrArg List.length split
        simp at lengths
    exact calling_met

-- The placeholder is gone when the result of the sum is taken for that of the call.
theorem calling_captures :
    let final := (callingState [0,3] 3).run [.propagateCallReturns,.recountUses,.eliminateDead [],.recountUses,
      .propagateCallReturns]
    stmtsAt final.ssa 0 = [.call (.direct 0x402000) [] (some 3)] ∧ (varAt final.ssa.vars 3).expr = .binOp .add 1 2 := by
  decide

end Rsleigh.Decompile.CallReturns
