import Rsleigh.Decompile.Memory

namespace Rsleigh.Decompile

open Pcode

-- What the forwarding does to a program: some loads become copies, and new variables join some values.
structure Extends (ssa ssa' : SsaCfg) : Prop where
  length : ssa.vars.length ≤ ssa'.vars.length
  size : ∀ id < ssa.vars.length, (ssa'.var id).size = (ssa.var id).size
  varnode : ∀ id < ssa.vars.length, (ssa'.var id).varnode = (ssa.var id).varnode
  callReturn : ∀ id < ssa.vars.length, (ssa'.var id).callReturn = (ssa.var id).callReturn
  expr : ∀ id < ssa.vars.length, (∀ ptr, (ssa.var id).expr ≠ .load ptr) → (ssa'.var id).expr = (ssa.var id).expr
  memory : ∀ id < ssa.vars.length, (∀ ptr, (ssa.var id).expr ≠ .load ptr) → (ssa'.var id).memory = (ssa.var id).memory
  accesses : ∀ id < ssa.vars.length, (ssa'.var id).memory = (ssa.var id).memory ∨
    ∃ space stores boundary, (ssa'.var id).memory = some (.load space stores boundary)
  loads : ∀ id < ssa.vars.length, ∀ ptr, (ssa.var id).expr = .load ptr →
    (ssa'.var id).expr = .load ptr ∨ ∃ value, (ssa'.var id).expr = .var value
  joins : ∀ id, ssa.vars.length ≤ id → id < ssa'.vars.length →
    (∃ inputs, (ssa'.var id).expr = .phi inputs) ∧ (ssa'.var id).memory = none

theorem extends_refl (ssa : SsaCfg) : Extends ssa ssa where
  length := Nat.le_refl _
  size _ _ := rfl
  varnode _ _ := rfl
  callReturn _ _ := rfl
  expr _ _ _ := rfl
  memory _ _ _ := rfl
  accesses _ _ := Or.inl rfl
  loads _ _ _ isLoad := Or.inl isLoad
  joins _ outside inside := absurd inside (Nat.not_lt.mpr outside)

theorem extends_trans {first second third : SsaCfg} (one : Extends first second) (two : Extends second third) :
    Extends first third where
  length := Nat.le_trans one.length two.length
  size id inRange := (two.size id (Nat.lt_of_lt_of_le inRange one.length)).trans (one.size id inRange)
  varnode id inRange := (two.varnode id (Nat.lt_of_lt_of_le inRange one.length)).trans (one.varnode id inRange)
  callReturn id inRange := (two.callReturn id (Nat.lt_of_lt_of_le inRange one.length)).trans (one.callReturn id inRange)
  expr id inRange noLoad := by
    have same := one.expr id inRange noLoad
    have noLoad' : ∀ ptr, (second.var id).expr ≠ .load ptr := by
      rw [same]
      exact noLoad
    exact (two.expr id (Nat.lt_of_lt_of_le inRange one.length) noLoad').trans same
  memory id inRange noLoad := by
    have same := one.expr id inRange noLoad
    have noLoad' : ∀ ptr, (second.var id).expr ≠ .load ptr := by
      rw [same]
      exact noLoad
    exact (two.memory id (Nat.lt_of_lt_of_le inRange one.length) noLoad').trans (one.memory id inRange noLoad)
  accesses id inRange := by
    rcases two.accesses id (Nat.lt_of_lt_of_le inRange one.length) with same | isLoad
    · rw [same]
      exact one.accesses id inRange
    · exact Or.inr isLoad
  loads id inRange ptr isLoad := by
    have inSecond := Nat.lt_of_lt_of_le inRange one.length
    rcases one.loads id inRange ptr isLoad with stillLoad | ⟨value,isCopy⟩
    · exact two.loads id inSecond ptr stillLoad
    · have noLoad : ∀ ptr, (second.var id).expr ≠ .load ptr := by
        rw [isCopy]
        exact nofun
      exact Or.inr ⟨value,(two.expr id inSecond noLoad).trans isCopy⟩
  joins id outside inside := by
    by_cases inSecond : id < second.vars.length
    · obtain ⟨⟨inputs,isPhi⟩,isNone⟩ := one.joins id outside inSecond
      have noLoad : ∀ ptr, (second.var id).expr ≠ .load ptr := by
        rw [isPhi]
        exact nofun
      exact ⟨⟨inputs,(two.expr id inSecond noLoad).trans isPhi⟩,(two.memory id inSecond noLoad).trans isNone⟩
    · exact two.joins id (Nat.le_of_not_lt inSecond) inside

-- The expressions that an address is resolved through: no load is one of them.
inductive LoadFree (ssa : SsaCfg) : VarId → Prop where
  | const {id : VarId} {value : UInt64} {size : UInt32} : id < ssa.vars.length → (ssa.var id).expr = .const value size →
      LoadFree ssa id
  | unknown {id : VarId} : id < ssa.vars.length → (ssa.var id).expr = .unknown → LoadFree ssa id
  | var {id inner : VarId} : id < ssa.vars.length → (ssa.var id).expr = .var inner → LoadFree ssa inner → LoadFree ssa id
  | unaryOp {id inner : VarId} {op : UnaryOpKind} : id < ssa.vars.length → (ssa.var id).expr = .unaryOp op inner →
      LoadFree ssa inner → LoadFree ssa id
  | binOp {id left right : VarId} {op : BinOpKind} : id < ssa.vars.length →
      (ssa.var id).expr = .binOp op left right → LoadFree ssa left → LoadFree ssa right → LoadFree ssa id

theorem getElem_var {ssa : SsaCfg} {id : VarId} {var : VarDef} (found : ssa.vars[id]? = some var) :
    id < ssa.vars.length ∧ ssa.var id = var := by
  obtain ⟨inRange,_⟩ := List.getElem?_eq_some_iff.mp found
  refine ⟨inRange,?_⟩
  unfold SsaCfg.var
  rw [found]
  rfl

theorem var_getElem {ssa : SsaCfg} {id : VarId} (inRange : id < ssa.vars.length) : ssa.vars[id]? = some (ssa.var id) := by
  unfold SsaCfg.var
  rw [List.getElem?_eq_getElem inRange]
  rfl

section Resolved

variable {ssa ssa' : SsaCfg}

theorem loadFree_range {id : VarId} (free : LoadFree ssa id) : id < ssa.vars.length := by
  cases free <;> assumption

theorem loadFree_var {id : VarId} (extended : Extends ssa ssa') (free : LoadFree ssa id) :
    id < ssa'.vars.length ∧ (ssa'.var id).expr = (ssa.var id).expr ∧ (ssa'.var id).size = (ssa.var id).size ∧
      (ssa'.var id).varnode = (ssa.var id).varnode ∧ (ssa'.var id).callReturn = (ssa.var id).callReturn := by
  have inRange := loadFree_range free
  have noLoad : ∀ ptr, (ssa.var id).expr ≠ .load ptr := by
    intro ptr isLoad
    cases free <;> simp_all
  exact ⟨Nat.lt_of_lt_of_le inRange extended.length,extended.expr id inRange noLoad,extended.size id inRange,
    extended.varnode id inRange,extended.callReturn id inRange⟩

theorem constantBits_free : ∀ {left : Nat} {id : VarId} {fuel : Nat} {result : UInt64 × Nat},
    constantBits ssa left id fuel = some result → LoadFree ssa id := by
  intro left
  induction left with
  | zero =>
    intro id fuel result found
    cases found
  | succ left ih =>
    intro id fuel result found
    cases fuel with
    | zero => cases found
    | succ fuel =>
      unfold constantBits at found
      obtain ⟨var,isVar,found⟩ := Option.bind_eq_some_iff.mp found
      obtain ⟨inRange,rfl⟩ := getElem_var isVar
      dsimp only at found
      split at found
      · obtain ⟨value,isValue,_⟩ := Option.map_eq_some_iff.mp found
        split at isValue
        · rename_i isConst
          exact .const inRange isConst
        · rename_i isCopy
          exact .var inRange isCopy (ih isValue)
        · rename_i isZext
          exact .unaryOp inRange isZext (ih isValue)
        · rename_i isSext
          obtain ⟨inner,isInner,_⟩ := Option.bind_eq_some_iff.mp isValue
          exact .unaryOp inRange isSext (ih isInner)
        · rename_i isAdd
          obtain ⟨first,isFirst,isValue⟩ := Option.bind_eq_some_iff.mp isValue
          obtain ⟨second,isSecond,_⟩ := Option.bind_eq_some_iff.mp isValue
          exact .binOp inRange isAdd (ih isFirst) (ih isSecond)
        · rename_i isSub
          obtain ⟨first,isFirst,isValue⟩ := Option.bind_eq_some_iff.mp isValue
          obtain ⟨second,isSecond,_⟩ := Option.bind_eq_some_iff.mp isValue
          exact .binOp inRange isSub (ih isFirst) (ih isSecond)
        · cases isValue
      · cases found

theorem constantBits_extends (extended : Extends ssa ssa') {id : VarId} (free : LoadFree ssa id) :
    ∀ left fuel, constantBits ssa' left id fuel = constantBits ssa left id fuel := by
  induction free with
  | @const id value size inRange isConst =>
    obtain ⟨inRange',sameExpr,sameSize,_⟩ := loadFree_var extended (.const inRange isConst)
    intro left fuel
    cases left with
    | zero => rfl
    | succ left =>
      cases fuel with
      | zero => rfl
      | succ fuel =>
        unfold constantBits
        rw [var_getElem inRange,var_getElem inRange']
        simp only [Option.bind_eq_bind,Option.bind_some,sameExpr,sameSize,isConst]
  | @unknown id inRange isUnknown =>
    obtain ⟨inRange',sameExpr,sameSize,_⟩ := loadFree_var extended (.unknown inRange isUnknown)
    intro left fuel
    cases left with
    | zero => rfl
    | succ left =>
      cases fuel with
      | zero => rfl
      | succ fuel =>
        unfold constantBits
        rw [var_getElem inRange,var_getElem inRange']
        simp only [Option.bind_eq_bind,Option.bind_some,sameExpr,sameSize,isUnknown]
  | @var id inner inRange isCopy free ih =>
    obtain ⟨inRange',sameExpr,sameSize,_⟩ := loadFree_var extended (.var inRange isCopy free)
    intro left fuel
    cases left with
    | zero => rfl
    | succ left =>
      cases fuel with
      | zero => rfl
      | succ fuel =>
        unfold constantBits
        rw [var_getElem inRange,var_getElem inRange']
        simp only [Option.bind_eq_bind,Option.bind_some,sameExpr,sameSize,isCopy,ih]
  | @unaryOp id inner op inRange isUnary free ih =>
    obtain ⟨inRange',sameExpr,sameSize,_⟩ := loadFree_var extended (.unaryOp inRange isUnary free)
    obtain ⟨inner',_,innerSize,_⟩ := loadFree_var extended free
    intro left fuel
    cases left with
    | zero => rfl
    | succ left =>
      cases fuel with
      | zero => rfl
      | succ fuel =>
        unfold constantBits
        rw [var_getElem inRange,var_getElem inRange']
        simp only [Option.bind_eq_bind,Option.bind_some,sameExpr,sameSize,isUnary]
        cases op
        case sext =>
          simp only [ih,var_getElem inner',var_getElem (loadFree_range free),Option.map_some,innerSize]
        case zext => simp only [ih]
        all_goals rfl
  | @binOp id first second op inRange isBinary free free' ofFirst ofSecond =>
    obtain ⟨inRange',sameExpr,sameSize,_⟩ := loadFree_var extended (.binOp inRange isBinary free free')
    intro left fuel
    cases left with
    | zero => rfl
    | succ left =>
      cases fuel with
      | zero => rfl
      | succ fuel =>
        unfold constantBits
        rw [var_getElem inRange,var_getElem inRange']
        simp only [Option.bind_eq_bind,Option.bind_some,sameExpr,sameSize,isBinary]
        cases op
        case add => simp only [ofFirst,ofSecond]
        case sub => simp only [ofFirst,ofSecond]
        all_goals rfl

theorem constant_free {id : VarId} {value : Int} (found : constant ssa id = some value) : LoadFree ssa id := by
  obtain ⟨bits,isBits,_⟩ := Option.bind_eq_some_iff.mp found
  exact constantBits_free isBits

theorem constant_extends (extended : Extends ssa ssa') {id : VarId} (free : LoadFree ssa id) :
    constant ssa' id = constant ssa id := by
  obtain ⟨inRange',_,sameSize,_⟩ := loadFree_var extended free
  unfold constant
  rw [constantBits_extends extended free,var_getElem inRange',var_getElem (loadFree_range free)]
  simp only [Option.bind_eq_bind,Option.bind_some,sameSize]

theorem resolve_free {size : UInt32} {frames : List UInt64} : ∀ {left : Nat} {ptr : VarId} {location : ExactLocation},
    resolve ssa size frames left ptr = some location → LoadFree ssa ptr := by
  intro left
  induction left with
  | zero =>
    intro ptr location found
    cases found
  | succ left ih =>
    intro ptr location found
    unfold resolve at found
    split at found
    · cases found
    · obtain ⟨var,isVar,found⟩ := Option.bind_eq_some_iff.mp found
      obtain ⟨inRange,rfl⟩ := getElem_var isVar
      split at found
      · rename_i isConst
        exact .const inRange isConst
      · rename_i isUnknown
        exact .unknown inRange isUnknown
      · rename_i isCopy
        exact .var inRange isCopy (ih found)
      · rename_i isAdd
        split at found
        · rename_i isConstant
          obtain ⟨inner,isInner,_⟩ := Option.bind_eq_some_iff.mp found
          exact .binOp inRange isAdd (ih isInner) (constant_free isConstant)
        · obtain ⟨inner,isInner,found⟩ := Option.bind_eq_some_iff.mp found
          obtain ⟨displacement,isConstant,_⟩ := Option.bind_eq_some_iff.mp found
          exact .binOp inRange isAdd (constant_free isConstant) (ih isInner)
      · rename_i isSub
        obtain ⟨inner,isInner,found⟩ := Option.bind_eq_some_iff.mp found
        obtain ⟨displacement,isConstant,_⟩ := Option.bind_eq_some_iff.mp found
        exact .binOp inRange isSub (ih isInner) (constant_free isConstant)
      all_goals cases found

theorem resolve_extends (extended : Extends ssa ssa') {size : UInt32} {frames : List UInt64} {ptr : VarId}
    (free : LoadFree ssa ptr) : ∀ left, resolve ssa' size frames left ptr = resolve ssa size frames left ptr := by
  induction free with
  | @const id value _ inRange isConst =>
    obtain ⟨inRange',sameExpr,_⟩ := loadFree_var extended (.const inRange isConst)
    intro left
    cases left with
    | zero => rfl
    | succ left =>
      unfold resolve
      rw [var_getElem inRange,var_getElem inRange']
      simp only [Option.bind_eq_bind,Option.bind_some,sameExpr,isConst]
  | @unknown id inRange isUnknown =>
    obtain ⟨inRange',sameExpr,_,sameVarnode,sameReturn⟩ := loadFree_var extended (.unknown inRange isUnknown)
    intro left
    cases left with
    | zero => rfl
    | succ left =>
      unfold resolve
      rw [var_getElem inRange,var_getElem inRange']
      simp only [Option.bind_eq_bind,Option.bind_some,sameExpr,isUnknown,sameVarnode,sameReturn]
  | @var id inner inRange isCopy free ih =>
    obtain ⟨inRange',sameExpr,_⟩ := loadFree_var extended (.var inRange isCopy free)
    intro left
    cases left with
    | zero => rfl
    | succ left =>
      unfold resolve
      rw [var_getElem inRange,var_getElem inRange']
      simp only [Option.bind_eq_bind,Option.bind_some,sameExpr,isCopy,ih]
  | @unaryOp id inner op inRange isUnary free ih =>
    obtain ⟨inRange',sameExpr,_⟩ := loadFree_var extended (.unaryOp inRange isUnary free)
    intro left
    cases left with
    | zero => rfl
    | succ left =>
      unfold resolve
      rw [var_getElem inRange,var_getElem inRange']
      simp only [Option.bind_eq_bind,Option.bind_some,sameExpr,isUnary]
  | @binOp id first second op inRange isBinary free free' ofFirst ofSecond =>
    obtain ⟨inRange',sameExpr,sameSize,_⟩ := loadFree_var extended (.binOp inRange isBinary free free')
    intro left
    cases left with
    | zero => rfl
    | succ left =>
      unfold resolve
      rw [var_getElem inRange,var_getElem inRange']
      simp only [Option.bind_eq_bind,Option.bind_some,sameExpr,sameSize,isBinary]
      cases op
      case add => simp only [ofFirst,ofSecond,constant_extends extended free,constant_extends extended free']
      case sub => simp only [ofFirst,constant_extends extended free']
      all_goals rfl

theorem exactLocation_extends (extended : Extends ssa ssa') {cc : CallingConv} {ptr : VarId} {size : UInt32}
    {location : ExactLocation} (found : exactLocation ssa cc ptr size = some location) :
    exactLocation ssa' cc ptr size = some location :=
  (resolve_extends extended (resolve_free found) 64).trans found

end Resolved

theorem load_range {ssa : SsaCfg} {id ptr : VarId} (isLoad : (ssa.var id).expr = .load ptr) : id < ssa.vars.length := by
  by_contra outside
  unfold SsaCfg.var at isLoad
  rw [List.getElem?_eq_none (Nat.le_of_not_lt outside)] at isLoad
  cases isLoad

-- Only what is said of a load changes.
theorem extends_modify {ssa : SsaCfg} {id ptr : VarId} (isLoad : (ssa.var id).expr = .load ptr) {f : VarDef → VarDef}
    (keeps : ∀ var, (f var).size = var.size ∧ (f var).varnode = var.varnode ∧ (f var).callReturn = var.callReturn)
    (accesses : ∀ var, (f var).memory = var.memory ∨
      ∃ space stores boundary, (f var).memory = some (.load space stores boundary))
    (exprs : ∀ var, (f var).expr = var.expr ∨ ∃ value, (f var).expr = .var value) :
    Extends ssa (ssa.modifyVar id f) := by
  have inRange := load_range isLoad
  have sameLength : (ssa.modifyVar id f).vars.length = ssa.vars.length := List.length_modify ..
  have vars := fun other => ssa.var_modify id other f inRange
  refine ⟨Nat.le_of_eq sameLength.symm,?_,?_,?_,?_,?_,?_,?_,?_⟩
  · intro other _
    rw [vars]
    split
    · exact (keeps _).1
    · rfl
  · intro other _
    rw [vars]
    split
    · exact (keeps _).2.1
    · rfl
  · intro other _
    rw [vars]
    split
    · exact (keeps _).2.2
    · rfl
  · intro other _ noLoad
    rw [vars,if_neg]
    intro same
    subst same
    exact noLoad ptr isLoad
  · intro other _ noLoad
    rw [vars,if_neg]
    intro same
    subst same
    exact noLoad ptr isLoad
  · intro other _
    rw [vars]
    split
    · exact accesses _
    · exact Or.inl rfl
  · intro other _ ptr' isLoad'
    rw [vars]
    split
    · rcases exprs (ssa.var other) with same | copied
      · rw [same]
        exact Or.inl isLoad'
      · exact Or.inr copied
    · exact Or.inl isLoad'
  · intro other outside inside
    rw [sameLength] at inside
    exact absurd inside (Nat.not_lt.mpr outside)

theorem extends_newVar (ssa : SsaCfg) (varnode : Varnode) (inputs : List VarId) (size : UInt32) :
    Extends ssa (ssa.newVar varnode (.phi inputs) size).2 := by
  have vars := fun {id} inRange => @SsaCfg.var_newVar ssa varnode (.phi inputs) size id inRange
  have sameLength : (ssa.newVar varnode (.phi inputs) size).2.vars.length = ssa.vars.length + 1 := List.length_append ..
  refine ⟨?_,?_,?_,?_,?_,?_,?_,?_,?_⟩
  · rw [sameLength]
    exact Nat.le_succ _
  · exact fun id inRange => congrArg VarDef.size (vars inRange)
  · exact fun id inRange => congrArg VarDef.varnode (vars inRange)
  · exact fun id inRange => congrArg VarDef.callReturn (vars inRange)
  · exact fun id inRange _ => congrArg VarDef.expr (vars inRange)
  · exact fun id inRange _ => congrArg VarDef.memory (vars inRange)
  · exact fun id inRange => Or.inl (congrArg VarDef.memory (vars inRange))
  · exact fun id inRange ptr isLoad => Or.inl ((congrArg VarDef.expr (vars inRange)).trans isLoad)
  · intro id outside inside
    rw [sameLength] at inside
    have isLast : id = ssa.vars.length := by omega
    subst isLast
    have isNew : (ssa.newVar varnode (.phi inputs) size).2.var ssa.vars.length = ⟨varnode,.phi inputs,none,size,false⟩ := by
      unfold SsaCfg.var SsaCfg.newVar
      rw [List.getElem?_append_right (Nat.le_refl _),Nat.sub_self]
      rfl
    rw [isNew]
    exact ⟨⟨inputs,rfl⟩,rfl⟩

section Applying

variable {ssa : SsaCfg} {cc : CallingConv} {state : MemoryState}

theorem forwarded_extends (ssa : SsaCfg) (stores : List VarId) (size : UInt32) :
    Extends ssa (forwarded ssa stores size).2 ∧
      ∀ id < ssa.vars.length, (forwarded ssa stores size).2.var id = ssa.var id := by
  unfold forwarded
  split
  · exact ⟨extends_refl ssa,fun _ _ => rfl⟩
  · exact ⟨extends_refl ssa,fun _ _ => rfl⟩
  · exact ⟨extends_newVar ssa _ _ _,fun id inRange => ssa.var_newVar _ _ _ inRange⟩

-- What is done for one load.
structure Applied (cc : CallingConv) (ssa : SsaCfg) (state : MemoryState) (id : VarId) (ssa' : SsaCfg) : Prop where
  extends_ : Extends ssa ssa'
  others : ∀ other < ssa.vars.length, other ≠ id → ssa'.var other = ssa.var other
  annotated : ∀ ptr, (ssa.var id).expr = .load ptr →
    (ssa'.var id).memory = some (.load (annotate cc ssa state id ptr).1 (annotate cc ssa state id ptr).2.1
      (annotate cc ssa state id ptr).2.2)

theorem applied_load {id ptr : VarId} (isLoad : (ssa.var id).expr = .load ptr) :
    Applied cc ssa state id (applyStmt cc ssa state (.assign id)) := by
  have inRange := load_range isLoad
  unfold applyStmt
  simp only [isLoad]
  rcases answered : annotate cc ssa state id ptr with ⟨space,stores,boundary⟩
  dsimp only
  have noted : Extends ssa (ssa.modifyVar id fun var => { var with memory := some (.load space stores boundary) }) :=
    extends_modify isLoad (fun _ => ⟨rfl,rfl,rfl⟩) (fun _ => Or.inr ⟨space,stores,boundary,rfl⟩) (fun _ => Or.inl rfl)
  have vars := fun other => ssa.var_modify id other (fun var => { var with memory := some (.load space stores boundary) })
    inRange
  generalize ssa.modifyVar id (fun var => { var with memory := some (.load space stores boundary) }) = first at *
  obtain ⟨joined,sameVars⟩ := forwarded_extends first stores (ssa.var id).size
  rcases isForwarded : forwarded first stores (ssa.var id).size with ⟨value,second⟩
  rw [isForwarded] at joined sameVars
  have inFirst := Nat.lt_of_lt_of_le inRange noted.length
  have isHere : second.var id = { ssa.var id with memory := some (.load space stores boundary) } := by
    rw [sameVars id inFirst,vars,if_pos rfl]
  have elsewhere : ∀ other < ssa.vars.length, other ≠ id → second.var other = ssa.var other := by
    intro other isVar different
    rw [sameVars other (Nat.lt_of_lt_of_le isVar noted.length),vars,if_neg different]
  cases value with
  | none =>
    refine ⟨extends_trans noted joined,elsewhere,?_⟩
    intro ptr' isLoad'
    rw [isLoad] at isLoad'
    cases isLoad'
    dsimp only
    rw [isHere,answered]
  | some value =>
    dsimp only
    have stillLoad : (second.var id).expr = .load ptr := by
      rw [isHere]
      exact isLoad
    have inSecond := Nat.lt_of_lt_of_le inFirst joined.length
    have lastVars := fun other => second.var_modify id other (fun var => { var with expr := .var value }) inSecond
    have copied : Extends second (second.modifyVar id fun var => { var with expr := .var value }) :=
      extends_modify stillLoad (fun _ => ⟨rfl,rfl,rfl⟩) (fun _ => Or.inl rfl) (fun _ => Or.inr ⟨value,rfl⟩)
    refine ⟨extends_trans (extends_trans noted joined) copied,?_,?_⟩
    · intro other isVar different
      rw [lastVars,if_neg different]
      exact elsewhere other isVar different
    · intro ptr' isLoad'
      rw [isLoad] at isLoad'
      cases isLoad'
      rw [lastVars,if_pos rfl,isHere,answered]

theorem applied_other {id : VarId} (noLoad : ∀ ptr, (ssa.var id).expr ≠ .load ptr) :
    applyStmt cc ssa state (.assign id) = ssa := by
  cases isExpr : (ssa.var id).expr with
  | load ptr => exact absurd isExpr (noLoad ptr)
  | _ => simp only [applyStmt,isExpr]

theorem applyStmt_extends (stmt : Stmt) : Extends ssa (applyStmt cc ssa state stmt) := by
  cases stmt with
  | assign id =>
    by_cases isLoad : ∃ ptr, (ssa.var id).expr = .load ptr
    · obtain ⟨ptr,isLoad⟩ := isLoad
      exact (applied_load isLoad).extends_
    · rw [applied_other (not_exists.mp isLoad)]
      exact extends_refl ssa
  | store addr val => exact extends_refl ssa
  | call target args out => exact extends_refl ssa

theorem applyStmt_others {stmt : Stmt} {id : VarId} (inRange : id < ssa.vars.length) (different : stmt ≠ .assign id) :
    (applyStmt cc ssa state stmt).var id = ssa.var id := by
  cases stmt with
  | assign other =>
    by_cases isLoad : ∃ ptr, (ssa.var other).expr = .load ptr
    · obtain ⟨ptr,isLoad⟩ := isLoad
      apply (applied_load isLoad).others id inRange
      intro same
      exact different (congrArg Stmt.assign same.symm)
    · rw [applied_other (not_exists.mp isLoad)]
  | store addr val => rfl
  | call target args out => rfl

end Applying

section Applied

variable {cc : CallingConv}

theorem applyBlock_extends : ∀ (stmts : List Stmt) (ssa : SsaCfg) (state : MemoryState),
    Extends ssa (applyBlock cc stmts ssa state) := by
  intro stmts
  induction stmts with
  | nil => exact fun ssa _ => extends_refl ssa
  | cons stmt rest ih =>
    intro ssa state
    exact extends_trans (applyStmt_extends stmt) (ih _ _)

theorem applyBlock_others {id : VarId} : ∀ {stmts : List Stmt} {ssa : SsaCfg} {state : MemoryState},
    id < ssa.vars.length → .assign id ∉ stmts → (applyBlock cc stmts ssa state).var id = ssa.var id := by
  intro stmts
  induction stmts with
  | nil => exact fun _ _ => rfl
  | cons stmt rest ih =>
    intro ssa state inRange notAssigned
    obtain ⟨different,notRest⟩ := not_or.mp (fun is => notAssigned (List.mem_cons.mpr is))
    have inNext := Nat.lt_of_lt_of_le inRange (@applyStmt_extends ssa cc state stmt).length
    exact (ih inNext notRest).trans (applyStmt_others inRange (Ne.symm different))

theorem applyBlocks_extends {entries : BlockId → MemoryState} : ∀ (blocks : List SsaBlock) (first : BlockId)
    (ssa : SsaCfg), Extends ssa (applyBlocks cc entries blocks first ssa) := by
  intro blocks
  induction blocks with
  | nil => exact fun _ ssa => extends_refl ssa
  | cons block rest ih =>
    intro first ssa
    exact extends_trans (applyBlock_extends block.stmts ssa _) (ih _ _)

theorem applyBlocks_others {entries : BlockId → MemoryState} {id : VarId} : ∀ {blocks : List SsaBlock}
    {first : BlockId} {ssa : SsaCfg}, id < ssa.vars.length → (∀ block ∈ blocks, .assign id ∉ block.stmts) →
    (applyBlocks cc entries blocks first ssa).var id = ssa.var id := by
  intro blocks
  induction blocks with
  | nil => exact fun _ _ => rfl
  | cons block rest ih =>
    intro first ssa inRange notAssigned
    have inNext := Nat.lt_of_lt_of_le inRange (@applyBlock_extends cc block.stmts ssa (entries first)).length
    unfold applyBlocks
    rw [ih inNext (fun other isRest => notAssigned other (List.mem_cons_of_mem _ isRest))]
    exact applyBlock_others inRange (notAssigned block List.mem_cons_self)

theorem applyBlocks_append {entries : BlockId → MemoryState} : ∀ {blocks after : List SsaBlock} {first : BlockId}
    {ssa : SsaCfg}, applyBlocks cc entries (blocks ++ after) first ssa =
      applyBlocks cc entries after (first + blocks.length) (applyBlocks cc entries blocks first ssa) := by
  intro blocks
  induction blocks with
  | nil => exact fun {_ _ _} => rfl
  | cons block rest ih =>
    intro after first ssa
    rw [List.cons_append,applyBlocks,ih,applyBlocks,List.length_cons,Nat.add_assoc,
      Nat.add_comm 1 rest.length]

end Applied

end Rsleigh.Decompile
