import Mathlib.Logic.Relation
import Rsleigh.Decompile.Ir
import Rsleigh.Pcode.Machine

namespace Rsleigh.Decompile

open Pcode

def UnaryOpKind.pcode : UnaryOpKind → UnaryOp
  | .neg => .intNeg
  | .not => .intNot
  | .zext => .intZext
  | .sext => .intSext
  | .boolNot => .boolNot
  | .floatNeg => .floatNeg
  | .floatAbs => .floatAbs
  | .floatSqrt => .floatSqrt
  | .floatNan => .floatNan
  | .int2Float => .int2Float
  | .float2Float => .float2Float
  | .trunc => .trunc
  | .floatCeil => .floatCeil
  | .floatFloor => .floatFloor
  | .floatRound => .floatRound
  | .popcount => .popcount
  | .lzcount => .lzcount

def BinOpKind.pcode : BinOpKind → BinaryOp
  | .add => .intAdd
  | .sub => .intSub
  | .mult => .intMult
  | .div => .intDiv
  | .sdiv => .intSDiv
  | .rem => .intRem
  | .srem => .intSRem
  | .and => .intAnd
  | .or => .intOr
  | .xor => .intXor
  | .lsl => .intLsl
  | .lsr => .intLsr
  | .asr => .intAsr
  | .eq => .intEq
  | .notEq => .intNotEq
  | .less => .intLess
  | .lessEq => .intLessEq
  | .sless => .intSLess
  | .slessEq => .intSLessEq
  | .carry => .intCarry
  | .scarry => .intSCarry
  | .sborrow => .intSBorrow
  | .boolAnd => .boolAnd
  | .boolOr => .boolOr
  | .boolXor => .boolXor
  | .floatAdd => .floatAdd
  | .floatSub => .floatSub
  | .floatMult => .floatMult
  | .floatDiv => .floatDiv
  | .floatEq => .floatEq
  | .floatNotEq => .floatNotEq
  | .floatLess => .floatLess
  | .floatLessEq => .floatLessEq

-- `vars[id.0 as usize]`.
def varAt (vars : List VarDef) (id : VarId) : VarDef := (vars[id]?).getD SsaCfg.sentinel

-- provenance::rewrite, as far as the expression goes.
def rewriteExpr (vars : List VarDef) (id : VarId) (expr : Expr) : List VarDef :=
  vars.modify id fun old => { old with expr := expr }

@[simp] theorem length_rewriteExpr (vars : List VarDef) (id : VarId) (expr : Expr) :
    (rewriteExpr vars id expr).length = vars.length := by
  simp [rewriteExpr]

theorem varAt_rewriteExpr {vars : List VarDef} {id : VarId} (inRange : id < vars.length) (expr : Expr)
    (other : VarId) :
    varAt (rewriteExpr vars id expr) other =
      if other = id then { varAt vars other with expr := expr } else varAt vars other := by
  unfold varAt rewriteExpr
  rw [List.getElem?_modify]
  by_cases same : id = other
  · subst same
    simp [List.getElem?_eq_getElem inRange]
  · simp [same,Ne.symm same]

@[simp] theorem size_rewriteExpr (vars : List VarDef) (id : VarId) (expr : Expr) (other : VarId) :
    (varAt (rewriteExpr vars id expr) other).size = (varAt vars other).size := by
  unfold varAt rewriteExpr
  rw [List.getElem?_modify]
  by_cases same : id = other
  · subst same
    cases vars[id]? <;> simp
  · simp [same]

def Expr.operands : Expr → List VarId
  | .var arg | .unaryOp _ arg | .load arg | .fieldAccess arg _ => [arg]
  | .binOp _ left right => [left,right]
  | .phi inputs | .userOp _ inputs => inputs
  | .ternary cond then_ else_ => [cond,then_,else_]
  | .const _ _ | .unknown => []

-- `if let Expr::BinOp(kind, l, r) = ..`, and the same of a unary operation.
def Expr.binOperands (kind : BinOpKind) : Expr → Option (VarId × VarId)
  | .binOp op left right => if op = kind then some (left,right) else none
  | _ => none

def Expr.unaryOperand (kind : UnaryOpKind) : Expr → Option VarId
  | .unaryOp op arg => if op = kind then some arg else none
  | _ => none

theorem Expr.binOperands_eq {expr : Expr} (found : expr.binOperands kind = some (left,right)) :
    expr = .binOp kind left right := by
  cases expr <;> simp [binOperands] at found
  obtain ⟨rfl,rfl,rfl⟩ := found
  rfl

theorem Expr.unaryOperand_eq {expr : Expr} (found : expr.unaryOperand kind = some arg) :
    expr = .unaryOp kind arg := by
  cases expr <;> simp [unaryOperand] at found
  obtain ⟨rfl,rfl⟩ := found
  rfl

-- `used` stands in the definition of `id`.
def UsedBy (vars : List VarDef) (id used : VarId) : Prop := used ∈ (varAt vars id).expr.operands

-- What the value of a variable may depend on, itself included.
def Below (vars : List VarDef) : VarId → VarId → Prop := Relation.ReflTransGen (UsedBy vars)

theorem Below.inside (ids : List VarId)
    (closed : ∀ id ∈ ids, ∀ used ∈ (varAt vars id).expr.operands, used ∈ ids) (start : v ∈ ids)
    (below : Below vars v u) : u ∈ ids := by
  induction below with
  | refl => exact start
  | tail _ used inside => exact closed _ inside _ used

def OnCycle (vars : List VarDef) (id : VarId) : Prop := Relation.TransGen (UsedBy vars) id id

-- What an expression stands for, given what its operands hold: an operator works at the width of its (left)
-- operand. Loads, phis and what is not known are leaves, which may hold anything.
def exprValue (env : Env) (vars : List VarDef) (val : VarId → Nat) (size : UInt32) : Expr → Option Nat
  | .var arg => some (val arg)
  | .const value _ => some value.toNat
  | .binOp op left right =>
    some (evalBinary env op.pcode (varAt vars left).size size (val left) (val right))
  | .unaryOp op arg => some (evalUnary env op.pcode (varAt vars arg).size size (val arg))
  | .ternary cond then_ else_ => some (if val cond ≠ 0 then val then_ else val else_)
  | .load _ | .fieldAccess _ _ | .phi _ | .userOp _ _ | .unknown => none

-- A variable holds the value of its expression, cut to its own size.
structure HoldsValue (env : Env) (vars : List VarDef) (val : VarId → Nat) (id : VarId) : Prop where
  within : val id < 2 ^ (8 * (varAt vars id).size.toNat)
  computed : ∀ value ∈ exprValue env vars val (varAt vars id).size (varAt vars id).expr,
    val id = value % 2 ^ (8 * (varAt vars id).size.toNat)

@[simp] theorem exprValue_rewriteExpr (env : Env) (vars : List VarDef) (id : VarId) (expr : Expr)
    (val : VarId → Nat) (size : UInt32) (other : Expr) :
    exprValue env (rewriteExpr vars id expr) val size other = exprValue env vars val size other := by
  cases other <;> simp [exprValue]

-- An expression in place of the definition of `v` has the value that `v` has.
def KeepsValue (env : Env) (vars : List VarDef) (val : VarId → Nat) (v : VarId) (expr : Expr) : Prop :=
  ∀ value ∈ exprValue env vars val (varAt vars v).size expr,
    val v = value % 2 ^ (8 * (varAt vars v).size.toNat)

theorem holds_rewriteExpr {env : Env} {vars : List VarDef} {val : VarId → Nat} (inRange : v < vars.length)
    (valued : HoldsValue env vars val v) :
    HoldsValue env (rewriteExpr vars v expr) val v ↔ KeepsValue env vars val v expr := by
  have here : (varAt (rewriteExpr vars v expr) v).expr = expr := by
    rw [varAt_rewriteExpr inRange,if_pos rfl]
  constructor
  · intro holds value computed
    have kept := holds.computed value
    rw [exprValue_rewriteExpr,size_rewriteExpr,here] at kept
    exact kept computed
  · intro keeps
    refine ⟨by simpa using valued.within,fun value computed => ?_⟩
    rw [exprValue_rewriteExpr,size_rewriteExpr,here] at computed
    rw [size_rewriteExpr]
    exact keeps value computed

theorem HoldsValue.rewrite {env : Env} {vars : List VarDef} {val : VarId → Nat}
    (valued : ∀ u, HoldsValue env vars val u) (same : KeepsValue env vars val v expr) (u : VarId) :
    HoldsValue env (rewriteExpr vars v expr) val u := by
  by_cases inRange : v < vars.length
  · by_cases here : u = v
    · rw [here]
      exact (holds_rewriteExpr inRange (valued v)).mpr same
    · have untouched : varAt (rewriteExpr vars v expr) u = varAt vars u := by
        rw [varAt_rewriteExpr inRange,if_neg here]
      refine ⟨by simpa using (valued u).within,fun value computed => ?_⟩
      rw [exprValue_rewriteExpr,untouched] at computed
      rw [untouched]
      exact (valued u).computed value computed
  · have untouched : rewriteExpr vars v expr = vars := List.modify_eq_self (Nat.le_of_not_lt inRange)
    rw [untouched]
    exact valued u

theorem exprValue_congr {env : Env} {vars : List VarDef} {val val' : VarId → Nat} {size : UInt32} {expr : Expr}
    (agree : ∀ used ∈ expr.operands, val used = val' used) :
    exprValue env vars val size expr = exprValue env vars val' size expr := by
  cases expr <;> simp_all [exprValue,Expr.operands]

-- Without definition cycles the leaves may hold anything, and determine everything else.
section Acyclic

variable (env : Env) {vars : List VarDef} (acyclic : WellFounded fun used id => UsedBy vars id used)

noncomputable def valuesFrom (leaf : VarId → Nat) : VarId → Nat :=
  acyclic.fix fun id below =>
    let operand (used : VarId) : Nat :=
      open Classical in if inside : UsedBy vars id used then below used inside else 0
    let value := (exprValue env vars operand (varAt vars id).size (varAt vars id).expr).getD (leaf id)
    value % 2 ^ (8 * (varAt vars id).size.toNat)

theorem valuesFrom_eq (leaf : VarId → Nat) (id : VarId) :
    valuesFrom env acyclic leaf id =
      (exprValue env vars (valuesFrom env acyclic leaf) (varAt vars id).size (varAt vars id).expr).getD (leaf id) %
        2 ^ (8 * (varAt vars id).size.toNat) := by
  have operands : ∀ used ∈ (varAt vars id).expr.operands,
      (open Classical in if _ : UsedBy vars id used then valuesFrom env acyclic leaf used else 0) =
        valuesFrom env acyclic leaf used := fun used inside => dif_pos inside
  rw [← exprValue_congr operands]
  exact acyclic.fix_eq _ id

theorem valuesFrom_holds (leaf : VarId → Nat) (id : VarId) :
    HoldsValue env vars (valuesFrom env acyclic leaf) id := by
  have value := valuesFrom_eq env acyclic leaf id
  constructor
  · rw [value]
    exact Nat.mod_lt _ (by positivity)
  · intro x computed
    rw [value,Option.mem_def.mp computed,Option.getD_some]

theorem valuesFrom_leaf {leaf : VarId → Nat} {id : VarId}
    (isLeaf : exprValue env vars (valuesFrom env acyclic leaf) (varAt vars id).size (varAt vars id).expr = none) :
    valuesFrom env acyclic leaf id = leaf id % 2 ^ (8 * (varAt vars id).size.toNat) := by
  rw [valuesFrom_eq,isLeaf,Option.getD_none]

end Acyclic

-- Variables of the sizes that P-code has.
def Sized (vars : List VarDef) (id : VarId) : Prop := (varAt vars id).size ∈ [1,2,4,8]

theorem Sized.narrow {id : VarId} (sized : Sized vars id) : (varAt vars id).size.toNat ≤ 8 := by
  unfold Sized at sized
  generalize (varAt vars id).size = size at *
  simp only [List.mem_cons,List.not_mem_nil,or_false] at sized
  rcases sized with rfl | rfl | rfl | rfl <;> decide

theorem Sized.inRange {id : VarId} (sized : Sized vars id) : id < vars.length := by
  by_contra outside
  unfold Sized varAt at sized
  rw [List.getElem?_eq_none (Nat.le_of_not_lt outside)] at sized
  exact absurd sized (by decide)

theorem Sized.positive {id : VarId} (sized : Sized vars id) : 1 ≤ (varAt vars id).size.toNat := by
  unfold Sized at sized
  generalize (varAt vars id).size = size at *
  simp only [List.mem_cons,List.not_mem_nil,or_false] at sized
  rcases sized with rfl | rfl | rfl | rfl <;> decide

-- Every variable that `v` may depend on has one of these sizes and the value of its expression.
def ValuedBelow (env : Env) (vars : List VarDef) (val : VarId → Nat) (v : VarId) : Prop :=
  ∀ u, Below vars v u → HoldsValue env vars val u ∧ Sized vars u

theorem ValuedBelow.operand (valued : ValuedBelow env vars val v) (used : UsedBy vars v u) :
    ValuedBelow env vars val u :=
  fun _ below => valued _ (.head used below)

-- A temporary, for small tables.
def plainVar (expr : Expr) (size : UInt32) : VarDef := ⟨⟨.unique,0,size⟩,expr,none,size,false⟩

end Rsleigh.Decompile
