import Rsleigh.Decompile.Values

namespace Rsleigh.Decompile

-- What the passes that evaluate a condition do not look into.
def isLeaf : Expr → Bool
  | .load _ | .fieldAccess _ _ | .phi _ | .ternary _ _ _ | .userOp _ _ | .unknown => true
  | .var _ | .const _ _ | .binOp _ _ _ | .unaryOp _ _ => false

-- The table whose leaves hold anything.
def leaved (vars : List VarDef) : List VarDef :=
  vars.map fun vdef => if isLeaf vdef.expr then { vdef with expr := .unknown } else vdef

theorem varAt_leaved (vars : List VarDef) (id : VarId) :
    varAt (leaved vars) id =
      if isLeaf (varAt vars id).expr then { varAt vars id with expr := .unknown } else varAt vars id := by
  unfold varAt leaved
  rw [List.getElem?_map]
  cases vars[id]? with
  | none => rfl
  | some vdef => rfl

theorem size_leaved (vars : List VarDef) (id : VarId) : (varAt (leaved vars) id).size = (varAt vars id).size := by
  rw [varAt_leaved]
  split <;> rfl

theorem expr_leaved {vars : List VarDef} {id : VarId} (inner : isLeaf (varAt vars id).expr = false) :
    (varAt (leaved vars) id).expr = (varAt vars id).expr := by
  rw [varAt_leaved,inner]
  rfl

theorem leaf_leaved {vars : List VarDef} {id : VarId} (leaf : isLeaf (varAt vars id).expr = true) :
    (varAt (leaved vars) id).expr = .unknown := by
  rw [varAt_leaved,if_pos leaf]

theorem usedBy_leaved {vars : List VarDef} {id used : VarId} (uses : UsedBy (leaved vars) id used) : UsedBy vars id used := by
  unfold UsedBy at uses ⊢
  by_cases leaf : isLeaf (varAt vars id).expr = true
  · rw [leaf_leaved leaf] at uses
    cases uses
  · rw [expr_leaved (by simpa using leaf)] at uses
    exact uses

-- A valuation of the leaves, and what follows from it.
def Valuation (env : Pcode.Env) (vars : List VarDef) (val : VarId → Nat) : Prop := ∀ u, HoldsValue env (leaved vars) val u

end Rsleigh.Decompile
