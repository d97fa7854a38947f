import Rsleigh.Decompile.Simba

namespace Rsleigh.Decompile

open Pcode LinearMba

section Bases

variable {vars : List VarDef} {v : VarId}

-- The definitions between a variable and its bases.
def ComputedFrom (vars : List VarDef) : VarId → VarId → Prop :=
  Relation.ReflTransGen fun id used => isBase (varAt vars id).expr = false ∧ UsedBy vars id used

theorem ComputedFrom.below (computed : ComputedFrom vars v u) : Below vars v u := by
  induction computed with
  | refl => exact .refl
  | tail _ step below => exact below.tail step.2

theorem collectBaseVars_base (remaining : Nat) {expr : Expr} (collected : b ∈ collectBaseVars vars remaining expr) :
    b < vars.length ∧ isBase (varAt vars b).expr = true ∧ ∃ used ∈ expr.operands, Below vars used b := by
  induction remaining generalizing expr with
  | zero => cases collected
  | succ remaining ih =>
    cases expr with
    | var id =>
      simp only [collectBaseVars] at collected
      split at collected
      · split at collected
        · obtain rfl := List.mem_singleton.mp collected
          exact ⟨‹_›,‹_›,b,by simp [Expr.operands],.refl⟩
        · obtain ⟨inRange,base,used,inside,below⟩ := ih collected
          exact ⟨inRange,base,id,by simp [Expr.operands],.head inside below⟩
      · cases collected
    | binOp kind left right =>
      simp only [collectBaseVars,List.mem_append] at collected
      rcases collected with onLeft | onRight
      · obtain ⟨inRange,base,used,inside,below⟩ := ih onLeft
        exact ⟨inRange,base,used,by simp_all [Expr.operands],below⟩
      · obtain ⟨inRange,base,used,inside,below⟩ := ih onRight
        exact ⟨inRange,base,used,by simp_all [Expr.operands],below⟩
    | unaryOp kind arg =>
      obtain ⟨inRange,base,used,inside,below⟩ := ih collected
      exact ⟨inRange,base,used,by simp_all [Expr.operands],below⟩
    | const _ _ | load _ | fieldAccess _ _ | phi _ | ternary _ _ _ | userOp _ _ | unknown => cases collected

theorem baseVars_nodup (vars : List VarDef) (v : VarId) : (baseVars vars v).Nodup := List.nodup_dedup _

theorem baseVars_base (base : b ∈ baseVars vars v) :
    b < vars.length ∧ isBase (varAt vars b).expr = true ∧ Below vars v b := by
  unfold baseVars at base
  rw [List.mem_dedup,List.mem_insertionSort] at base
  obtain ⟨inRange,isOne,used,inside,below⟩ := collectBaseVars_base 11 base
  exact ⟨inRange,isOne,.head inside below⟩

-- The bases, with the values that a valuation gives them.
def baseValues (vars : List VarDef) (v : VarId) (val : VarId → Nat) (i : Nat) : Nat :=
  val ((baseVars vars v).getD i 0)

theorem baseEnv_values {val : VarId → Nat} (id : VarId) :
    baseEnv (baseVars vars v) (fun i => UInt64.ofNat (baseValues vars v val i)) id =
      if id ∈ baseVars vars v then some (UInt64.ofNat (val id)) else none := by
  unfold baseEnv baseValues
  split
  · rename_i base
    dsimp only
    rw [List.getD_eq_getElem _ _ (List.idxOf_lt_length_of_mem base),List.getElem_idxOf]
  · rfl

-- Where the evaluation, at the width of `v`, and P-code agree on the low `n` bytes of a definition.
def EvaluatesAt (vars : List VarDef) (val : VarId → Nat) (n : Nat) (u : VarId) : Prop :=
  let size := (varAt vars u).size.toNat
  match (varAt vars u).expr with
  | .const value _ => low n value.toNat = low (min n size) value.toNat
  | .var arg => low n (val arg) = low (min n size) (val arg)
  | .binOp kind left right =>
    foldedLow kind n n (low n (val left)) (low n (val right)) =
      computedLow kind n (varAt vars left).size.toNat size (val left) (val right)
  | .unaryOp kind arg =>
    foldedLowUnary kind n n (low n (val arg)) =
      computedLowUnary kind n (varAt vars arg).size.toNat size (val arg)
  | _ => True

def EvalAgrees (vars : List VarDef) (val : VarId → Nat) (v : VarId) : Prop :=
  ∀ u, ComputedFrom vars v u → EvaluatesAt vars val (varAt vars v).size.toNat u

end Bases

section Arithmetic

theorem evalBinOp_folds {size : UInt32} (evaluated : evalBinOp kind l r = some x) :
    ∃ y, foldBinOp kind l r size = some y ∧ y &&& widthMask size = x &&& widthMask size := by
  cases kind <;> simp only [evalBinOp,Option.some.injEq,reduceCtorEq] at evaluated <;> subst evaluated <;>
    simp [foldBinOp,UInt64.and_assoc]

theorem evalUnaryOp_folds {size : UInt32} (evaluated : evalUnaryOp kind i = some x) :
    ∃ y, foldUnaryOp kind i size = some y ∧ y &&& widthMask size = x &&& widthMask size := by
  cases kind <;> simp only [evalUnaryOp,Option.some.injEq,reduceCtorEq] at evaluated <;> subst evaluated <;>
    simp [foldUnaryOp,UInt64.and_assoc]

theorem low_and_widthMask {size : UInt32} (narrow : size.toNat ≤ 8) (value : UInt64) :
    (value &&& widthMask size).toNat = low size.toNat value.toNat := by
  rw [toNat_and_widthMask,Nat.min_eq_left narrow]

theorem evalBinOp_value {env : Env} {vars : List VarDef} {val : VarId → Nat} {u : VarId} {size : UInt32}
    (narrow : size.toNat ≤ 8) (valued : ValuedBelow env vars val u) (shape : (varAt vars u).expr = .binOp kind left right)
    (agrees : EvaluatesAt vars val size.toNat u) (evaluated : evalBinOp kind l r = some x)
    (onLeft : l.toNat = low size.toNat (val left)) (onRight : r.toNat = low size.toNat (val right)) :
    (x &&& widthMask size).toNat = low size.toNat (val u) := by
  obtain ⟨y,folds,masked⟩ := @evalBinOp_folds _ _ _ _ size evaluated
  obtain ⟨leftValued,rightValued⟩ := valued.ofBinOp shape
  have arithmetic := arithmetic_of_folds folds
  have folded := foldBinOp_low folds narrow rfl rfl l.toNat_lt r.toNat_lt
  have whole := valued.keeps
  rw [shape,keeps_some rfl] at whole
  have computed := evalBinary_low env size.toNat (varAt vars u).size arithmetic leftValued.narrow leftValued.within
    rightValued.small
  simp only [EvaluatesAt,shape] at agrees
  rw [Nat.min_eq_left narrow,onLeft,onRight,agrees,← computed] at folded
  rw [← masked,low_and_widthMask narrow,folded,whole]
  rfl

theorem evalUnaryOp_value {env : Env} {vars : List VarDef} {val : VarId → Nat} {u : VarId} {size : UInt32}
    (narrow : size.toNat ≤ 8) (valued : ValuedBelow env vars val u) (shape : (varAt vars u).expr = .unaryOp kind arg)
    (agrees : EvaluatesAt vars val size.toNat u) (evaluated : evalUnaryOp kind i = some x)
    (onInner : i.toNat = low size.toNat (val arg)) : (x &&& widthMask size).toNat = low size.toNat (val u) := by
  obtain ⟨y,folds,masked⟩ := @evalUnaryOp_folds _ _ _ size evaluated
  have innerValued := valued.ofUnaryOp shape
  have arithmetic := unary_of_folds folds
  have folded := foldUnaryOp_low folds narrow rfl i.toNat_lt
  have whole := valued.keeps
  rw [shape,keeps_some rfl] at whole
  have computed := evalUnary_low env size.toNat (varAt vars u).size arithmetic innerValued.narrow innerValued.within
  simp only [EvaluatesAt,shape] at agrees
  rw [Nat.min_eq_left narrow,onInner,agrees,← computed] at folded
  rw [← masked,low_and_widthMask narrow,folded,whole]
  rfl

end Arithmetic

section Evaluated

variable {env : Env} {vars : List VarDef} {val : VarId → Nat} {bases : VarId → Option UInt64} {size : UInt32}
  (narrow : size.toNat ≤ 8) (leaves : ∀ u value, bases u = some value → low size.toNat value.toNat = low size.toNat (val u))

include narrow leaves

-- An evaluation has the value of the variable when it agrees with P-code at each definition on the way.
theorem evalMaskedExpr_value (remaining : Nat) :
    (∀ u x, ValuedBelow env vars val u → (∀ w, ComputedFrom vars u w → EvaluatesAt vars val size.toNat w) →
      evalMaskedExpr vars bases (widthMask size) remaining (.var u) = some x → x.toNat = low size.toNat (val u)) ∧
    ∀ u x, ValuedBelow env vars val u → (∀ w, ComputedFrom vars u w → EvaluatesAt vars val size.toNat w) →
      evalMaskedExpr vars bases (widthMask size) remaining (varAt vars u).expr = some x →
        x.toNat = low size.toNat (val u) := by
  induction remaining with
  | zero =>
    constructor
    · intro u x _ _ evaluated
      cases evaluated
    · intro u x _ _ evaluated
      cases evaluated
  | succ remaining ih =>
    obtain ⟨ofVar,ofDefinition⟩ := ih
    have variable_ : ∀ u x, ValuedBelow env vars val u →
        (∀ w, ComputedFrom vars u w → EvaluatesAt vars val size.toNat w) →
        evalMaskedExpr vars bases (widthMask size) (remaining + 1) (.var u) = some x →
          x.toNat = low size.toNat (val u) := by
      intro u x valued agrees evaluated
      simp only [evalMaskedExpr] at evaluated
      split at evaluated
      · rename_i value isLeaf
        obtain rfl := Option.some.inj evaluated
        rw [low_and_widthMask narrow,leaves u value isLeaf]
      · split at evaluated
        · exact ofDefinition u x valued agrees evaluated
        · cases evaluated
    refine ⟨variable_,fun u x valued agrees evaluated => ?_⟩
    have here := agrees u .refl
    generalize shape : (varAt vars u).expr = expr at evaluated
    have below {arg : VarId} (plain : isBase expr = false) (used : arg ∈ expr.operands) :
        ∀ w, ComputedFrom vars arg w → EvaluatesAt vars val size.toNat w :=
      fun w reached => agrees w (.head ⟨by rw [shape]; exact plain,by rw [UsedBy,shape]; exact used⟩ reached)
    have operand {arg : VarId} (used : arg ∈ expr.operands) : ValuedBelow env vars val arg :=
      valued.operand (by rw [UsedBy,shape]; exact used)
    cases expr with
    | const value width =>
      obtain rfl := Option.some.inj evaluated
      simp only [EvaluatesAt,shape] at here
      rw [low_and_widthMask narrow,here,value_const shape valued,low_low]
    | var arg =>
      have value := variable_ arg x (operand (by simp [Expr.operands])) (below rfl (by simp [Expr.operands])) evaluated
      have whole := valued.keeps
      rw [shape,keeps_var] at whole
      simp only [EvaluatesAt,shape] at here
      rw [value,here,whole,low_low]
    | binOp kind left right =>
      simp only [evalMaskedExpr,Option.bind_eq_bind,Option.bind_eq_some_iff,Option.pure_def,Option.some.injEq] at evaluated
      obtain ⟨l,onLeft,r,onRight,result,computed,rfl⟩ := evaluated
      have usedLeft : left ∈ (Expr.binOp kind left right).operands := by simp [Expr.operands]
      have usedRight : right ∈ (Expr.binOp kind left right).operands := by simp [Expr.operands]
      exact evalBinOp_value narrow valued shape here computed
        (ofVar left l (operand usedLeft) (below rfl usedLeft) onLeft)
        (ofVar right r (operand usedRight) (below rfl usedRight) onRight)
    | unaryOp kind arg =>
      simp only [evalMaskedExpr,Option.bind_eq_bind,Option.bind_eq_some_iff,Option.pure_def,Option.some.injEq] at evaluated
      obtain ⟨i,onInner,result,computed,rfl⟩ := evaluated
      have used : arg ∈ (Expr.unaryOp kind arg).operands := by simp [Expr.operands]
      exact evalUnaryOp_value narrow valued shape here computed (ofVar arg i (operand used) (below rfl used) onInner)
    | load _ | fieldAccess _ _ | phi _ | ternary _ _ _ | userOp _ _ | unknown => cases evaluated

end Evaluated

section Replacement

variable {env : Env} {vars : List VarDef} {val : VarId → Nat} {v : VarId}

theorem cast_value (valued : ValuedBelow env vars val v) (x : Nat) :
    val v = low (varAt vars v).size.toNat x ↔ (val v : ZMod (2 ^ (8 * (varAt vars v).size.toNat))) = x := by
  rw [← low_eq_iff,low_eq_self valued.within]

theorem simbaValue_valued (valued : ValuedBelow env vars val v) (agrees : EvalAgrees vars val v)
    (found : simbaCoefficients vars v (baseVars vars v) = some c) :
    simbaValue vars v (baseValues vars v val) = val v := by
  have narrow := valued.narrow
  obtain ⟨x,evaluated⟩ := Option.isSome_iff_exists.mp
    (simbaCoefficients_evaluates found fun i => UInt64.ofNat (baseValues vars v val i))
  have leaves : ∀ u value, baseEnv (baseVars vars v) (fun i => UInt64.ofNat (baseValues vars v val i)) u = some value →
      low (varAt vars v).size.toNat value.toNat = low (varAt vars v).size.toNat (val u) := by
    intro u value isBase
    rw [baseEnv_values,Option.ite_none_right_eq_some,Option.some.injEq] at isBase
    rw [← isBase.2,UInt64.toNat_ofNat']
    exact Nat.mod_mod_of_dvd _ (Nat.pow_dvd_pow 2 (by omega))
  have value := (evalMaskedExpr_value narrow leaves 21).2 v x valued agrees evaluated
  unfold simbaValue inRing
  rw [evaluated,Option.getD_some,value,low_eq_self valued.within]

-- The bases of `v` are at least as wide as it is.
def BasesWide (vars : List VarDef) (v : VarId) : Prop := ∀ b ∈ baseVars vars v, (varAt vars v).size ≤ (varAt vars b).size

theorem form_keeps {form : SimbaForm} (valued : ValuedBelow env vars val v) (wide : BasesWide vars v)
    (within : form.Within (baseVars vars v).length) :
    KeepsValue env vars val v (form.expr (baseVars vars v) (varAt vars v).size) ↔
      (val v : ZMod (2 ^ (8 * (varAt vars v).size.toNat))) = form.value (baseValues vars v val) := by
  have base {i : Nat} (inside : i < (baseVars vars v).length) :
      ValuedBelow env vars val ((baseVars vars v).getD i 0) ∧
        (varAt vars v).size.toNat ≤ (varAt vars ((baseVars vars v).getD i 0)).size.toNat := by
    rw [List.getD_eq_getElem _ _ inside]
    have member := List.getElem_mem inside
    exact ⟨fun u below => valued u ((baseVars_base member).2.2.trans below),UInt32.le_iff_toNat_le.mp (wide _ member)⟩
  have narrow := valued.narrow
  cases form with
  | const value =>
    rw [SimbaForm.expr,keeps_const,cast_value valued]
    rfl
  | var i =>
    rw [SimbaForm.expr,keeps_var,cast_value valued]
    rfl
  | binOp kind i j =>
    obtain ⟨kinds,inI,inJ⟩ := within
    obtain ⟨leftValued,leftWide⟩ := base inI
    obtain ⟨rightValued,_⟩ := base inJ
    have whole : min (varAt vars v).size.toNat (min (varAt vars ((baseVars vars v).getD i 0)).size.toNat
        (varAt vars v).size.toNat) = (varAt vars v).size.toNat := by omega
    simp only [List.mem_cons,List.not_mem_nil,or_false] at kinds
    rw [SimbaForm.expr,keeps_binOp (by rcases kinds with rfl | rfl | rfl | rfl | rfl <;> decide) leftValued
      rightValued.small]
    rcases kinds with rfl | rfl | rfl | rfl | rfl <;> simp only [computedLow,whole,SimbaForm.value,baseValues]
    · rw [cast_value valued,Nat.cast_add]
    · rw [cast_value valued,Nat.cast_add,cast_negative narrow rightValued.small,neg_add_eq_sub]
    · exact cast_value valued _
    · exact cast_value valued _
    · exact cast_value valued _
  | unaryOp kind i =>
    obtain ⟨kinds,inI⟩ := within
    obtain ⟨innerValued,innerWide⟩ := base inI
    have whole : min (varAt vars v).size.toNat (min (varAt vars ((baseVars vars v).getD i 0)).size.toNat
        (varAt vars v).size.toNat) = (varAt vars v).size.toNat := by omega
    simp only [List.mem_cons,List.not_mem_nil,or_false] at kinds
    rw [SimbaForm.expr,keeps_unaryOp kinds innerValued]
    rcases kinds with rfl | rfl <;> simp only [computedLowUnary,whole,SimbaForm.value,baseValues]
    · rw [cast_value valued,cast_negative narrow innerValued.small]
    · rw [cast_value valued,cast_complement narrow innerValued.small]

end Replacement

section Widths

-- Without shifts, at widths that cover that of `v`, the evaluation is right.
def WideAt (vars : List VarDef) (n : Nat) (u : VarId) : Prop :=
  let size := (varAt vars u).size.toNat
  match (varAt vars u).expr with
  | .const _ _ | .var _ => n ≤ size
  | .binOp kind left _ => kind ∈ [.add,.sub,.mult,.and,.or,.xor] ∧ n ≤ (varAt vars left).size.toNat ∧ n ≤ size
  | .unaryOp kind arg => kind ∈ [.neg,.not] ∧ n ≤ (varAt vars arg).size.toNat ∧ n ≤ size
  | _ => True

instance (vars : List VarDef) (n : Nat) (u : VarId) : Decidable (WideAt vars n u) := by
  unfold WideAt
  cases (varAt vars u).expr <;> infer_instance

theorem evaluatesAt_wide {env : Env} {vars : List VarDef} {val : VarId → Nat} {u : VarId} (narrow : n ≤ 8)
    (valued : ValuedBelow env vars val u) (wide : WideAt vars n u) : EvaluatesAt vars val n u := by
  have again (x : Nat) : low n (low n x) = low n x := by rw [low_low,Nat.min_self]
  have fits (x : Nat) : low n x < 2 ^ 64 :=
    lt_of_lt_of_le (Nat.mod_lt _ (by positivity)) (Nat.pow_le_pow_right (by decide) (by omega))
  unfold WideAt at wide
  unfold EvaluatesAt
  cases shape : (varAt vars u).expr with
  | const value size | var arg =>
    simp only [shape] at wide ⊢
    rw [Nat.min_eq_left wide]
  | binOp kind left right =>
    obtain ⟨leftValued,rightValued⟩ := valued.ofBinOp shape
    simp only [shape] at wide ⊢
    obtain ⟨kinds,leftWide,own⟩ := wide
    have whole : min n (min (varAt vars left).size.toNat (varAt vars u).size.toNat) = n := by omega
    simp only [List.mem_cons,List.not_mem_nil,or_false] at kinds
    rcases kinds with rfl | rfl | rfl | rfl | rfl | rfl <;> simp only [foldedLow,computedLow,whole,Nat.min_self]
    · exact low_add (again _) (again _)
    · exact low_sub narrow (again _) (again _) (fits _) rightValued.small
    · exact low_mul (again _) (again _)
    · exact low_and (again _) (again _)
    · exact low_or (again _) (again _)
    · exact low_xor (again _) (again _)
  | unaryOp kind arg =>
    have innerValued := valued.ofUnaryOp shape
    simp only [shape] at wide ⊢
    obtain ⟨kinds,innerWide,own⟩ := wide
    have whole : min n (min (varAt vars arg).size.toNat (varAt vars u).size.toNat) = n := by omega
    simp only [List.mem_cons,List.not_mem_nil,or_false] at kinds
    rcases kinds with rfl | rfl <;> simp only [foldedLowUnary,computedLowUnary,whole,Nat.min_self]
    · exact low_sub narrow (a := 0) (x := 0) rfl (again _) (fits _) innerValued.small
    · rw [low_complement narrow (fits _),low_complement narrow innerValued.small,again]
  | load _ | fieldAccess _ _ | phi _ | ternary _ _ _ | userOp _ _ | unknown => trivial

theorem evalAgrees_wide {env : Env} {vars : List VarDef} {val : VarId → Nat} {v : VarId}
    (valued : ValuedBelow env vars val v)
    (wide : ∀ u, ComputedFrom vars v u → WideAt vars (varAt vars v).size.toNat u) : EvalAgrees vars val v := by
  intro u computed
  have below := computed.below
  exact evaluatesAt_wide valued.narrow (fun w reached => valued w (below.trans reached)) (wide u computed)

end Widths

section Linearity

variable {vars : List VarDef} {v : VarId}

-- A linear combination of bitwise functions of the bases, but not a & ~b of two bases.
def SimbaLinear (vars : List VarDef) (v : VarId) : Prop :=
  Linear (8 * (varAt vars v).size.toNat) (simbaValue vars v) ∧
    ((baseVars vars v).length = 2 →
      (¬ ∀ y, simbaValue vars v y = (andNot 0 1 y : Int)) ∧ ¬ ∀ y, simbaValue vars v y = (andNot 1 0 y : Int))

theorem andNot_linear (i j w : Nat) : Linear w fun y : Nat → Nat => ((andNot i j y : Int) : ZMod (2 ^ w)) := by
  have difference := (linear_var (w := w) i).sub (linear_and i j)
  simpa [andNot] using difference

theorem andNot_apart : ∀ (i j : Fin 2), i ≠ j →
    (∀ k < 2, ∃ ones ∈ positionSets 2,
      (SimbaForm.var k).value (onesPoint ones) - andNot i j (onesPoint ones) ∈ [-2,-1,1,2]) ∧
    (∀ kind ∈ [BinOpKind.add,.sub,.and,.or,.xor], ∀ k < 2, ∀ l < 2, ∃ ones ∈ positionSets 2,
      (SimbaForm.binOp kind k l).value (onesPoint ones) - andNot i j (onesPoint ones) ∈ [-2,-1,1,2]) ∧
    ∀ kind ∈ [UnaryOpKind.neg,.not], ∀ k < 2, ∃ ones ∈ positionSets 2,
      (SimbaForm.unaryOp kind k).value (onesPoint ones) - andNot i j (onesPoint ones) ∈ [-2,-1,1,2] := by
  decide +kernel

theorem small_apart {a b : Int} (bytes : 1 ≤ n) (apart : a - b ∈ [-2,-1,1,2]) :
    (a : ZMod (2 ^ (8 * n))) ≠ b := by
  intro same
  have zero : ((a - b : Int) : ZMod (2 ^ (8 * n))) = 0 := by rw [Int.cast_sub,same,sub_self]
  rw [ZMod.intCast_zmod_eq_zero_iff_dvd] at zero
  have room : 2 ^ 8 ≤ 2 ^ (8 * n) := Nat.pow_le_pow_right (by decide) (by omega)
  have nonzero : a - b ≠ 0 := by
    intro none
    rw [none] at apart
    exact absurd apart (by decide)
  have bound := Int.natAbs_le_of_dvd_ne_zero zero nonzero
  simp only [List.mem_cons,List.not_mem_nil,or_false] at apart
  omega

theorem form_not_andNot {form : SimbaForm} (bytes : 1 ≤ n) (within : form.Within 2) {i j : Fin 2} (other : i ≠ j) :
    ¬ ∀ y : Nat → Nat, (form.value y : ZMod (2 ^ (8 * n))) = (andNot i j y : Int) := by
  intro same
  obtain ⟨vars_,binOps,unaryOps⟩ := andNot_apart i j other
  have apart (differs : ∃ ones ∈ positionSets 2,
      form.value (onesPoint ones) - andNot i j (onesPoint ones) ∈ [-2,-1,1,2]) : False := by
    obtain ⟨ones,_,difference⟩ := differs
    refine small_apart bytes difference ?_
    rw [SimbaForm.value_cast]
    exact same _
  cases form with
  | const c =>
    have none := same (onesPoint [])
    have first := same (onesPoint [i])
    have zero : andNot i j (onesPoint []) = 0 := by simp [andNot,onesPoint]
    have one : andNot i j (onesPoint [i]) = 1 := by
      simp [andNot,onesPoint,Fin.val_inj,other.symm]
    simp only [SimbaForm.value,zero,one] at none first
    exact small_apart (a := 1) (b := 0) bytes (by decide) (first.symm.trans none)
  | var k => exact apart (vars_ k within)
  | binOp kind k l => exact apart (binOps kind within.1 k within.2.1 l within.2.2)
  | unaryOp kind k => exact apart (unaryOps kind within.1 k within.2)

theorem recovered_iff (bytes : 1 ≤ (varAt vars v).size.toNat) (narrow : (varAt vars v).size.toNat ≤ 8)
    (recovered : simbaForm vars v = some form) :
    SimbaLinear vars v ↔ ∀ y, simbaValue vars v y = form.value y := by
  obtain ⟨within,recovers⟩ := simbaForm_recovers narrow recovered
  have positive : 0 < 8 * (varAt vars v).size.toNat := by omega
  constructor
  · rintro ⟨linear,general⟩
    rcases recovers with same | ⟨two,same | same⟩
    · exact linear.ext positive (form.linear _) same
    · exact absurd (linear.ext positive (andNot_linear 0 1 _) same.2) (general two).1
    · exact absurd (linear.ext positive (andNot_linear 1 0 _) same.2) (general two).2
  · intro same
    have asForm : simbaValue vars v = fun y => form.value y := funext same
    refine ⟨asForm ▸ form.linear _,fun two => ?_⟩
    rw [two] at within
    rw [asForm]
    exact ⟨form_not_andNot (i := 0) (j := 1) bytes within (by decide),
      form_not_andNot (i := 1) (j := 0) bytes within (by decide)⟩

end Linearity

section Valuations

variable {vars : List VarDef} {v : VarId}

-- The bases may hold anything.
def BasesFree (vars : List VarDef) (v : VarId) : Prop :=
  ∀ b ∈ baseVars vars v, ∀ cond then_ else_, (varAt vars b).expr ≠ .ternary cond then_ else_

theorem base_leaf (env : Env) (free : BasesFree vars v) (base : b ∈ baseVars vars v) (val : VarId → Nat) (size : UInt32) :
    exprValue env vars val size (varAt vars b).expr = none := by
  have isOne := (baseVars_base base).2.1
  have plain := free b base
  generalize (varAt vars b).expr = expr at *
  cases expr with
  | ternary cond then_ else_ => exact absurd rfl (plain cond then_ else_)
  | load _ | fieldAccess _ _ | phi _ | unknown => rfl
  | var _ | const _ _ | binOp _ _ _ | unaryOp _ _ | userOp _ _ => cases isOne

theorem valuation_exists (env : Env) (acyclic : WellFounded fun used id => UsedBy vars id used)
    (sized : ∀ u, Below vars v u → Sized vars u) (free : BasesFree vars v) (wide : BasesWide vars v) (y : Nat → Nat) :
    ∃ val, ValuedBelow env vars val v ∧ ∀ i < (baseVars vars v).length,
      (baseValues vars v val i : ZMod (2 ^ (8 * (varAt vars v).size.toNat))) = y i := by
  refine ⟨valuesFrom env acyclic fun id => y ((baseVars vars v).idxOf id),
    fun u below => ⟨valuesFrom_holds env acyclic _ u,sized u below⟩,fun i inside => ?_⟩
  have member := List.getElem_mem inside
  unfold baseValues
  rw [List.getD_eq_getElem _ _ inside,valuesFrom_leaf env acyclic (base_leaf env free member _ _),
    (baseVars_nodup vars v).idxOf_getElem i inside]
  refine low_eq_iff.mp (low_mod ?_ _)
  exact UInt32.le_iff_toNat_le.mp (wide _ member)

end Valuations

section Main

variable {env : Env} {vars : List VarDef} {v : VarId}

theorem trySimbaAt_form (general : constFoldExpr vars (varAt vars v).expr = none) (replaced : simbaExpr vars v = some expr) :
    ∃ form, simbaForm vars v = some form ∧ form.expr (baseVars vars v) (varAt vars v).size = expr := by
  unfold simbaExpr at replaced
  rw [general] at replaced
  exact Option.map_eq_some_iff.mp (Option.ite_none_left_eq_some.mp replaced).2

theorem replaced_keeps {val : VarId → Nat} (valued : ValuedBelow env vars val v) (agrees : EvalAgrees vars val v)
    (wide : BasesWide vars v) (recovered : simbaForm vars v = some form) :
    KeepsValue env vars val v (form.expr (baseVars vars v) (varAt vars v).size) ↔
      simbaValue vars v (baseValues vars v val) = form.value (baseValues vars v val) := by
  obtain ⟨c,found⟩ := simbaForm_some recovered
  rw [form_keeps valued wide (simbaForm_recovers valued.narrow recovered).1,simbaValue_valued valued agrees found]

end Main

-- An expression that is recovered from coefficients keeps its value when it is linear and not a & ~b, and where it
-- keeps it for all values of the bases it is.
theorem trySimbaAt_value (env : Env) (vars : List VarDef) (v : VarId)
    (general : constFoldExpr vars (varAt vars v).expr = none) (wide : BasesWide vars v) :
    (SimbaLinear vars v → ∀ val, ValuedBelow env vars val v → EvalAgrees vars val v →
      HoldsValue env (trySimbaAt vars v) val v) ∧
    ((simbaExpr vars v).isSome = true → (WellFounded fun used id => UsedBy vars id used) →
      (∀ u, Below vars v u → Sized vars u) → BasesFree vars v →
      (∀ val, ValuedBelow env vars val v → EvalAgrees vars val v ∧ HoldsValue env (trySimbaAt vars v) val v) →
      SimbaLinear vars v) := by
  constructor
  · intro linear val valued agrees
    obtain ⟨holds,sized⟩ := valued v .refl
    unfold trySimbaAt
    cases replaced : simbaExpr vars v with
    | none => exact holds
    | some expr =>
      obtain ⟨form,recovered,rfl⟩ := trySimbaAt_form general replaced
      refine (holds_rewriteExpr sized.inRange holds).mpr ((replaced_keeps valued agrees wide recovered).mpr ?_)
      exact (recovered_iff sized.positive sized.narrow recovered).mp linear _
  · intro isReplaced acyclic sized free kept
    obtain ⟨expr,replaced⟩ := Option.isSome_iff_exists.mp isReplaced
    obtain ⟨form,recovered,rfl⟩ := trySimbaAt_form general replaced
    have own := sized v .refl
    refine (recovered_iff own.positive own.narrow recovered).mpr fun y => ?_
    obtain ⟨val,valued,atBases⟩ := valuation_exists env acyclic sized free wide y
    obtain ⟨agrees,after⟩ := kept val valued
    unfold trySimbaAt at after
    rw [replaced] at after
    have same := (replaced_keeps valued agrees wide recovered).mp
      ((holds_rewriteExpr own.inRange (valued v .refl).1).mp after)
    have within := (simbaForm_recovers own.narrow recovered).1
    rw [← simbaValue_congr own.narrow atBases,same,SimbaForm.value_congr within atBases]

-- (a & b) + (a | b) is a + b.
def bitwiseSum : List VarDef :=
  [plainVar .unknown 1,plainVar .unknown 1,plainVar (.binOp .and 0 1) 1,plainVar (.binOp .or 0 1) 1,
    plainVar (.binOp .add 2 3) 1]

def bitwiseSumValues (id : VarId) : Nat := [5,3,1,7,8].getD id 0

theorem bitwiseSum_linear : SimbaLinear bitwiseSum 4 := by
  have bases : baseVars bitwiseSum 4 = [0,1] := by decide
  let m := widthMask 1
  have again (x : UInt64) : low 1 (x &&& m).toNat = low 1 x.toNat := low_eq_iff.mpr (inRing_mask (by decide) x)
  have word (x : Nat) : low 1 (UInt64.ofNat x).toNat = low 1 x := by
    rw [UInt64.toNat_ofNat']
    exact Nat.mod_mod_of_dvd _ (by decide)
  have value : simbaValue bitwiseSum 4 = fun y => ((y 0 &&& y 1 : Nat) + (y 0 ||| y 1 : Nat) : ZMod (2 ^ (8 * 1))) := by
    funext y
    let a := UInt64.ofNat (y 0)
    let b := UInt64.ofNat (y 1)
    have evaluated : simbaEval bitwiseSum 4 [0,1] (fun i => UInt64.ofNat (y i)) =
        some ((((a &&& m) &&& (b &&& m) &&& m) + (((a &&& m) ||| (b &&& m)) &&& m)) &&& m) := rfl
    have conjoined : low 1 ((a &&& m) &&& (b &&& m) &&& m).toNat = low 1 (y 0 &&& y 1) := by
      rw [again,UInt64.toNat_and]
      exact low_and ((again a).trans (word _)) ((again b).trans (word _))
    have disjoined : low 1 (((a &&& m) ||| (b &&& m)) &&& m).toNat = low 1 (y 0 ||| y 1) := by
      rw [again,UInt64.toNat_or]
      exact low_or ((again a).trans (word _)) ((again b).trans (word _))
    have sum := low_add conjoined disjoined
    unfold simbaValue
    rw [bases,evaluated,Option.getD_some,← Nat.cast_add]
    refine low_eq_iff.mp ?_
    exact ((again _).trans (Nat.mod_mod_of_dvd _ (by decide))).trans sum
  have apart (i j : Nat) : ¬ ∀ y, simbaValue bitwiseSum 4 y = (andNot i j y : Int) := by
    rw [value]
    intro same
    have nothing : andNot i j (fun _ => 1) = 0 := by simp [andNot]
    have atOnes := same fun _ => 1
    rw [nothing] at atOnes
    exact absurd atOnes (by decide : ((1 &&& 1 : Nat) + (1 ||| 1 : Nat) : ZMod (2 ^ (8 * 1))) ≠ (0 : Int))
  refine ⟨?_,fun _ => ⟨apart 0 1,apart 1 0⟩⟩
  rw [value]
  exact (linear_and 0 1).add (linear_or 0 1)

theorem bitwiseSum_value : (trySimbaAt bitwiseSum 4)[4]? = some (plainVar (.binOp .add 0 1) 1) ∧
    HoldsValue plainEnv (trySimbaAt bitwiseSum 4) bitwiseSumValues 4 := by
  have values : ValuedBelow plainEnv bitwiseSum bitwiseSumValues 4 := by
    intro u below
    have inside := Below.inside [0,1,2,3,4] (by decide) (by decide) below
    simp only [List.mem_cons,List.not_mem_nil,or_false] at inside
    rcases inside with rfl | rfl | rfl | rfl | rfl <;> exact ⟨⟨by decide,by decide⟩,by unfold Sized; decide⟩
  have wide : BasesWide bitwiseSum 4 := by
    have bases : baseVars bitwiseSum 4 = [0,1] := by decide
    unfold BasesWide
    rw [bases]
    decide
  have agrees : EvalAgrees bitwiseSum bitwiseSumValues 4 := by
    refine evalAgrees_wide values fun u computed => ?_
    have inside := Below.inside [0,1,2,3,4] (by decide) (by decide) computed.below
    simp only [List.mem_cons,List.not_mem_nil,or_false] at inside
    rcases inside with rfl | rfl | rfl | rfl | rfl <;> decide
  have main := (trySimbaAt_value plainEnv bitwiseSum 4 (by decide) wide).1
  exact ⟨by decide +kernel,main bitwiseSum_linear bitwiseSumValues values agrees⟩

-- a - (a & b) becomes a - b.
def maskedDifference : List VarDef :=
  [plainVar .unknown 1,plainVar .unknown 1,plainVar (.binOp .and 0 1) 1,plainVar (.binOp .sub 0 2) 1]

def maskedDifferenceValues (id : VarId) : Nat := [1,2,0,1].getD id 0

theorem maskedDifference_changes : ¬ ∀ (env : Env) (vars : List VarDef) (val : VarId → Nat) (v : VarId),
    constFoldExpr vars (varAt vars v).expr = none → ValuedBelow env vars val v →
      HoldsValue env (trySimbaAt vars v) val v := by
  intro keeps
  have values : ValuedBelow plainEnv maskedDifference maskedDifferenceValues 3 := by
    intro u below
    have inside := Below.inside [0,1,2,3] (by decide) (by decide) below
    simp only [List.mem_cons,List.not_mem_nil,or_false] at inside
    rcases inside with rfl | rfl | rfl | rfl <;> exact ⟨⟨by decide,by decide⟩,by unfold Sized; decide⟩
  have table : trySimbaAt maskedDifference 3 =
      [plainVar .unknown 1,plainVar .unknown 1,plainVar (.binOp .and 0 1) 1,plainVar (.binOp .sub 0 1) 1] := by
    decide +kernel
  have after := keeps plainEnv maskedDifference maskedDifferenceValues 3 (by decide) values
  rw [table] at after
  exact absurd after.computed (by decide)

end Rsleigh.Decompile
