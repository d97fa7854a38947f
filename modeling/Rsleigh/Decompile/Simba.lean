import Mathlib
import Rsleigh.Decompile.ConstFold
import Rsleigh.Lib.LinearMba

namespace Rsleigh.Decompile

open Pcode LinearMba

-- fold.rs. The depths below count down from one above the limit of the source.
def exprDepth (vars : List VarDef) : Nat → Expr → Nat
  | 0, _ => 11
  | remaining + 1, expr =>
    let depthOf (id : VarId) := exprDepth vars remaining (varAt vars id).expr
    match expr with
    | .var id => if id < vars.length then depthOf id else 0
    | .binOp _ left right => 1 + max (depthOf left) (depthOf right)
    | .unaryOp _ inner => 1 + depthOf inner
    | _ => 0

def isBase : Expr → Bool
  | .unknown | .load _ | .phi _ | .fieldAccess _ _ | .ternary _ _ _ => true
  | _ => false

def collectBaseVars (vars : List VarDef) : Nat → Expr → List VarId
  | 0, _ => []
  | remaining + 1, expr =>
    match expr with
    | .var id =>
      if id < vars.length then
        if isBase (varAt vars id).expr then [id] else collectBaseVars vars remaining (varAt vars id).expr
      else []
    | .binOp _ left right =>
      collectBaseVars vars remaining (.var left) ++ collectBaseVars vars remaining (.var right)
    | .unaryOp _ inner => collectBaseVars vars remaining (.var inner)
    | _ => []

def baseVars (vars : List VarDef) (v : VarId) : List VarId :=
  ((collectBaseVars vars 11 (varAt vars v).expr).insertionSort (· ≤ ·)).dedup

def evalBinOp (kind : BinOpKind) (l r : UInt64) : Option UInt64 :=
  match kind with
  | .add => some (l + r)
  | .sub => some (l - r)
  | .mult => some (l * r)
  | .and => some (l &&& r)
  | .or => some (l ||| r)
  | .xor => some (l ^^^ r)
  | .lsl => some (l <<< (r &&& 63))
  | .lsr => some (l >>> (r &&& 63))
  | .asr => some (.ofBitVec (l.toBitVec.sshiftRight (r &&& 63).toNat))
  | _ => none

def evalUnaryOp (kind : UnaryOpKind) (v : UInt64) : Option UInt64 :=
  match kind with
  | .neg => some (0 - v)
  | .not => some (~~~v)
  | _ => none

-- `eval_expr`
def evalMaskedExpr (vars : List VarDef) (env : VarId → Option UInt64) (mask : UInt64) : Nat → Expr → Option UInt64
  | 0, _ => none
  | remaining + 1, expr =>
    match expr with
    | .const value _ => some (value &&& mask)
    | .var id =>
      match env id with
      | some value => some (value &&& mask)
      | none => if id < vars.length then evalMaskedExpr vars env mask remaining (varAt vars id).expr else none
    | .binOp kind left right => do
      let l ← evalMaskedExpr vars env mask remaining (.var left)
      let r ← evalMaskedExpr vars env mask remaining (.var right)
      let result ← evalBinOp kind l r
      return result &&& mask
    | .unaryOp kind inner => do
      let v ← evalMaskedExpr vars env mask remaining (.var inner)
      let result ← evalUnaryOp kind v
      return result &&& mask
    | _ => none

-- The environment in which the base at position `i` has the value `y i`.
def baseEnv (bases : List VarId) (y : Nat → UInt64) (id : VarId) : Option UInt64 :=
  if id ∈ bases then some (y (bases.idxOf id)) else none

def simbaEval (vars : List VarDef) (v : VarId) (bases : List VarId) (y : Nat → UInt64) : Option UInt64 :=
  evalMaskedExpr vars (baseEnv bases y) (widthMask (varAt vars v).size) 21 (varAt vars v).expr

-- The bases at the positions of `ones` are 1, the others 0.
def onesAt (ones : List Nat) (i : Nat) : UInt64 := if i ∈ ones then 1 else 0

def positionSets (count : Nat) : List (List Nat) := (List.range count).sublists'

-- The values at all of these points.
def simbaPoints (vars : List VarDef) (v : VarId) (bases : List VarId) : Option (List Nat → UInt64) :=
  let at_ (ones : List Nat) := simbaEval vars v bases (onesAt ones)
  if (positionSets bases.length).all fun ones => (at_ ones).isSome then some fun ones => (at_ ones).getD 0 else none

def conjunction (y : Nat → UInt64) : List Nat → UInt64
  | [] => 1
  | [i] => y i
  | i :: rest => y i &&& conjunction y rest

def combination (c : List Nat → UInt64) (count : Nat) (y : Nat → UInt64) : UInt64 :=
  ((positionSets count).map fun set => c set * conjunction y set).sum

def simbaProbes : Nat → List (List UInt64)
  | 1 => [[0x42],[0xFFFFFFFFFFFFFFFF],[0xAAAAAAAAAAAAAAAA],[0x0123456789ABCDEF]]
  | 2 => [[0xAA,0x55],[0xFF,0x42]]
  | 3 => [[0xAA,0x55,0x42]]
  | _ => [[0xAA,0x55,0x42,0xDE]]

-- The coefficients, when the combination of the conjunctions with them comes out at the probes too. The source writes
-- the alternating sum out for each of them.
def simbaCoefficients (vars : List VarDef) (v : VarId) (bases : List VarId) : Option (List Nat → UInt64) := do
  let mask := widthMask (varAt vars v).size
  let f ← simbaPoints vars v bases
  let c (set : List Nat) : UInt64 := coefficient f set &&& mask
  let comesOut (probe : List UInt64) : Bool :=
    let y (i : Nat) : UInt64 := probe.getD i 0 &&& mask
    simbaEval vars v bases y == some (combination c bases.length y &&& mask)
  if (simbaProbes bases.length).all comesOut then some c else none

-- What is put in the place of a combination, with the positions of the bases.
inductive SimbaForm where
  | const (value : UInt64)
  | var (i : Nat)
  | binOp (kind : BinOpKind) (i j : Nat)
  | unaryOp (kind : UnaryOpKind) (i : Nat)
  deriving DecidableEq

def SimbaForm.expr (bases : List VarId) (size : UInt32) : SimbaForm → Expr
  | .const value => .const value size
  | .var i => .var (bases.getD i 0)
  | .binOp kind i j => .binOp kind (bases.getD i 0) (bases.getD j 0)
  | .unaryOp kind i => .unaryOp kind (bases.getD i 0)

-- The coefficients that are not 0, and the form they stand for.
structure SimbaRow where
  coefficients : List (List Nat × Int)
  form : SimbaForm
  deriving DecidableEq

def SimbaRow.entry (row : SimbaRow) (set : List Nat) : Int := (row.coefficients.lookup set).getD 0

-- `neg1` and `neg2` for -1 and -2.
def weight (mask : UInt64) (p : Int) : UInt64 :=
  if p = -1 then mask else if p = -2 then mask - 1 else UInt64.ofNat p.toNat

-- Every coefficient is tested, or the number of those that are not 0.
def SimbaRow.applies (row : SimbaRow) (mask : UInt64) (count : Nat) (c : List Nat → UInt64) : Bool :=
  ((positionSets count).all fun set => c set == weight mask (row.entry set)) &&
    row.coefficients.all fun entry => c entry.1 != 0

def simba1Rows : List SimbaRow :=
  [⟨[],.const 0⟩,⟨[([0],1)],.var 0⟩,⟨[([],-1),([0],-1)],.unaryOp .not 0⟩,⟨[([0],-1)],.unaryOp .neg 0⟩]

def simba2Rows : List SimbaRow :=
  [⟨[],.const 0⟩,⟨[([0],1)],.var 0⟩,⟨[([1],1)],.var 1⟩,⟨[([0],1),([1],1)],.binOp .add 0 1⟩,
    ⟨[([0],1),([1],-1)],.binOp .sub 0 1⟩,⟨[([0],-1),([1],1)],.binOp .sub 1 0⟩,⟨[([0,1],1)],.binOp .and 0 1⟩,
    ⟨[([0],1),([1],1),([0,1],-1)],.binOp .or 0 1⟩,⟨[([0],1),([1],1),([0,1],-2)],.binOp .xor 0 1⟩,
    -- "approximation"
    ⟨[([0],1),([0,1],-1)],.binOp .sub 0 1⟩,⟨[([1],1),([0,1],-1)],.binOp .sub 1 0⟩,
    ⟨[([],-1),([0],-1)],.unaryOp .not 0⟩,⟨[([],-1),([1],-1)],.unaryOp .not 1⟩]

def varRows (count : Nat) : List SimbaRow := (List.range count).map fun i => ⟨[([i],1)],.var i⟩

def negRows (count : Nat) : List SimbaRow := (List.range count).map fun i => ⟨[([i],-1)],.unaryOp .neg i⟩

def andRow (pair : Nat × Nat) : SimbaRow := ⟨[([pair.1,pair.2],1)],.binOp .and pair.1 pair.2⟩

def addRow (pair : Nat × Nat) : SimbaRow := ⟨[([pair.1],1),([pair.2],1)],.binOp .add pair.1 pair.2⟩

def xorRow (pair : Nat × Nat) : SimbaRow :=
  ⟨[([pair.1],1),([pair.2],1),([pair.1,pair.2],-2)],.binOp .xor pair.1 pair.2⟩

def orRow (pair : Nat × Nat) : SimbaRow :=
  ⟨[([pair.1],1),([pair.2],1),([pair.1,pair.2],-1)],.binOp .or pair.1 pair.2⟩

def subRow (pair : Nat × Nat) : SimbaRow := ⟨[([pair.1],1),([pair.2],-1)],.binOp .sub pair.1 pair.2⟩

def simba3Rows : List SimbaRow :=
  let pairs := [(0,1),(0,2),(1,2)]
  varRows 3 ++ pairs.map andRow ++ negRows 3 ++ pairs.map addRow ++ pairs.map xorRow ++ pairs.map orRow ++
    [subRow (0,1),subRow (0,2)]

def simba4Rows : List SimbaRow :=
  let pairs := [(0,1),(0,2),(0,3),(1,2),(1,3),(2,3)]
  varRows 4 ++ pairs.map andRow ++ negRows 4 ++
    pairs.flatMap fun (i,j) => [xorRow (i,j),orRow (i,j),addRow (i,j),subRow (i,j),subRow (j,i)]

def simbaRow (rows : List SimbaRow) (mask : UInt64) (count : Nat) (c : List Nat → UInt64) : Option SimbaForm :=
  (rows.find? fun row => row.applies mask count c).map SimbaRow.form

def simbaSimplify1Var (mask : UInt64) (c : List Nat → UInt64) : Option SimbaForm :=
  (simbaRow simba1Rows mask 1 c).or (if c [] ≠ 0 ∧ c [0] = 0 then some (.const (c [])) else none)

def simbaSimplify2Var (mask : UInt64) (c : List Nat → UInt64) : Option SimbaForm := simbaRow simba2Rows mask 2 c

def simbaSimplify3Var (mask : UInt64) (c : List Nat → UInt64) : Option SimbaForm := simbaRow simba3Rows mask 3 c

def simbaSimplify4Var (mask : UInt64) (c : List Nat → UInt64) : Option SimbaForm := simbaRow simba4Rows mask 4 c

-- What the expression of `v` is recovered as.
def simbaForm (vars : List VarDef) (v : VarId) : Option SimbaForm := do
  let bases := baseVars vars v
  let mask := widthMask (varAt vars v).size
  if bases.isEmpty ∨ 4 < bases.length then none
  else
    let c ← simbaCoefficients vars v bases
    match bases.length with
    | 1 => simbaSimplify1Var mask c
    | 2 => simbaSimplify2Var mask c
    | 3 => simbaSimplify3Var mask c
    | 4 => simbaSimplify4Var mask c
    | _ => none

def simbaExpr (vars : List VarDef) (v : VarId) : Option Expr :=
  if exprDepth vars 11 (varAt vars v).expr < 2 then none
  else
    match constFoldExpr vars (varAt vars v).expr with
    | some (value,size) => some (.const value size)
    | none => (simbaForm vars v).map fun form => form.expr (baseVars vars v) (varAt vars v).size

def trySimbaAt (vars : List VarDef) (v : VarId) : List VarDef :=
  match simbaExpr vars v with
  | some expr => rewriteExpr vars v expr
  | none => vars

section Recovery

-- What a form stands for, in a ring of integers.
def SimbaForm.value {R : Type} [CommRing R] (y : Nat → Nat) : SimbaForm → R
  | .const value => (value.toNat : R)
  | .var i => y i
  | .binOp kind i j =>
    match kind with
    | .add => y i + y j
    | .sub => y i - y j
    | .and => (y i &&& y j : Nat)
    | .or => (y i ||| y j : Nat)
    | .xor => (y i ^^^ y j : Nat)
    | _ => 0
  | .unaryOp kind i =>
    match kind with
    | .neg => -(y i : R)
    | .not => -1 - y i
    | _ => 0

-- The forms that the tables have, over the first positions.
def SimbaForm.Within (count : Nat) : SimbaForm → Prop
  | .const _ => True
  | .var i => i < count
  | .binOp kind i j => kind ∈ [.add,.sub,.and,.or,.xor] ∧ i < count ∧ j < count
  | .unaryOp kind i => kind ∈ [.neg,.not] ∧ i < count

instance (count : Nat) (form : SimbaForm) : Decidable (form.Within count) := by
  cases form <;> unfold SimbaForm.Within <;> infer_instance

theorem SimbaForm.value_cast (form : SimbaForm) (y : Nat → Nat) (w : Nat) :
    ((form.value y : Int) : ZMod (2 ^ w)) = form.value y := by
  cases form with
  | const _ | var _ => simp [value]
  | binOp kind _ _ => cases kind <;> simp [value]
  | unaryOp kind _ => cases kind <;> simp [value]

theorem SimbaForm.linear (form : SimbaForm) (w : Nat) : Linear w fun y : Nat → Nat => (form.value y : ZMod (2 ^ w)) := by
  have zero : Linear w fun _ : Nat → Nat => (0 : ZMod (2 ^ w)) := linear_const 0
  cases form with
  | const c => exact linear_const _
  | var i => exact linear_var i
  | binOp kind i j =>
    cases kind with
    | add => exact (linear_var i).add (linear_var j)
    | sub => exact (linear_var i).sub (linear_var j)
    | and => exact linear_and i j
    | or => exact linear_or i j
    | xor => exact linear_xor i j
    | _ => exact zero
  | unaryOp kind i =>
    cases kind with
    | neg => exact (linear_var i).neg
    | not => exact (linear_const (-1)).sub (linear_var i)
    | _ => exact zero

def onesPoint (ones : List Nat) (i : Nat) : Nat := if i ∈ ones then 1 else 0

-- The coefficients of a row are those of a function of the bases.
def SimbaRow.Gives (row : SimbaRow) (count : Nat) (value : (Nat → Nat) → Int) : Prop :=
  ∀ set ∈ positionSets count,
    -2 ≤ row.entry set ∧ coefficient (fun ones => value (onesPoint ones)) set = row.entry set

def SimbaRow.Exact (row : SimbaRow) (count : Nat) : Prop :=
  row.form.Within count ∧ row.Gives count fun y => row.form.value y

instance (row : SimbaRow) (count : Nat) (value : (Nat → Nat) → Int) : Decidable (row.Gives count value) := by
  unfold SimbaRow.Gives
  infer_instance

instance (row : SimbaRow) (count : Nat) : Decidable (row.Exact count) := by
  unfold SimbaRow.Exact
  infer_instance

theorem simba1Rows_exact : ∀ row ∈ simba1Rows, row.Exact 1 := by decide

theorem simba3Rows_exact : ∀ row ∈ simba3Rows, row.Exact 3 := by decide +kernel

theorem simba4Rows_exact : ∀ row ∈ simba4Rows, row.Exact 4 := by decide +kernel

-- a & ~b = a - (a & b), for which the source has a - b.
def andNot (i j : Nat) (y : Nat → Nat) : Int := y i - (y i &&& y j : Nat)

def approximationRow (i j : Nat) : SimbaRow := ⟨[([i],1),([0,1],-1)],.binOp .sub i j⟩

theorem simba2Rows_exact :
    ∀ row ∈ simba2Rows, row.Exact 2 ∨ row = approximationRow 0 1 ∨ row = approximationRow 1 0 := by
  decide +kernel

theorem approximationRow_andNot :
    (approximationRow 0 1).Gives 2 (andNot 0 1) ∧ (approximationRow 1 0).Gives 2 (andNot 1 0) := by
  decide

-- 64-bit words, seen in the low `n` bytes.
def inRing (n : Nat) (value : UInt64) : ZMod (2 ^ (8 * n)) := value.toNat

theorem inRing_sub (bytes : n ≤ 8) (a b : UInt64) : inRing n (a - b) = inRing n a - inRing n b := by
  have wrapped : low n (a - b).toNat = low n (2 ^ 64 - b.toNat + a.toNat) := by
    rw [UInt64.toNat_sub]
    exact Nat.mod_mod_of_dvd _ (Nat.pow_dvd_pow 2 (by omega))
  unfold inRing
  rw [low_eq_iff.mp wrapped,Nat.cast_add,cast_negative bytes b.toNat_lt]
  ring

theorem inRing_mask {size : UInt32} (narrow : size.toNat ≤ 8) (a : UInt64) :
    inRing size.toNat (a &&& widthMask size) = inRing size.toNat a := by
  have cut : low size.toNat (a &&& widthMask size).toNat = low size.toNat a.toNat := by
    rw [toNat_and_widthMask,low_low,Nat.min_eq_left narrow,Nat.min_self]
  exact low_eq_iff.mp cut

theorem inRing_widthMask {size : UInt32} (narrow : size.toNat ≤ 8) : inRing size.toNat (widthMask size) = -1 := by
  unfold inRing
  rw [toNat_widthMask,Nat.min_eq_left narrow]
  exact cast_ones _

theorem inRing_weight {size : UInt32} (narrow : size.toNat ≤ 8) (bound : -2 ≤ p) :
    inRing size.toNat (weight (widthMask size) p) = p := by
  unfold weight
  by_cases minusOne : p = -1
  · rw [if_pos minusOne,inRing_widthMask narrow,minusOne]
    simp
  by_cases minusTwo : p = -2
  · rw [if_neg minusOne,if_pos minusTwo,inRing_sub narrow,inRing_widthMask narrow,minusTwo]
    have one : inRing size.toNat 1 = 1 := by simp [inRing]
    rw [one]
    push_cast
    ring
  · rw [if_neg minusOne,if_neg minusTwo]
    obtain ⟨k,rfl⟩ := Int.eq_ofNat_of_zero_le (show 0 ≤ p by omega)
    have wrapped : low size.toNat (UInt64.ofNat k).toNat = low size.toNat k := by
      rw [UInt64.toNat_ofNat']
      exact Nat.mod_mod_of_dvd _ (Nat.pow_dvd_pow 2 (by omega))
    simpa [inRing] using low_eq_iff.mp wrapped

end Recovery

section Evaluation

variable {vars : List VarDef}

-- Whether an expression can be evaluated depends on the variables that have a value, not on the values.
theorem evalMaskedExpr_isSome {env env' : VarId → Option UInt64} (same : ∀ id, (env id).isSome = (env' id).isSome)
    (mask : UInt64) (remaining : Nat) (expr : Expr) :
    (evalMaskedExpr vars env mask remaining expr).isSome = (evalMaskedExpr vars env' mask remaining expr).isSome := by
  have binary (kind : BinOpKind) (l r l' r' : UInt64) : (evalBinOp kind l r).isSome = (evalBinOp kind l' r').isSome := by
    cases kind <;> rfl
  have unary (kind : UnaryOpKind) (x x' : UInt64) : (evalUnaryOp kind x).isSome = (evalUnaryOp kind x').isSome := by
    cases kind <;> rfl
  induction remaining generalizing expr with
  | zero => rfl
  | succ remaining ih =>
    cases expr with
    | var id =>
      have here := same id
      have deeper := ih (varAt vars id).expr
      simp only [evalMaskedExpr]
      cases value : env id <;> cases value' : env' id <;> simp [value,value'] at here ⊢
      split
      · exact deeper
      · rfl
    | binOp kind left right =>
      have onLeft := ih (.var left)
      have onRight := ih (.var right)
      simp only [evalMaskedExpr]
      cases l : evalMaskedExpr vars env mask remaining (.var left) <;>
        cases l' : evalMaskedExpr vars env' mask remaining (.var left) <;> simp [l,l'] at onLeft ⊢
      cases r : evalMaskedExpr vars env mask remaining (.var right) <;>
        cases r' : evalMaskedExpr vars env' mask remaining (.var right) <;> simp [r,r'] at onRight ⊢
      rename_i lv lv' rv rv'
      have operation := binary kind lv rv lv' rv'
      cases x : evalBinOp kind lv rv <;> cases x' : evalBinOp kind lv' rv' <;> simp [x,x'] at operation ⊢
    | unaryOp kind inner =>
      have below := ih (.var inner)
      simp only [evalMaskedExpr]
      cases i : evalMaskedExpr vars env mask remaining (.var inner) <;>
        cases i' : evalMaskedExpr vars env' mask remaining (.var inner) <;> simp [i,i'] at below ⊢
      rename_i iv iv'
      have operation := unary kind iv iv'
      cases x : evalUnaryOp kind iv <;> cases x' : evalUnaryOp kind iv' <;> simp [x,x'] at operation ⊢
    | const _ _ | load _ | fieldAccess _ _ | phi _ | ternary _ _ _ | userOp _ _ | unknown => rfl

theorem evalMaskedExpr_congr {env env' : VarId → Option UInt64} {mask : UInt64}
    (same : ∀ id, (env id).map (· &&& mask) = (env' id).map (· &&& mask)) (remaining : Nat) (expr : Expr) :
    evalMaskedExpr vars env mask remaining expr = evalMaskedExpr vars env' mask remaining expr := by
  induction remaining generalizing expr with
  | zero => rfl
  | succ remaining ih =>
    cases expr with
    | var id =>
      have here := same id
      simp only [evalMaskedExpr]
      cases value : env id <;> cases value' : env' id <;> simp [value,value',ih] at here ⊢
      exact here
    | binOp kind left right => simp only [evalMaskedExpr,ih]
    | unaryOp kind inner => simp only [evalMaskedExpr,ih]
    | const _ _ | load _ | fieldAccess _ _ | phi _ | ternary _ _ _ | userOp _ _ | unknown => rfl

theorem and_widthMask {size : UInt32} (same : low (min size.toNat 8) a.toNat = low (min size.toNat 8) b.toNat) :
    a &&& widthMask size = b &&& widthMask size := by
  apply UInt64.toNat_inj.mp
  rw [toNat_and_widthMask,toNat_and_widthMask,same]

-- The expression of `v` as it is evaluated, at natural numbers for its bases.
def simbaValue (vars : List VarDef) (v : VarId) (y : Nat → Nat) : ZMod (2 ^ (8 * (varAt vars v).size.toNat)) :=
  inRing _ ((simbaEval vars v (baseVars vars v) fun i => UInt64.ofNat (y i)).getD 0)

theorem simbaEval_congr {v : VarId} {bases : List VarId} {y y' : Nat → UInt64}
    (same : ∀ i < bases.length, y i &&& widthMask (varAt vars v).size = y' i &&& widthMask (varAt vars v).size) :
    simbaEval vars v bases y = simbaEval vars v bases y' := by
  refine evalMaskedExpr_congr (fun id => ?_) 21 _
  unfold baseEnv
  by_cases base : id ∈ bases
  · simp [base,same _ (List.idxOf_lt_length_of_mem base)]
  · simp [base]

theorem simbaEval_isSome {v : VarId} {bases : List VarId} (y y' : Nat → UInt64) :
    (simbaEval vars v bases y).isSome = (simbaEval vars v bases y').isSome := by
  refine evalMaskedExpr_isSome (fun id => ?_) _ _ _
  unfold baseEnv
  split <;> rfl

theorem simbaValue_congr {v : VarId} {y y' : Nat → Nat} (narrow : (varAt vars v).size.toNat ≤ 8)
    (same : ∀ i < (baseVars vars v).length,
      (y i : ZMod (2 ^ (8 * (varAt vars v).size.toNat))) = y' i) : simbaValue vars v y = simbaValue vars v y' := by
  unfold simbaValue
  rw [simbaEval_congr]
  intro i inside
  apply and_widthMask
  rw [UInt64.toNat_ofNat',UInt64.toNat_ofNat',Nat.min_eq_left narrow]
  have divides : 2 ^ (8 * (varAt vars v).size.toNat) ∣ 2 ^ 64 := Nat.pow_dvd_pow 2 (by omega)
  unfold low
  rw [Nat.mod_mod_of_dvd _ divides,Nat.mod_mod_of_dvd _ divides]
  exact low_eq_iff.mpr (same i inside)

theorem SimbaForm.value_congr {form : SimbaForm} {y y' : Nat → Nat} (within : form.Within count)
    (same : ∀ i < count, (y i : ZMod (2 ^ (8 * n))) = y' i) : (form.value y : ZMod (2 ^ (8 * n))) = form.value y' := by
  cases form with
  | const _ => rfl
  | var i => exact same i within
  | binOp kind i j =>
    obtain ⟨kinds,inI,inJ⟩ := within
    have left := low_eq_iff.mpr (same i inI)
    have right := low_eq_iff.mpr (same j inJ)
    simp only [List.mem_cons,List.not_mem_nil,or_false] at kinds
    rcases kinds with rfl | rfl | rfl | rfl | rfl
    · simp only [value,same i inI,same j inJ]
    · simp only [value,same i inI,same j inJ]
    · exact low_eq_iff.mp (low_and left right)
    · exact low_eq_iff.mp (low_or left right)
    · exact low_eq_iff.mp (low_xor left right)
  | unaryOp kind i =>
    obtain ⟨kinds,inI⟩ := within
    cases kind <;> simp [value,same i inI]

theorem SimbaForm.value_onPositions {R : Type} [CommRing R] {form : SimbaForm} {y y' : Nat → Nat}
    (within : form.Within count) (same : ∀ i < count, y i = y' i) : (form.value y : R) = form.value y' := by
  cases form with
  | const _ => rfl
  | var i => simp [value,same i within]
  | binOp kind i j => simp only [value,same i within.2.1,same j within.2.2]
  | unaryOp kind i => simp only [value,same i within.2]

theorem mem_positionSets {set : List Nat} : set ∈ positionSets count ↔ set.Sublist (List.range count) :=
  List.mem_sublists'

theorem toNat_onesAt (ones : List Nat) (i : Nat) : UInt64.ofNat (onesPoint ones i) = onesAt ones i := by
  unfold onesPoint onesAt
  split <;> rfl

theorem bits_onesPoint (bits : Nat → Bool) (inside : i < count) :
    (bits i).toNat = onesPoint ((List.range count).filter bits) i := by
  unfold onesPoint
  cases holds : bits i <;> simp [holds,inside]

theorem simbaValue_bits {v : VarId} (narrow : (varAt vars v).size.toNat ≤ 8) (bits : Nat → Bool) :
    simbaValue vars v (fun i => (bits i).toNat) =
      simbaValue vars v (onesPoint ((List.range (baseVars vars v).length).filter bits)) :=
  simbaValue_congr narrow fun i inside => by rw [bits_onesPoint bits inside]

theorem simbaPoints_value {v : VarId} (points : simbaPoints vars v (baseVars vars v) = some f) (ones : List Nat) :
    inRing _ (f ones) = simbaValue vars v (onesPoint ones) := by
  unfold simbaPoints at points
  simp only [Option.ite_none_right_eq_some,Option.some.injEq] at points
  rw [← points.2]
  simp only [simbaValue,toNat_onesAt]

theorem simbaCoefficients_value {v : VarId} (narrow : (varAt vars v).size.toNat ≤ 8)
    (found : simbaCoefficients vars v (baseVars vars v) = some c) (set : List Nat) :
    inRing _ (c set) = coefficient (fun ones => simbaValue vars v (onesPoint ones)) set := by
  unfold simbaCoefficients at found
  simp only [Option.bind_eq_bind,Option.bind_eq_some_iff,Option.ite_none_right_eq_some,Option.some.injEq] at found
  obtain ⟨f,points,_,rfl⟩ := found
  simp only [inRing_mask narrow,coefficient_map _ (inRing_sub narrow),simbaPoints_value points]

theorem simbaCoefficients_evaluates {v : VarId} {bases : List VarId} (found : simbaCoefficients vars v bases = some c)
    (y : Nat → UInt64) : (simbaEval vars v bases y).isSome = true := by
  unfold simbaCoefficients simbaPoints at found
  simp only [Option.bind_eq_bind,Option.bind_eq_some_iff,Option.ite_none_right_eq_some,List.all_eq_true] at found
  obtain ⟨_,⟨points,_⟩,_⟩ := found
  rw [simbaEval_isSome y (onesAt [])]
  exact points [] (mem_positionSets.mpr (List.nil_sublist _))

section Rows

variable {v : VarId} (narrow : (varAt vars v).size.toNat ≤ 8)
  (found : simbaCoefficients vars v (baseVars vars v) = some c)

include narrow found

theorem row_coefficients {row : SimbaRow} {set : List Nat}
    (applies : row.applies (widthMask (varAt vars v).size) (baseVars vars v).length c = true)
    (inside : set ∈ positionSets (baseVars vars v).length) (bound : -2 ≤ row.entry set) :
    coefficient (fun ones => simbaValue vars v (onesPoint ones)) set = (row.entry set : Int) := by
  unfold SimbaRow.applies at applies
  simp only [Bool.and_eq_true,List.all_eq_true,beq_iff_eq] at applies
  rw [← simbaCoefficients_value narrow found,applies.1 set inside,inRing_weight narrow bound]

theorem row_bits {row : SimbaRow} {value : (Nat → Nat) → Int}
    (gives : row.Gives (baseVars vars v).length value)
    (onPositions : ∀ y y', (∀ i < (baseVars vars v).length, y i = y' i) → value y = value y')
    (applies : row.applies (widthMask (varAt vars v).size) (baseVars vars v).length c = true) (bits : Nat → Bool) :
    simbaValue vars v (fun i => (bits i).toNat) = (value fun i => (bits i).toNat : Int) := by
  have chosen : ((List.range (baseVars vars v).length).filter bits).Sublist (List.range (baseVars vars v).length) :=
    List.filter_sublist
  rw [simbaValue_bits narrow,onPositions _ _ fun i inside => bits_onesPoint bits inside]
  refine eq_of_coefficients (f := fun ones => simbaValue vars v (onesPoint ones))
    (g := fun ones => ((value (onesPoint ones) : Int) : ZMod _)) fun part inside => ?_
  have small := mem_positionSets.mpr ((List.mem_sublists'.mp inside).trans chosen)
  obtain ⟨bound,same⟩ := gives part small
  rw [row_coefficients narrow found applies small bound,← same,coefficient_map _ Int.cast_sub]

theorem exact_row {row : SimbaRow} (exact_ : row.Exact (baseVars vars v).length)
    (applies : row.applies (widthMask (varAt vars v).size) (baseVars vars v).length c = true) (bits : Nat → Bool) :
    simbaValue vars v (fun i => (bits i).toNat) = row.form.value fun i => (bits i).toNat := by
  rw [row_bits narrow found exact_.2 (fun y y' same => SimbaForm.value_onPositions exact_.1 same) applies bits,
    SimbaForm.value_cast]

end Rows

theorem simbaRow_some {rows : List SimbaRow} (chosen : simbaRow rows mask count c = some form) :
    ∃ row ∈ rows, row.applies mask count c = true ∧ row.form = form := by
  unfold simbaRow at chosen
  obtain ⟨row,first,rfl⟩ := Option.map_eq_some_iff.mp chosen
  exact ⟨row,List.mem_of_find?_eq_some first,by simpa using List.find?_some first,rfl⟩

-- A form that is the same as the expression at all bits, or the difference of two bases for a & ~b.
def Recovers (vars : List VarDef) (v : VarId) (form : SimbaForm) : Prop :=
  ∀ bits : Nat → Bool, simbaValue vars v (fun i => (bits i).toNat) = form.value fun i => (bits i).toNat

def Approximates (vars : List VarDef) (v : VarId) (form : SimbaForm) (i j : Nat) : Prop :=
  form = .binOp .sub i j ∧
    ∀ bits : Nat → Bool, simbaValue vars v (fun i => (bits i).toNat) = (andNot i j fun i => (bits i).toNat : Int)

theorem simbaForm_some {v : VarId} (recovered : simbaForm vars v = some form) :
    ∃ c, simbaCoefficients vars v (baseVars vars v) = some c := by
  unfold simbaForm at recovered
  simp only [Option.ite_none_left_eq_some,Option.bind_eq_bind,Option.bind_eq_some_iff] at recovered
  obtain ⟨_,c,found,_⟩ := recovered
  exact ⟨c,found⟩

section Recovered

variable {v : VarId} (narrow : (varAt vars v).size.toNat ≤ 8)
  (found : simbaCoefficients vars v (baseVars vars v) = some c)

include narrow found

theorem rows_recover {rows : List SimbaRow}
    (exact_ : ∀ row ∈ rows, row.Exact (baseVars vars v).length)
    (chosen : simbaRow rows (widthMask (varAt vars v).size) (baseVars vars v).length c = some form) :
    form.Within (baseVars vars v).length ∧ Recovers vars v form := by
  obtain ⟨row,member,applies,rfl⟩ := simbaRow_some chosen
  exact ⟨(exact_ row member).1,exact_row narrow found (exact_ row member) applies⟩

theorem constant_recovers (one : (baseVars vars v).length = 1) (flat : c [0] = 0) :
    Recovers vars v (.const (c [])) := by
  have atEmpty := simbaCoefficients_value narrow found []
  have atBase := simbaCoefficients_value narrow found [0]
  have zero : inRing (varAt vars v).size.toNat 0 = 0 := by simp [inRing]
  simp only [coefficient,flat,zero] at atEmpty atBase
  intro bits
  have points : ∀ ones ∈ [[],[0]], simbaValue vars v (onesPoint ones) = inRing _ (c []) := by
    intro ones inside
    simp only [List.mem_cons,List.not_mem_nil,or_false] at inside
    rcases inside with rfl | rfl
    · exact atEmpty.symm
    · rw [atEmpty]
      exact sub_eq_zero.mp atBase.symm
  rw [simbaValue_bits narrow,one]
  refine points _ ?_
  cases holds : bits 0 <;> simp [List.range_succ,holds]

theorem approximation_recovers {i j : Nat} (two : (baseVars vars v).length = 2) (inI : i < 2) (inJ : j < 2)
    (gives : (approximationRow i j).Gives 2 (andNot i j))
    (applies : (approximationRow i j).applies (widthMask (varAt vars v).size) 2 c = true) :
    Approximates vars v (approximationRow i j).form i j := by
  refine ⟨rfl,fun bits => ?_⟩
  rw [← two] at inI inJ gives applies
  refine row_bits narrow found gives (fun y y' same => ?_) applies bits
  simp only [andNot,same i inI,same j inJ]

end Recovered

theorem simbaForm_recovers {v : VarId} (narrow : (varAt vars v).size.toNat ≤ 8)
    (recovered : simbaForm vars v = some form) :
    form.Within (baseVars vars v).length ∧
      (Recovers vars v form ∨
        (baseVars vars v).length = 2 ∧ (Approximates vars v form 0 1 ∨ Approximates vars v form 1 0)) := by
  unfold simbaForm at recovered
  simp only [Option.ite_none_left_eq_some,Option.bind_eq_bind,Option.bind_eq_some_iff] at recovered
  obtain ⟨_,c,found,recovered⟩ := recovered
  have rows {table : List SimbaRow} {count : Nat} (size : (baseVars vars v).length = count)
      (exact_ : ∀ row ∈ table, row.Exact count)
      (chosen : simbaRow table (widthMask (varAt vars v).size) count c = some form) :
      form.Within (baseVars vars v).length ∧ (Recovers vars v form ∨
        (baseVars vars v).length = 2 ∧ (Approximates vars v form 0 1 ∨ Approximates vars v form 1 0)) := by
    subst size
    exact (rows_recover narrow found exact_ chosen).imp_right Or.inl
  split at recovered
  · rename_i one
    unfold simbaSimplify1Var at recovered
    rcases Option.or_eq_some_iff.mp recovered with chosen | ⟨_,constant⟩
    · exact rows one simba1Rows_exact chosen
    · simp only [Option.ite_none_right_eq_some,Option.some.injEq] at constant
      obtain ⟨⟨_,flat⟩,rfl⟩ := constant
      exact ⟨trivial,.inl (constant_recovers narrow found one flat)⟩
  · rename_i two
    obtain ⟨row,member,applies,rfl⟩ := simbaRow_some recovered
    rcases simba2Rows_exact row member with exact_ | rfl | rfl
    · rw [← two] at exact_ applies
      exact ⟨exact_.1,.inl (exact_row narrow found exact_ applies)⟩
    · refine ⟨two ▸ by decide,.inr ⟨two,.inl ?_⟩⟩
      exact approximation_recovers narrow found two (by decide) (by decide) approximationRow_andNot.1 applies
    · refine ⟨two ▸ by decide,.inr ⟨two,.inr ?_⟩⟩
      exact approximation_recovers narrow found two (by decide) (by decide) approximationRow_andNot.2 applies
  · rename_i three
    exact rows three simba3Rows_exact recovered
  · rename_i four
    exact rows four simba4Rows_exact recovered
  · cases recovered

end Evaluation

end Rsleigh.Decompile
