import Rsleigh.Decompile.EggLanguage
import Rsleigh.Decompile.LowBytes

namespace Rsleigh.Decompile.Eqsat

open Pcode

-- The operators that the language has. It has one shift to the right.
def eggOp : BinOpKind → Option MbaOp
  | .add => some .add
  | .sub => some .sub
  | .mult => some .mul
  | .and => some .and
  | .or => some .or
  | .xor => some .xor
  | .lsl => some .shl
  | .lsr | .asr => some .shr
  | _ => none

def eggUnaryOp : UnaryOpKind → Option MbaUnaryOp
  | .neg => some .neg
  | .not => some .not
  | _ => none

def MbaOp.kind : MbaOp → BinOpKind
  | .add => .add
  | .sub => .sub
  | .mul => .mult
  | .and => .and
  | .or => .or
  | .xor => .xor
  | .shl => .lsl
  | .shr => .lsr

def MbaUnaryOp.kind : MbaUnaryOp → UnaryOpKind
  | .neg => .neg
  | .not => .not

-- `convert` of ssa_to_egg, with the levels that are left of `max_depth`.
def convert (vars : List VarDef) : Nat → VarId → List VarId → Option (MbaTerm × List VarId)
  | 0, _, _ => none
  | depth + 1, v, varMap =>
    if v ≥ vars.length then none
    else
      match (varAt vars v).expr with
      | .const val _ => some (.num val.toInt64, varMap)
      | .unknown | .load _ | .phi _ | .fieldAccess _ _ | .ternary _ _ _ | .userOp _ _ =>
        some (.var (.num (Int64.ofNat varMap.length)), varMap ++ [v])
      | .var arg => convert vars depth arg varMap
      | .binOp kind left right => do
        let (l, varMap) ← convert vars depth left varMap
        let (r, varMap) ← convert vars depth right varMap
        let op ← eggOp kind
        some (.binary op l r, varMap)
      | .unaryOp kind arg => do
        let (i, varMap) ← convert vars depth arg varMap
        let op ← eggUnaryOp kind
        some (.unary op i, varMap)

def ssaToEgg (vars : List VarDef) (v maxDepth : Nat) : Option (MbaTerm × List VarId) :=
  convert vars (maxDepth + 1) v []

-- The variable that is made for an expression with the number `id`.
def madeVar (id : VarId) (expr : Expr) (sz : UInt32) : VarDef where
  varnode := ⟨.unique, UInt64.ofNat (0xE0000000 + id), sz⟩
  expr := expr
  memory := none
  size := sz
  callReturn := false

-- The operand that an expression is to be: a variable itself, or a new one of the root's size.
def place (expr : Expr) (vars : List VarDef) (sz : UInt32) : VarId × List VarDef :=
  match expr with
  | .var arg => (arg, vars)
  | expr => (vars.length, vars ++ [madeVar vars.length expr sz])

def makeBinop (kind : BinOpKind) (left right : Expr) (vars : List VarDef) (sz : UInt32) : Expr × List VarDef :=
  let leftPlaced := place left vars sz
  let rightPlaced := place right leftPlaced.2 sz
  (.binOp kind leftPlaced.1 rightPlaced.1, rightPlaced.2)

def makeUnaryop (kind : UnaryOpKind) (arg : Expr) (vars : List VarDef) (sz : UInt32) : Expr × List VarDef :=
  let placed := place arg vars sz
  (.unaryOp kind placed.1, placed.2)

-- The variables made before it fails remain.
def eggToSsa (varMap : List VarId) (sz : UInt32) : MbaTerm → List VarDef → Option Expr × List VarDef
  | .hole name, _ => name.elim
  | .num val, vars => (some (.const val.toUInt64 sz), vars)
  | .var (.num idx), vars => ((varMap[idx.toUInt64.toNat]?).map .var, vars)
  | .var _, vars => (none, vars)
  | .binary op left right, vars =>
    match eggToSsa varMap sz left vars with
    | (none, vars) => (none, vars)
    | (some l, vars) =>
      match eggToSsa varMap sz right vars with
      | (none, vars) => (none, vars)
      | (some r, vars) =>
        let made := makeBinop op.kind l r vars sz
        (some made.1, made.2)
  | .unary op arg, vars =>
    match eggToSsa varMap sz arg vars with
    | (none, vars) => (none, vars)
    | (some i, vars) =>
      let made := makeUnaryop op.kind i vars sz
      (some made.1, made.2)

-- What is used of egg: the cost that it finds for a term as it stands, unless it panics, and the best term that it
-- extracts after saturation, with the nodes of it that are apart.
structure Egg where
  originalCost : MbaTerm → Option Nat
  best : MbaTerm → Option (MbaTerm × Nat)

-- The term extracted is in the class of the term given.
def Egg.Lawful (egg : Egg) : Prop :=
  ∀ term best length, egg.best term = some (best,length) → Congruent term best

def simplifyExpr (egg : Egg) (v : VarId) (vars : List VarDef) : Option Expr × List VarDef :=
  let sz := (varAt vars v).size
  match ssaToEgg vars v 15 with
  | none => (none, vars)
  | some (term, varMap) =>
    if term.size < 5 ∨ term.size > 500 then (none, vars)
    else
      match egg.originalCost term, egg.best term with
      | some originalCost, some (best, length) =>
        if best.cost ≥ originalCost then (none, vars)
        else if length ≥ term.size then (none, vars)
        else eggToSsa varMap sz best vars
      | _, _ => (none, vars)

section Conditions

variable (vars : List VarDef)

-- The base variables of `v`, each as often as it is met.
def baseVariables : Nat → VarId → Option (List VarId)
  | 0, _ => none
  | depth + 1, v =>
    if v ≥ vars.length then none
    else
      match (varAt vars v).expr with
      | .const _ _ => some []
      | .unknown | .load _ | .phi _ | .fieldAccess _ _ | .ternary _ _ _ | .userOp _ _ => some [v]
      | .var arg => baseVariables depth arg
      | .binOp kind left right => do
        let l ← baseVariables depth left
        let r ← baseVariables depth right
        let _ ← eggOp kind
        some (l ++ r)
      | .unaryOp kind arg => do
        let i ← baseVariables depth arg
        let _ ← eggUnaryOp kind
        some i

def logical : BinOpKind → BinOpKind
  | .asr => .lsr
  | kind => kind

variable (env : Env) (val : VarId → Nat) (sz : UInt32)

-- The size and the value that `v` has where constants and results have the size `sz`, copies cut nothing, and every
-- shift to the right is logical.
def flatValue : Nat → VarId → UInt32 × Nat
  | 0, _ => (sz, 0)
  | depth + 1, v =>
    match (varAt vars v).expr with
    | .const val _ => (sz, low sz.toNat val.toNat)
    | .var arg => flatValue depth arg
    | .binOp kind left right =>
      let l := flatValue depth left
      let r := flatValue depth right
      (sz, low sz.toNat (evalBinary env (logical kind).pcode l.1 sz l.2 r.2))
    | .unaryOp kind arg =>
      let i := flatValue depth arg
      (sz, low sz.toNat (evalUnary env kind.pcode i.1 sz i.2))
    | _ => ((varAt vars v).size, val v)

-- The operand that an expression built of a term becomes, given those of its base variables by their index.
def builtOperand (leaf : Nat → Option (UInt32 × Nat)) : MbaTerm → Option (UInt32 × Nat)
  | .hole name => name.elim
  | .num val => some (sz, low sz.toNat val.toUInt64.toNat)
  | .var (.num idx) => leaf idx.toUInt64.toNat
  | .var _ => none
  | .binary op left right => do
    let l ← builtOperand leaf left
    let r ← builtOperand leaf right
    some (sz, low sz.toNat (evalBinary env op.kind.pcode l.1 sz l.2 r.2))
  | .unary op arg => do
    let i ← builtOperand leaf arg
    some (sz, low sz.toNat (evalUnary env op.kind.pcode i.1 sz i.2))

def leafOf (varMap : List VarId) (index : Nat) : Option (UInt32 × Nat) :=
  (varMap[index]?).map fun id => ((varAt vars id).size, val id)

end Conditions

section Conversion

variable {vars : List VarDef}

theorem eggOp_kind (handled : eggOp kind = some op) : op.kind = logical kind := by
  cases kind <;> simp [eggOp] at handled <;> subst handled <;> rfl

theorem eggUnaryOp_kind (handled : eggUnaryOp kind = some op) : op.kind = kind := by
  cases kind <;> simp [eggUnaryOp] at handled <;> subst handled <;> rfl

-- The base variables are met in the order of the map, and each meeting makes an entry of its own.
theorem convert_map (depth : Nat) (v : VarId) (varMap : List VarId) :
    (convert vars depth v varMap).map Prod.snd = (baseVariables vars depth v).map (varMap ++ ·) := by
  induction depth generalizing v varMap with
  | zero => rfl
  | succ depth ih =>
    have each (u : VarId) (varMap : List VarId) :
        (∃ term ids, convert vars depth u varMap = some (term,varMap ++ ids) ∧ baseVariables vars depth u = some ids) ∨
          (convert vars depth u varMap = none ∧ baseVariables vars depth u = none) := by
      have maps := ih u varMap
      cases found : baseVariables vars depth u with
      | none => exact .inr ⟨by simpa [found] using maps,rfl⟩
      | some ids =>
        rw [found] at maps
        obtain ⟨⟨term,varMap'⟩,converted,same⟩ := Option.map_eq_some_iff.mp maps
        exact .inl ⟨term,ids,by rw [converted]; simpa using same,rfl⟩
    unfold convert baseVariables
    by_cases outside : v ≥ vars.length
    · rw [if_pos outside,if_pos outside]
      rfl
    · rw [if_neg outside,if_neg outside]
      cases (varAt vars v).expr with
      | var arg => exact ih arg varMap
      | binOp kind left right =>
        rcases each left varMap with ⟨l,leftIds,convertedLeft,foundLeft⟩ | ⟨convertedLeft,foundLeft⟩
        · rcases each right (varMap ++ leftIds) with ⟨r,rightIds,convertedRight,foundRight⟩ | ⟨convertedRight,foundRight⟩
          · cases eggOp kind <;> simp [convertedLeft,foundLeft,convertedRight,foundRight]
          · simp [convertedLeft,foundLeft,convertedRight,foundRight]
        · simp [convertedLeft,foundLeft]
      | unaryOp kind arg =>
        rcases each arg varMap with ⟨i,ids,converted,found⟩ | ⟨converted,found⟩
        · cases eggUnaryOp kind <;> simp [converted,found]
        · simp [converted,found]
      | _ => simp

theorem convert_some (converted : convert vars depth v varMap = some (term,varMap')) :
    ∃ ids, baseVariables vars depth v = some ids ∧ varMap' = varMap ++ ids := by
  have maps := @convert_map vars depth v varMap
  rw [converted] at maps
  obtain ⟨ids,found,same⟩ := Option.map_eq_some_iff.mp maps.symm
  exact ⟨ids,found,same.symm⟩

def IsBase : Expr → Prop
  | .const _ _ | .var _ | .binOp _ _ _ | .unaryOp _ _ => False
  | _ => True

-- What the leaves of the tree are, by its root.
theorem baseVariables_cases (found : baseVariables vars (depth + 1) v = some ids) : v < vars.length ∧
    ((∃ value size, (varAt vars v).expr = .const value size ∧ ids = []) ∨
      (∃ arg, (varAt vars v).expr = .var arg ∧ baseVariables vars depth arg = some ids) ∨
      (∃ kind left right l r, (varAt vars v).expr = .binOp kind left right ∧ baseVariables vars depth left = some l ∧
        baseVariables vars depth right = some r ∧ ids = l ++ r) ∨
      (∃ kind arg, (varAt vars v).expr = .unaryOp kind arg ∧ baseVariables vars depth arg = some ids) ∨
      (IsBase (varAt vars v).expr ∧ ids = [v])) := by
  unfold baseVariables at found
  by_cases outside : v ≥ vars.length
  · rw [if_pos outside] at found
    cases found
  · rw [if_neg outside] at found
    refine ⟨Nat.lt_of_not_le outside,?_⟩
    cases shape : (varAt vars v).expr with
    | const value size =>
      simp only [shape,Option.some.injEq] at found
      exact .inl ⟨value,size,rfl,found.symm⟩
    | var arg =>
      simp only [shape] at found
      exact .inr (.inl ⟨arg,rfl,found⟩)
    | binOp kind left right =>
      simp only [shape,Option.bind_eq_bind,Option.bind_eq_some_iff,Option.some.injEq] at found
      obtain ⟨l,foundLeft,r,foundRight,_,_,both⟩ := found
      exact .inr (.inr (.inl ⟨kind,left,right,l,r,rfl,foundLeft,foundRight,both.symm⟩))
    | unaryOp kind arg =>
      simp only [shape,Option.bind_eq_bind,Option.bind_eq_some_iff,Option.some.injEq] at found
      obtain ⟨i,foundInner,_,_,same⟩ := found
      exact .inr (.inr (.inr (.inl ⟨kind,arg,rfl,by rw [← same]; exact foundInner⟩)))
    | _ =>
      simp only [shape,Option.some.injEq] at found
      exact .inr (.inr (.inr (.inr ⟨trivial,found.symm⟩)))

theorem baseVariables_length (found : baseVariables vars depth v = some ids) : ids.length ≤ 2 ^ depth := by
  induction depth generalizing v ids with
  | zero => cases found
  | succ depth ih =>
    have double : 2 ^ (depth + 1) = 2 ^ depth + 2 ^ depth := by ring
    have positive : 1 ≤ 2 ^ depth := Nat.one_le_two_pow
    rcases (baseVariables_cases found).2 with ⟨_,_,_,rfl⟩ | ⟨arg,_,foundInner⟩ |
      ⟨_,left,right,l,r,_,foundLeft,foundRight,rfl⟩ | ⟨_,arg,_,foundInner⟩ | ⟨_,rfl⟩
    · exact Nat.zero_le _
    · exact (ih foundInner).trans (by omega)
    · have leftLength := ih foundLeft
      have rightLength := ih foundRight
      rw [List.length_append]
      omega
    · exact (ih foundInner).trans (by omega)
    · rw [List.length_singleton]
      omega

theorem baseVariables_below (found : baseVariables vars depth v = some ids) :
    ∀ id ∈ ids, id < vars.length ∧ Below vars v id := by
  induction depth generalizing v ids with
  | zero => cases found
  | succ depth ih =>
    have operand {u : VarId} {ids : List VarId} (used : UsedBy vars v u)
        (foundOperand : baseVariables vars depth u = some ids) : ∀ id ∈ ids, id < vars.length ∧ Below vars v id :=
      fun id member => ⟨(ih foundOperand id member).1,.head used (ih foundOperand id member).2⟩
    obtain ⟨inRange,shapes⟩ := baseVariables_cases found
    rcases shapes with ⟨_,_,_,rfl⟩ | ⟨arg,shape,foundInner⟩ |
      ⟨_,left,right,l,r,shape,foundLeft,foundRight,rfl⟩ | ⟨_,arg,shape,foundInner⟩ | ⟨_,rfl⟩
    · intro id member
      cases member
    · exact operand (by simp [UsedBy,shape,Expr.operands]) foundInner
    · intro id member
      rcases List.mem_append.mp member with inLeft | inRight
      · exact operand (by simp [UsedBy,shape,Expr.operands]) foundLeft id inLeft
      · exact operand (by simp [UsedBy,shape,Expr.operands]) foundRight id inRight
    · exact operand (by simp [UsedBy,shape,Expr.operands]) foundInner
    · intro id member
      rw [List.mem_singleton.mp member]
      exact ⟨inRange,.refl⟩

variable {env : Env} {val : VarId → Nat} {sz : UInt32}

theorem toNat_index (small : n < 2 ^ 63) : (Int64.ofNat n).toUInt64.toNat = n := by
  change n % 2 ^ 64 = n
  omega

theorem leafOf_here {varMap total : List VarId} (grown : varMap ++ [v] <+: total) :
    leafOf vars val total varMap.length = some ((varAt vars v).size,val v) := by
  obtain ⟨rest,rfl⟩ := grown
  simp [leafOf]

-- What a converted term is built to has the value of the tree of the definitions.
theorem convert_built (converted : convert vars depth v varMap = some (term,varMap')) {total : List VarId}
    (grown : varMap' <+: total) (short : total.length < 2 ^ 63) :
    builtOperand env sz (leafOf vars val total) term = some (flatValue vars env val sz depth v) := by
  induction depth generalizing v varMap term varMap' with
  | zero => cases converted
  | succ depth ih =>
    unfold convert at converted
    by_cases outside : v ≥ vars.length
    · rw [if_pos outside] at converted
      cases converted
    · rw [if_neg outside] at converted
      unfold flatValue
      cases shape : (varAt vars v).expr with
      | const value size =>
        simp only [shape,Option.some.injEq,Prod.mk.injEq] at converted
        obtain ⟨rfl,rfl⟩ := converted
        rfl
      | var arg =>
        simp only [shape] at converted
        exact ih converted grown
      | binOp kind left right =>
        simp only [shape,Option.bind_eq_bind,Option.bind_eq_some_iff,Option.some.injEq] at converted
        obtain ⟨⟨l,afterLeft⟩,convertedLeft,⟨r,afterRight⟩,convertedRight,op,handled,same⟩ := converted
        obtain ⟨rfl,rfl⟩ := Prod.mk.inj same
        obtain ⟨_,_,appended⟩ := convert_some convertedRight
        have leftGrown : afterLeft <+: total := by
          rw [appended] at grown
          exact (List.prefix_append _ _).trans grown
        simp only [builtOperand,ih convertedLeft leftGrown,ih convertedRight grown,Option.bind_eq_bind,
          Option.bind_some,eggOp_kind handled]
      | unaryOp kind arg =>
        simp only [shape,Option.bind_eq_bind,Option.bind_eq_some_iff,Option.some.injEq] at converted
        obtain ⟨⟨i,after⟩,convertedInner,op,handled,same⟩ := converted
        obtain ⟨rfl,rfl⟩ := Prod.mk.inj same
        simp only [builtOperand,ih convertedInner grown,Option.bind_eq_bind,Option.bind_some,eggUnaryOp_kind handled]
      | _ =>
        simp only [shape,Option.some.injEq,Prod.mk.injEq] at converted
        obtain ⟨rfl,rfl⟩ := converted
        have room := grown.length_le
        rw [List.length_append] at room
        rw [builtOperand,toNat_index (by omega)]
        exact leafOf_here grown

end Conversion

-- Tables grown by variables defined over those before them.
inductive Grown (vars : List VarDef) : List VarDef → Prop where
  | refl : Grown vars vars
  | push : Grown vars vars' → (∀ used ∈ made.expr.operands, used < vars'.length) → Grown vars (vars' ++ [made])

theorem Grown.trans (first : Grown vars middle) (second : Grown middle after) : Grown vars after := by
  induction second with
  | refl => exact first
  | push _ operands ih => exact .push ih operands

theorem Grown.length_le (grown : Grown vars vars') : vars.length ≤ vars'.length := by
  induction grown with
  | refl => exact Nat.le_refl _
  | push _ _ ih => simp; omega

theorem varAt_append {vars : List VarDef} (inRange : u < vars.length) (more : List VarDef) :
    varAt (vars ++ more) u = varAt vars u := by
  simp [varAt,List.getElem?_append_left inRange]

theorem Grown.varAt {vars vars' : List VarDef} (grown : Grown vars vars') (inRange : u < vars.length) :
    varAt vars' u = varAt vars u := by
  induction grown with
  | refl => rfl
  | push before _ ih =>
    have room := before.length_le
    rw [varAt_append (by omega),ih]

section Building

variable {vars vars' all : List VarDef} {env : Env} {val : VarId → Nat} {sz : UInt32}

-- An expression stands for an operand of this size and this value: a variable has its own size.
def Stands (env : Env) (vars : List VarDef) (val : VarId → Nat) (sz : UInt32) (expr : Expr) (operand : UInt32 × Nat) :
    Prop :=
  match expr with
  | .var arg => ((varAt vars arg).size,val arg) = operand
  | expr => ∃ value, exprValue env vars val sz expr = some value ∧ (sz,low sz.toNat value) = operand

-- The variables made for an expression hold their values.
def Holds (env : Env) (vars all : List VarDef) (val : VarId → Nat) : Prop :=
  ∀ u, vars.length ≤ u → u < all.length → HoldsValue env all val u

theorem Holds.later (holds : Holds env vars all val) (grown : Grown vars vars') : Holds env vars' all val :=
  fun u made inRange => holds u (grown.length_le.trans made) inRange

theorem place_grown (inside : ∀ used ∈ expr.operands, used < vars.length) :
    Grown vars (place expr vars sz).2 ∧ (place expr vars sz).1 < (place expr vars sz).2.length := by
  unfold place
  split
  · exact ⟨.refl,inside _ (by simp [Expr.operands])⟩
  · exact ⟨.push .refl inside,by simp⟩

theorem place_value (grown : Grown (place expr vars sz).2 all) (holds : Holds env vars all val)
    (stands : Stands env all val sz expr operand) :
    ((varAt all (place expr vars sz).1).size,val (place expr vars sz).1) = operand := by
  unfold place at grown ⊢
  split at grown
  · exact stands
  · rename_i fresh
    have inRange : vars.length < (vars ++ [madeVar vars.length expr sz]).length := by simp
    have here : varAt all vars.length = madeVar vars.length expr sz := by
      rw [grown.varAt inRange]
      simp [varAt]
    have computed := (holds vars.length (Nat.le_refl _) (lt_of_lt_of_le inRange grown.length_le)).computed
    rw [here] at computed
    have value : ∃ value, exprValue env all val sz expr = some value ∧ (sz,low sz.toNat value) = operand := by
      cases expr with
      | var arg => exact absurd rfl (fresh arg)
      | _ => exact stands
    obtain ⟨value,found,same⟩ := value
    simp only [here]
    rw [computed value found]
    exact same

theorem makeBinop_value (grown : Grown (makeBinop kind left right vars sz).2 all) (holds : Holds env vars all val)
    (leftInside : ∀ used ∈ left.operands, used < vars.length) (rightInside : ∀ used ∈ right.operands, used < vars.length)
    (standsLeft : Stands env all val sz left l) (standsRight : Stands env all val sz right r) :
    Stands env all val sz (makeBinop kind left right vars sz).1
      (sz,low sz.toNat (evalBinary env kind.pcode l.1 sz l.2 r.2)) := by
  have leftGrown := @place_grown _ sz _ leftInside
  have rightGrown := @place_grown (place left vars sz).2 sz _ fun used inside =>
    lt_of_lt_of_le (rightInside used inside) leftGrown.1.length_le
  have leftValue := place_value (rightGrown.1.trans grown) holds standsLeft
  have rightValue := place_value grown (holds.later leftGrown.1) standsRight
  refine ⟨_,rfl,?_⟩
  rw [← leftValue,← rightValue]

theorem makeBinop_grown (leftInside : ∀ used ∈ left.operands, used < vars.length)
    (rightInside : ∀ used ∈ right.operands, used < vars.length) :
    Grown vars (makeBinop kind left right vars sz).2 ∧
      ∀ used ∈ (makeBinop kind left right vars sz).1.operands, used < (makeBinop kind left right vars sz).2.length := by
  have leftGrown := @place_grown _ sz _ leftInside
  have rightGrown := @place_grown (place left vars sz).2 sz _ fun used inside =>
    lt_of_lt_of_le (rightInside used inside) leftGrown.1.length_le
  refine ⟨leftGrown.1.trans rightGrown.1,?_⟩
  simp only [makeBinop,Expr.operands,List.mem_cons,List.not_mem_nil,or_false,forall_eq_or_imp,forall_eq]
  exact ⟨lt_of_lt_of_le leftGrown.2 rightGrown.1.length_le,rightGrown.2⟩

theorem makeUnaryop_value (grown : Grown (makeUnaryop kind arg vars sz).2 all) (holds : Holds env vars all val)
    (stands : Stands env all val sz arg i) :
    Stands env all val sz (makeUnaryop kind arg vars sz).1
      (sz,low sz.toNat (evalUnary env kind.pcode i.1 sz i.2)) := by
  have value := place_value grown holds stands
  refine ⟨_,rfl,?_⟩
  rw [← value]

theorem makeUnaryop_grown (inside : ∀ used ∈ arg.operands, used < vars.length) :
    Grown vars (makeUnaryop kind arg vars sz).2 ∧
      ∀ used ∈ (makeUnaryop kind arg vars sz).1.operands, used < (makeUnaryop kind arg vars sz).2.length := by
  have grown := @place_grown _ sz _ inside
  refine ⟨grown.1,?_⟩
  simp only [makeUnaryop,Expr.operands,List.mem_cons,List.not_mem_nil,or_false,forall_eq]
  exact grown.2

variable {varMap : List VarId}

theorem eggToSsa_binary (converted : eggToSsa varMap sz (.binary op left right) vars = (some expr,vars')) :
    ∃ l r middle after, eggToSsa varMap sz left vars = (some l,middle) ∧
      eggToSsa varMap sz right middle = (some r,after) ∧
      expr = (makeBinop op.kind l r after sz).1 ∧ vars' = (makeBinop op.kind l r after sz).2 := by
  rcases leftConverted : eggToSsa varMap sz left vars with ⟨_ | l,middle⟩
  · simp [eggToSsa,leftConverted] at converted
  · rcases rightConverted : eggToSsa varMap sz right middle with ⟨_ | r,after⟩
    · simp [eggToSsa,leftConverted,rightConverted] at converted
    · simp only [eggToSsa,leftConverted,rightConverted,Prod.mk.injEq,Option.some.injEq] at converted
      exact ⟨l,r,middle,after,rfl,rightConverted,converted.1.symm,converted.2.symm⟩

theorem eggToSsa_unary (converted : eggToSsa varMap sz (.unary op arg) vars = (some expr,vars')) :
    ∃ i after, eggToSsa varMap sz arg vars = (some i,after) ∧
      expr = (makeUnaryop op.kind i after sz).1 ∧ vars' = (makeUnaryop op.kind i after sz).2 := by
  rcases innerConverted : eggToSsa varMap sz arg vars with ⟨_ | i,after⟩
  · simp [eggToSsa,innerConverted] at converted
  · simp only [eggToSsa,innerConverted,Prod.mk.injEq,Option.some.injEq] at converted
    exact ⟨i,after,rfl,converted.1.symm,converted.2.symm⟩

theorem eggToSsa_grown (converted : eggToSsa varMap sz term vars = (some expr,vars'))
    (inside : ∀ id ∈ varMap, id < vars.length) :
    Grown vars vars' ∧ ∀ used ∈ expr.operands, used < vars'.length := by
  induction term generalizing vars vars' expr with
  | hole name => exact name.elim
  | num value =>
    simp only [eggToSsa,Prod.mk.injEq,Option.some.injEq] at converted
    obtain ⟨rfl,rfl⟩ := converted
    exact ⟨.refl,by simp [Expr.operands]⟩
  | var index _ =>
    cases index <;> simp only [eggToSsa,Prod.mk.injEq,reduceCtorEq,false_and] at converted
    case num idx =>
      obtain ⟨found,rfl⟩ := converted
      obtain ⟨id,atIndex,rfl⟩ := Option.map_eq_some_iff.mp found
      refine ⟨.refl,?_⟩
      simp only [Expr.operands,List.mem_singleton,forall_eq]
      exact inside id (List.mem_of_getElem? atIndex)
  | binary op left right ihl ihr =>
    obtain ⟨l,r,middle,after,leftConverted,rightConverted,rfl,rfl⟩ := eggToSsa_binary converted
    obtain ⟨leftGrown,leftInside⟩ := ihl leftConverted inside
    obtain ⟨rightGrown,rightInside⟩ := ihr rightConverted fun id member =>
      lt_of_lt_of_le (inside id member) leftGrown.length_le
    have made := @makeBinop_grown _ sz op.kind _ _ (fun used member =>
      lt_of_lt_of_le (leftInside used member) rightGrown.length_le) rightInside
    exact ⟨leftGrown.trans (rightGrown.trans made.1),made.2⟩
  | unary op arg ih =>
    obtain ⟨i,after,innerConverted,rfl,rfl⟩ := eggToSsa_unary converted
    obtain ⟨innerGrown,innerInside⟩ := ih innerConverted inside
    have made := @makeUnaryop_grown _ sz op.kind _ innerInside
    exact ⟨innerGrown.trans made.1,made.2⟩

-- What is built of a term has, with the variables made, the value of its tree.
theorem eggToSsa_value (converted : eggToSsa varMap sz term vars = (some expr,vars'))
    (inside : ∀ id ∈ varMap, id < vars.length) (grown : Grown vars' all) (holds : Holds env vars all val)
    {leaf : Nat → Option (UInt32 × Nat)} (leaves : ∀ index, leaf index = leafOf all val varMap index) :
    ∃ operand, builtOperand env sz leaf term = some operand ∧ Stands env all val sz expr operand := by
  induction term generalizing vars vars' expr with
  | hole name => exact name.elim
  | num value =>
    simp only [eggToSsa,Prod.mk.injEq,Option.some.injEq] at converted
    obtain ⟨rfl,rfl⟩ := converted
    exact ⟨_,rfl,_,rfl,rfl⟩
  | var index _ =>
    cases index <;> simp only [eggToSsa,Prod.mk.injEq,reduceCtorEq,false_and] at converted
    case num idx =>
      obtain ⟨found,rfl⟩ := converted
      obtain ⟨id,atIndex,rfl⟩ := Option.map_eq_some_iff.mp found
      refine ⟨((varAt all id).size,val id),?_,rfl⟩
      rw [builtOperand,leaves,leafOf,atIndex]
      rfl
  | binary op left right ihl ihr =>
    obtain ⟨l,r,middle,after,leftConverted,rightConverted,rfl,rfl⟩ := eggToSsa_binary converted
    obtain ⟨leftGrown,leftInside⟩ := eggToSsa_grown leftConverted inside
    have middleInside : ∀ id ∈ varMap, id < middle.length := fun id member =>
      lt_of_lt_of_le (inside id member) leftGrown.length_le
    obtain ⟨rightGrown,rightInside⟩ := eggToSsa_grown rightConverted middleInside
    have leftAfter : ∀ used ∈ l.operands, used < after.length := fun used member =>
      lt_of_lt_of_le (leftInside used member) rightGrown.length_le
    have made := @makeBinop_grown _ sz op.kind _ _ leftAfter rightInside
    obtain ⟨leftOperand,leftBuilt,leftStands⟩ := ihl leftConverted inside (rightGrown.trans (made.1.trans grown)) holds
    obtain ⟨rightOperand,rightBuilt,rightStands⟩ := ihr rightConverted middleInside (made.1.trans grown)
      (holds.later leftGrown)
    refine ⟨_,?_,makeBinop_value grown (holds.later (leftGrown.trans rightGrown)) leftAfter rightInside leftStands
      rightStands⟩
    simp only [builtOperand,leftBuilt,rightBuilt,Option.bind_eq_bind,Option.bind_some]
  | unary op arg ih =>
    obtain ⟨i,after,innerConverted,rfl,rfl⟩ := eggToSsa_unary converted
    obtain ⟨innerGrown,innerInside⟩ := eggToSsa_grown innerConverted inside
    have made := @makeUnaryop_grown _ sz op.kind _ innerInside
    obtain ⟨operand,built,stands⟩ := ih innerConverted inside (made.1.trans grown) holds
    refine ⟨_,?_,makeUnaryop_value grown (holds.later innerGrown) stands⟩
    simp only [builtOperand,built,Option.bind_eq_bind,Option.bind_some]

theorem eggToSsa_built {leaf : Nat → Option (UInt32 × Nat)}
    (mapped : ∀ index operand, leaf index = some operand → index < varMap.length)
    (built : builtOperand env sz leaf term = some operand) (vars : List VarDef) :
    ∃ expr vars', eggToSsa varMap sz term vars = (some expr,vars') := by
  induction term generalizing vars operand with
  | hole name => exact name.elim
  | num value => exact ⟨_,_,rfl⟩
  | var index _ =>
    cases index <;> simp only [builtOperand,reduceCtorEq] at built
    case num idx =>
      exact ⟨_,vars,by rw [eggToSsa,List.getElem?_eq_getElem (mapped _ _ built)]; rfl⟩
  | binary op left right ihl ihr =>
    simp only [builtOperand,Option.bind_eq_bind,Option.bind_eq_some_iff] at built
    obtain ⟨_,leftBuilt,_,rightBuilt,_⟩ := built
    obtain ⟨l,middle,leftConverted⟩ := ihl leftBuilt vars
    obtain ⟨r,after,rightConverted⟩ := ihr rightBuilt middle
    exact ⟨_,_,by simp only [eggToSsa,leftConverted,rightConverted]; rfl⟩
  | unary op arg ih =>
    simp only [builtOperand,Option.bind_eq_bind,Option.bind_eq_some_iff] at built
    obtain ⟨_,innerBuilt,_⟩ := built
    obtain ⟨i,after,innerConverted⟩ := ih innerBuilt vars
    exact ⟨_,_,by simp only [eggToSsa,innerConverted]; rfl⟩

end Building

section SameWidth

variable {env : Env} {sz : UInt32}

theorem apply_value (op : MbaOp) (x : Nat) (rightSmall : y < 2 ^ (8 * sz.toNat)) :
    low sz.toNat (evalBinary env op.kind.pcode sz sz x y) =
      (op.apply (BitVec.ofNat (8 * sz.toNat) x) (BitVec.ofNat (8 * sz.toNat) y)).toNat := by
  have rightValue : (BitVec.ofNat (8 * sz.toNat) y).toNat = y := by
    rw [BitVec.toNat_ofNat,Nat.mod_eq_of_lt rightSmall]
  cases op <;> simp only [MbaOp.kind,BinOpKind.pcode,evalBinary,MbaOp.apply,rightValue]
  case shl =>
    by_cases far : 8 * sz.toNat ≤ y
    · rw [if_pos far,BitVec.shiftLeft_eq_zero far]
      simp [low]
    · rw [if_neg far]
      exact low_eq_self (BitVec.isLt _)
  case shr =>
    by_cases far : 8 * sz.toNat ≤ y
    · rw [if_pos far,BitVec.ushiftRight_eq_zero far]
      simp [low]
    · rw [if_neg far]
      exact low_eq_self (BitVec.isLt _)
  all_goals exact low_eq_self (BitVec.isLt _)

theorem unaryApply_value (op : MbaUnaryOp) (x : Nat) :
    low sz.toNat (evalUnary env op.kind.pcode sz sz x) = (op.apply (BitVec.ofNat (8 * sz.toNat) x)).toNat := by
  cases op <;> simp only [MbaUnaryOp.kind,UnaryOpKind.pcode,evalUnary,MbaUnaryOp.apply]
  all_goals exact low_eq_self (BitVec.isLt _)

def baseValue (leaf : Nat → Option (UInt32 × Nat)) (w : Nat) (index : BitVec 64) : BitVec w :=
  BitVec.ofNat w ((leaf index.toNat).elim 0 Prod.snd)

theorem builtOperand_value {leaf : Nat → Option (UInt32 × Nat)}
    (sized : ∀ index operand, leaf index = some operand → operand.1 = sz ∧ operand.2 < 2 ^ (8 * sz.toNat))
    (built : builtOperand env sz leaf term = some operand) (holes : (w : Nat) → Empty → BitVec w) :
    operand = (sz,(mbaValue (baseValue leaf) holes (8 * sz.toNat) term).toNat) := by
  induction term generalizing operand with
  | hole name => exact name.elim
  | num value =>
    simp only [builtOperand,Option.some.injEq] at built
    rw [← built,mbaValue,numValue,BitVec.toNat_setWidth]
    rfl
  | var index _ =>
    cases index <;> simp only [builtOperand,reduceCtorEq] at built
    case num idx _ =>
      obtain ⟨size,small⟩ := sized _ _ built
      have number : (numValue 64 idx).toNat = idx.toUInt64.toNat := by
        simp [numValue]
        rfl
      simp only [mbaValue,baseValue,number,built,Option.elim_some,BitVec.toNat_ofNat,Nat.mod_eq_of_lt small]
      exact Prod.ext size rfl
  | binary op left right ihl ihr =>
    simp only [builtOperand,Option.bind_eq_bind,Option.bind_eq_some_iff,Option.some.injEq] at built
    obtain ⟨l,leftBuilt,r,rightBuilt,rfl⟩ := built
    rw [ihl leftBuilt,ihr rightBuilt,mbaValue,apply_value op _ (BitVec.isLt _),BitVec.ofNat_toNat,
      BitVec.ofNat_toNat,BitVec.setWidth_eq,BitVec.setWidth_eq]
  | unary op arg ih =>
    simp only [builtOperand,Option.bind_eq_bind,Option.bind_eq_some_iff,Option.some.injEq] at built
    obtain ⟨i,innerBuilt,rfl⟩ := built
    rw [ih innerBuilt,mbaValue,unaryApply_value,BitVec.ofNat_toNat,BitVec.setWidth_eq]

end SameWidth

section Extension

variable {vars vars' : List VarDef} {env : Env}

theorem exprValue_append {expr : Expr} (inside : ∀ used ∈ expr.operands, used < vars.length) (more : List VarDef)
    (val : VarId → Nat) (size : UInt32) :
    exprValue env (vars ++ more) val size expr = exprValue env vars val size expr := by
  cases expr with
  | binOp op left right =>
    simp only [exprValue,varAt_append (inside left (by simp [Expr.operands]))]
  | unaryOp op arg =>
    simp only [exprValue,varAt_append (inside arg (by simp [Expr.operands]))]
  | _ => rfl

theorem Grown.operands (grown : Grown vars vars') (made : vars.length ≤ u) (inRange : u < vars'.length) :
    ∀ used ∈ (Decompile.varAt vars' u).expr.operands, used < u := by
  induction grown with
  | refl => omega
  | @push before new growing operands ih =>
    by_cases here : u = before.length
    · subst here
      simpa [Decompile.varAt] using operands
    · have earlier : u < before.length := by
        simp at inRange
        omega
      rw [varAt_append earlier]
      exact ih earlier

-- The variables made have values, whatever the others hold.
theorem Grown.valued (grown : Grown vars vars') (env : Env) (val : VarId → Nat) :
    ∃ val' : VarId → Nat, (∀ u < vars.length, val' u = val u) ∧ Holds env vars vars' val' := by
  induction grown with
  | refl => exact ⟨val,fun _ _ => rfl,fun u made inRange => by omega⟩
  | @push before new growing operands ih =>
    obtain ⟨val',same,holds⟩ := ih
    let value := (exprValue env before val' new.size new.expr).getD 0 % 2 ^ (8 * new.size.toNat)
    have untouched {u : VarId} (inRange : u < before.length) :
        Function.update val' before.length value u = val' u := Function.update_of_ne (Nat.ne_of_lt inRange) _ _
    have agree {expr : Expr} (inside : ∀ used ∈ expr.operands, used < before.length) (size : UInt32) :
        exprValue env (before ++ [new]) (Function.update val' before.length value) size expr =
          exprValue env before val' size expr := by
      rw [exprValue_append inside]
      exact exprValue_congr fun used member => untouched (inside used member)
    refine ⟨Function.update val' before.length value,?_,?_⟩
    · intro u inRange
      rw [untouched (lt_of_lt_of_le inRange growing.length_le),same u inRange]
    · intro u made inRange
      by_cases here : u = before.length
      · subst here
        have last : Decompile.varAt (before ++ [new]) before.length = new := by simp [Decompile.varAt]
        constructor
        · rw [last,Function.update_self]
          exact Nat.mod_lt _ (by positivity)
        · intro x computed
          rw [last,agree operands] at computed
          rw [last,Function.update_self]
          simp only [value,Option.mem_def.mp computed,Option.getD_some]
      · have earlier : u < before.length := by
          rw [List.length_append,List.length_singleton] at inRange
          exact lt_of_le_of_ne (Nat.le_of_lt_succ inRange) here
        have old := holds u made earlier
        have inside : ∀ used ∈ (Decompile.varAt before u).expr.operands, used < before.length :=
          fun used member => (growing.operands made earlier used member).trans earlier
        constructor
        · rw [varAt_append earlier,untouched earlier]
          exact old.within
        · intro x computed
          rw [varAt_append earlier,agree inside] at computed
          rw [varAt_append earlier,untouched earlier]
          exact old.computed x computed

end Extension

section Sound

variable (vars : List VarDef) (v : VarId)

def Valued (env : Env) (vars : List VarDef) (val : VarId → Nat) (v : VarId) : Prop :=
  ∀ u, Below vars v u → HoldsValue env vars val u

-- The expression found has the value of `v`, with the variables made for it, whatever the base variables hold.
def Keeps (result : Option Expr × List VarDef) : Prop :=
  ∀ env val val', Valued env vars val v → (∀ u < vars.length, val' u = val u) → Holds env vars result.2 val' →
    ∀ expr, result.1 = some expr → KeepsValue env result.2 val' v expr

structure Sound : Prop where
  once : ∀ term varMap, ssaToEgg vars v 15 = some (term,varMap) → varMap.Nodup
  roundTrip : ∀ term varMap, ssaToEgg vars v 15 = some (term,varMap) →
    (eggToSsa varMap (varAt vars v).size term vars).1.isSome ∧
      Keeps vars v (eggToSsa varMap (varAt vars v).size term vars)
  simplified : ∀ egg : Egg, egg.Lawful → Keeps vars v (simplifyExpr egg v vars)

-- No base variable is met twice, and the tree has the value of `v` where it is computed at the size of `v`.
structure Flat : Prop where
  once : ∀ ids, baseVariables vars 16 v = some ids → ids.Nodup
  value : ∀ ids, baseVariables vars 16 v = some ids → ∀ env val, Valued env vars val v →
    val v = low (varAt vars v).size.toNat (flatValue vars env val (varAt vars v).size 16 v).2

def SameSize : Prop :=
  ∀ ids, baseVariables vars 16 v = some ids → ∀ id ∈ ids, (varAt vars id).size = (varAt vars v).size

variable {vars v}

theorem ssaToEgg_map (converted : ssaToEgg vars v 15 = some (term,varMap)) :
    baseVariables vars 16 v = some varMap := by
  obtain ⟨ids,found,same⟩ := convert_some converted
  rw [found,same]
  rfl

theorem ssaToEgg_of_map (found : baseVariables vars 16 v = some varMap) :
    ∃ term, ssaToEgg vars v 15 = some (term,varMap) := by
  have maps := @convert_map vars 16 v []
  rw [found] at maps
  obtain ⟨⟨term,varMap'⟩,converted,same⟩ := Option.map_eq_some_iff.mp maps
  refine ⟨term,converted.trans ?_⟩
  rw [← show varMap' = varMap from same]

theorem ssaToEgg_built (converted : ssaToEgg vars v 15 = some (term,varMap)) (env : Env) (val : VarId → Nat)
    (sz : UInt32) :
    builtOperand env sz (leafOf vars val varMap) term = some (flatValue vars env val sz 16 v) := by
  have short := baseVariables_length (ssaToEgg_map converted)
  exact convert_built converted (List.prefix_refl _) (by omega)

theorem inRange_of_map (found : baseVariables vars 16 v = some varMap) : v < vars.length :=
  (baseVariables_cases found).1

theorem keeps_built {env : Env} {val val' : VarId → Nat} (found : baseVariables vars 16 v = some varMap)
    (converted : eggToSsa varMap (varAt vars v).size term vars = (some expr,vars'))
    (same : ∀ u < vars.length, val' u = val u) (holds : Holds env vars vars' val') :
    ∃ operand, builtOperand env (varAt vars v).size (leafOf vars val varMap) term = some operand ∧
      (KeepsValue env vars' val' v expr ↔ val v = low (varAt vars v).size.toNat operand.2) := by
  have inside : ∀ id ∈ varMap, id < vars.length := fun id member => (baseVariables_below found id member).1
  have grown := (eggToSsa_grown converted inside).1
  have leaves : ∀ index, leafOf vars val varMap index = leafOf vars' val' varMap index := by
    intro index
    unfold leafOf
    cases atIndex : varMap[index]? with
    | none => rfl
    | some id =>
      have inRange := inside id (List.mem_of_getElem? atIndex)
      simp only [Option.map_some,grown.varAt inRange,same id inRange]
  obtain ⟨operand,built,stands⟩ := eggToSsa_value converted inside .refl holds leaves
  refine ⟨operand,built,?_⟩
  have size := congrArg VarDef.size (grown.varAt (inRange_of_map found))
  have here := same v (inRange_of_map found)
  cases expr with
  | var arg =>
    have value : val' arg = operand.2 := congrArg Prod.snd stands
    rw [keeps_var,size,here,value]
  | _ =>
    obtain ⟨value,computed,placed⟩ := stands
    rw [← size] at computed
    rw [keeps_some computed,size,here,← placed,low_low,Nat.min_self]

theorem roundTrip_keeps (converted : ssaToEgg vars v 15 = some (term,varMap)) :
    (eggToSsa varMap (varAt vars v).size term vars).1.isSome ∧
      (Keeps vars v (eggToSsa varMap (varAt vars v).size term vars) ↔
        ∀ env val, Valued env vars val v →
          val v = low (varAt vars v).size.toNat (flatValue vars env val (varAt vars v).size 16 v).2) := by
  have found := ssaToEgg_map converted
  have inside : ∀ id ∈ varMap, id < vars.length := fun id member => (baseVariables_below found id member).1
  have mapped (val : VarId → Nat) : ∀ index operand, leafOf vars val varMap index = some operand →
      index < varMap.length := by
    intro index operand here
    by_contra outside
    rw [leafOf,List.getElem?_eq_none (Nat.le_of_not_lt outside)] at here
    cases here
  obtain ⟨expr,vars',made⟩ := eggToSsa_built (mapped fun _ => 0)
    (ssaToEgg_built converted plainEnv (fun _ => 0) (varAt vars v).size) vars
  rw [made]
  refine ⟨rfl,?_⟩
  constructor
  · intro keeps env val valued
    obtain ⟨val',same,holds⟩ := (eggToSsa_grown made inside).1.valued env val
    obtain ⟨operand,built,value⟩ := keeps_built found made same holds
    obtain rfl := Option.some.inj ((ssaToEgg_built converted env val _).symm.trans built)
    exact value.mp (keeps env val val' valued same holds expr rfl)
  · intro value env val val' valued same holds _ isExpr
    obtain rfl := Option.some.inj isExpr
    obtain ⟨operand,built,keeps⟩ := keeps_built found made same holds
    obtain rfl := Option.some.inj ((ssaToEgg_built converted env val _).symm.trans built)
    exact keeps.mpr (value env val valued)

theorem simplifyExpr_some {egg : Egg} (simplified : (simplifyExpr egg v vars).1 = some expr) :
    ∃ term varMap best length, ssaToEgg vars v 15 = some (term,varMap) ∧ egg.best term = some (best,length) ∧
      simplifyExpr egg v vars = eggToSsa varMap (varAt vars v).size best vars := by
  unfold simplifyExpr at simplified ⊢
  cases converted : ssaToEgg vars v 15 with
  | none => simp [converted] at simplified
  | some pair =>
    obtain ⟨term,varMap⟩ := pair
    simp only [converted] at simplified ⊢
    split at simplified
    · cases simplified
    · rename_i worth
      rw [if_neg worth]
      cases costs : egg.originalCost term with
      | none => simp [costs] at simplified
      | some originalCost =>
        cases bests : egg.best term with
        | none => simp [costs,bests] at simplified
        | some pair =>
          obtain ⟨best,length⟩ := pair
          simp only [costs,bests] at simplified ⊢
          split at simplified
          · cases simplified
          · rename_i cheaper
            split at simplified
            · cases simplified
            · rename_i shorter
              rw [if_neg cheaper,if_neg shorter]
              exact ⟨term,varMap,best,length,rfl,bests,rfl⟩

theorem simplified_keeps {egg : Egg} (lawful : egg.Lawful) (sized : SameSize vars v)
    (narrow : (varAt vars v).size.toNat ≤ 8) (flat : Flat vars v) : Keeps vars v (simplifyExpr egg v vars) := by
  intro env val val' valued same holds expr simplified
  obtain ⟨term,varMap,best,length,converted,bests,result⟩ := simplifyExpr_some simplified
  have found := ssaToEgg_map converted
  rw [result] at simplified holds ⊢
  have made : eggToSsa varMap (varAt vars v).size best vars =
      (some expr,(eggToSsa varMap (varAt vars v).size best vars).2) := Prod.ext simplified rfl
  obtain ⟨operand,built,keeps⟩ := keeps_built found made same holds
  have leaves : ∀ index operand, leafOf vars val varMap index = some operand →
      operand.1 = (varAt vars v).size ∧ operand.2 < 2 ^ (8 * (varAt vars v).size.toNat) := by
    intro index operand here
    obtain ⟨id,atIndex,rfl⟩ := Option.map_eq_some_iff.mp here
    have member := List.mem_of_getElem? atIndex
    have size := sized varMap found id member
    have within := (valued id (baseVariables_below found id member).2).within
    rw [size] at within
    exact ⟨size,within⟩
  have whole := ssaToEgg_built converted env val (varAt vars v).size
  have bits : 8 * (varAt vars v).size.toNat ≤ 64 := by omega
  have classValue := (lawful term best length bests).value (baseValue (leafOf vars val varMap)) (fun _ => Empty.elim) bits
  have before := builtOperand_value leaves whole fun _ => Empty.elim
  have after := builtOperand_value leaves built fun _ => Empty.elim
  rw [classValue,← after] at before
  rw [keeps,← before]
  exact flat.value varMap found env val valued

end Sound

-- An egg that finds only that two negations cancel.
def negNeg : Egg where
  originalCost term := some term.cost
  best
    | .unary .neg (.unary .neg arg) => some (arg, arg.size)
    | term => some (term, term.size)

theorem negNeg_lawful : negNeg.Lawful := by
  intro term best length found
  simp only [negNeg] at found
  split at found
  · rename_i arg
    obtain ⟨rfl,_⟩ := Prod.mk.inj (Option.some.inj found)
    exact .rule ⟨"neg-neg",MbaRule.neg (MbaRule.neg MbaRule.a),MbaRule.a⟩ (fun _ => arg)
      (by simp [mbaRules,MbaRule.symmetryRules])
  · obtain ⟨rfl,_⟩ := Prod.mk.inj (Option.some.inj found)
    exact .refl _

-- - - (x >> y), the shift being arithmetic.
def signedShift : List VarDef :=
  [plainVar .unknown 1,plainVar .unknown 1,plainVar (.binOp .asr 0 1) 1,plainVar (.unaryOp .neg 2) 1,
    plainVar (.unaryOp .neg 3) 1]

def signedShiftValues (u : VarId) : Nat := [0x80,1,0xC0,0x40,0xC0].getD u 0

def selfDifference : List VarDef := [plainVar .unknown 4,plainVar (.binOp .sub 0 0) 4]

theorem signedShift_valued (u : VarId) : HoldsValue plainEnv signedShift signedShiftValues u := by
  have listed (n : Nat) : n = 0 ∨ n = 1 ∨ n = 2 ∨ n = 3 ∨ n = 4 ∨ 5 ≤ n := by omega
  rcases listed u with rfl | rfl | rfl | rfl | rfl | outside
  · exact ⟨by decide,by decide⟩
  · exact ⟨by decide,by decide⟩
  · exact ⟨by decide,by decide⟩
  · exact ⟨by decide,by decide⟩
  · exact ⟨by decide,by decide⟩
  · have none_ : varAt signedShift u = SsaCfg.sentinel := by
      rw [varAt,List.getElem?_eq_none outside]
      rfl
    have zero : signedShiftValues u = 0 := by
      rw [signedShiftValues,List.getD_eq_default _ _ outside]
    constructor
    · rw [none_,zero]
      decide
    · rw [none_]
      intro value computed
      cases computed

end Rsleigh.Decompile.Eqsat
