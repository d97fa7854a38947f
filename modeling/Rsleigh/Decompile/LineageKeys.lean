import Rsleigh.Decompile.Lineage

namespace Rsleigh.Decompile.Lineage

open Pcode Regions TaintPaths Collect

-- What an address is relative to.
inductive Base where
  | stack
  | param (n : UInt8)
  | absolute
  deriving DecidableEq

section Addresses

variable (vars : List VarDef) (params : VarId → Option UInt8) (sp : VarId)

def HasExpr (v : VarId) (expr : Expr) : Prop := ∃ d, vars[v]? = some d ∧ d.expr = expr

-- A variable whose region is that of its expression.
def Derived (v : VarId) : Prop := params v = none ∧ ∀ d, vars[v]? = some d → d.callReturn = false

-- The incoming stack pointer, and the parameters.
inductive IsBase : VarId → Base → Prop where
  | stack : HasExpr vars sp .unknown → (∀ d, vars[sp]? = some d → d.varnode.space = .register) → Derived vars params sp →
      IsBase sp .stack
  | param : HasExpr vars v .unknown → params v = some n → IsBase v (.param n)

-- A constant behind some copies.
inductive IsConst : Nat → VarId → UInt64 → Prop where
  | const : HasExpr vars v (.const c size) → IsConst 0 v c
  | copy : HasExpr vars v (.var arg) → IsConst n arg c → IsConst (n + 1) v c

-- The addresses with what they are relative to and their displacement from it.
inductive Address : VarId → Base → UInt64 → Prop where
  | base : IsBase vars params sp v b → Address v b 0
  | const : IsConst vars n v c → Address v .absolute c
  | copy : HasExpr vars v (.var arg) → Address arg b d → Address v b d
  | addConst : HasExpr vars v (.binOp .add a k) → Address a b d → IsConst vars n k c → Address v b (d + c)
  | constAdd : HasExpr vars v (.binOp .add k a) → Address a b d → IsConst vars n k c → Address v b (d + c)
  | subConst : HasExpr vars v (.binOp .sub a k) → Address a b d → IsConst vars n k c → Address v b (d - c)

-- A copy of a base whose region is known after so many rounds: one more for each copy of a later variable.
inductive Root : Nat → VarId → Base → Prop where
  | base : IsBase vars params sp v b → Root 1 v b
  | copyBack : HasExpr vars v (.var arg) → Derived vars params v → arg < v → Root r arg b → Root r v b
  | copyAhead : HasExpr vars v (.var arg) → Derived vars params v → v ≤ arg → Root r arg b → Root (r + 1) v b

-- The four rounds come to the region of an operand before they come to the variable for the last time.
def InTime (r a v : Nat) : Prop := r ≤ 3 ∨ r ≤ 4 ∧ a < v

-- An address that is written down flat: a base, a constant, one constant added to a base on its right or subtracted
-- from it, or a copy of such an earlier variable. Constants are behind fewer than sixteen copies, and those that are
-- addresses stand all in RAM, or none does.
inductive Flat (inRam : Bool) : VarId → Base → UInt64 → Prop where
  | base : IsBase vars params sp v b → Flat inRam v b 0
  | const : HasExpr vars v (.const c size) → Derived vars params v →
      (∀ d, vars[v]? = some d → c = 0 ∨ inRam = decide (d.varnode.space = .ram)) → Flat inRam v .absolute c
  | copy : HasExpr vars v (.var arg) → Derived vars params v → arg < v → Flat inRam arg b d → Flat inRam v b d
  | add : HasExpr vars v (.binOp .add a k) → Derived vars params v → Root vars params sp r a b → InTime r a v →
      IsConst vars n k c → n < 16 → Flat inRam v b c
  | sub : HasExpr vars v (.binOp .sub a k) → Derived vars params v → Root vars params sp r a b → InTime r a v →
      IsConst vars n k c → n < 16 → Flat inRam v b (0 - c)

end Addresses

section Unique

variable {vars : List VarDef} {params : VarId → Option UInt8} {sp : VarId}

theorem hasExpr_unique (first : HasExpr vars v e) (second : HasExpr vars v e') : e = e' := by
  obtain ⟨d,isVar,rfl⟩ := first
  obtain ⟨d',isVar',rfl⟩ := second
  rw [Option.some.inj (isVar.symm.trans isVar')]

theorem base_unknown (isBase : IsBase vars params sp v b) : HasExpr vars v .unknown := by
  cases isBase with
  | stack isUnknown inRegister derived => exact isUnknown
  | param isUnknown isParam => exact isUnknown

theorem base_unique (first : IsBase vars params sp v b) (second : IsBase vars params sp v b') : b = b' := by
  cases first with
  | stack _ _ derived =>
    cases second with
    | stack => rfl
    | param _ isParam =>
      rw [derived.1] at isParam
      cases isParam
  | param _ isParam =>
    cases second with
    | stack _ _ derived =>
      rw [derived.1] at isParam
      cases isParam
    | param _ isParam' => rw [Option.some.inj (isParam.symm.trans isParam')]

theorem const_unique (first : IsConst vars n v c) (second : IsConst vars n' v c') : c = c' := by
  induction first generalizing n' with
  | const isExpr =>
    cases second with
    | const isExpr' => exact (Expr.const.inj (hasExpr_unique isExpr isExpr')).1
    | copy isExpr' rest => cases hasExpr_unique isExpr isExpr'
  | copy isExpr rest ih =>
    cases second with
    | const isExpr' => cases hasExpr_unique isExpr isExpr'
    | copy isExpr' rest' =>
      obtain rfl := Expr.var.inj (hasExpr_unique isExpr isExpr')
      exact ih rest'

variable (vars params sp)

-- How an address can come from the expression of its variable.
def ComesFrom (v : VarId) (b : Base) (d : UInt64) : Expr → Prop
  | .unknown => IsBase vars params sp v b ∧ d = 0
  | .const c _ => b = .absolute ∧ d = c
  | .var arg => Address vars params sp arg b d
  | .binOp .add x y =>
    (∃ d' c n, Address vars params sp x b d' ∧ IsConst vars n y c ∧ d = d' + c) ∨
      ∃ d' c n, Address vars params sp y b d' ∧ IsConst vars n x c ∧ d = d' + c
  | .binOp .sub x y => ∃ d' c n, Address vars params sp x b d' ∧ IsConst vars n y c ∧ d = d' - c
  | _ => False

variable {vars params sp}

theorem address_comes (isExpr : HasExpr vars v expr) (address : Address vars params sp v b d) :
    ComesFrom vars params sp v b d expr := by
  cases address with
  | base isBase =>
    obtain rfl := hasExpr_unique (base_unknown isBase) isExpr
    exact ⟨isBase,rfl⟩
  | const isConst =>
    cases isConst with
    | const isExpr' =>
      obtain rfl := hasExpr_unique isExpr' isExpr
      exact ⟨rfl,rfl⟩
    | copy isExpr' rest =>
      obtain rfl := hasExpr_unique isExpr' isExpr
      exact .const rest
  | copy isExpr' rest =>
    obtain rfl := hasExpr_unique isExpr' isExpr
    exact rest
  | addConst isExpr' rest isConst =>
    obtain rfl := hasExpr_unique isExpr' isExpr
    exact .inl ⟨_,_,_,rest,isConst,rfl⟩
  | constAdd isExpr' rest isConst =>
    obtain rfl := hasExpr_unique isExpr' isExpr
    exact .inr ⟨_,_,_,rest,isConst,rfl⟩
  | subConst isExpr' rest isConst =>
    obtain rfl := hasExpr_unique isExpr' isExpr
    exact ⟨_,_,_,rest,isConst,rfl⟩

theorem const_address (isConst : IsConst vars n v c) (address : Address vars params sp v b d) : b = .absolute ∧ d = c := by
  induction isConst generalizing b d with
  | const isExpr => exact address_comes isExpr address
  | copy isExpr rest ih => exact ih (address_comes isExpr address)

theorem address_unique (first : Address vars params sp v b d) (second : Address vars params sp v b' d') :
    b = b' ∧ d = d' := by
  induction first generalizing b' d' with
  | base isBase =>
    obtain ⟨isBase',nothing⟩ := address_comes (base_unknown isBase) second
    exact ⟨base_unique isBase isBase',nothing.symm⟩
  | const isConst =>
    obtain ⟨same,offset⟩ := const_address isConst second
    exact ⟨same.symm,offset.symm⟩
  | copy isExpr rest ih => exact ih (address_comes isExpr second)
  | addConst isExpr rest isConst ih =>
    rcases address_comes isExpr second with ⟨_,_,_,rest',isConst',rfl⟩ | ⟨_,_,_,rest',isConst',rfl⟩
    · obtain ⟨sameBase,sameOffset⟩ := ih rest'
      exact ⟨sameBase,by rw [sameOffset,const_unique isConst isConst']⟩
    · obtain ⟨rfl,rfl⟩ := const_address isConst rest'
      obtain ⟨rfl,rfl⟩ := const_address isConst' rest
      exact ⟨rfl,UInt64.add_comm _ _⟩
  | constAdd isExpr rest isConst ih =>
    rcases address_comes isExpr second with ⟨_,_,_,rest',isConst',rfl⟩ | ⟨_,_,_,rest',isConst',rfl⟩
    · obtain ⟨rfl,rfl⟩ := const_address isConst rest'
      obtain ⟨rfl,rfl⟩ := const_address isConst' rest
      exact ⟨rfl,UInt64.add_comm _ _⟩
    · obtain ⟨sameBase,sameOffset⟩ := ih rest'
      exact ⟨sameBase,by rw [sameOffset,const_unique isConst isConst']⟩
  | subConst isExpr rest isConst ih =>
    obtain ⟨_,_,_,rest',isConst',rfl⟩ := address_comes isExpr second
    obtain ⟨sameBase,sameOffset⟩ := ih rest'
    exact ⟨sameBase,by rw [sameOffset,const_unique isConst isConst']⟩

theorem root_address (root : Root vars params sp r v b) : Address vars params sp v b 0 := by
  induction root with
  | base isBase => exact .base isBase
  | copyBack isExpr derived earlier rest ih => exact .copy isExpr ih
  | copyAhead isExpr derived later rest ih => exact .copy isExpr ih

theorem flat_address (flat : Flat vars params sp inRam v b d) : Address vars params sp v b d := by
  induction flat with
  | base isBase => exact .base isBase
  | const isExpr derived inSpace => exact .const (.const isExpr)
  | copy isExpr derived earlier rest ih => exact .copy isExpr ih
  | @add v a k r b n c isExpr derived root inTime isConst few =>
    have address := Address.addConst isExpr (root_address root) isConst
    rwa [UInt64.zero_add] at address
  | sub isExpr derived root inTime isConst few => exact .subConst isExpr (root_address root) isConst

end Unique

section Keys

variable {ssa : SsaCfg} {params : VarId → Option UInt8} {sp : VarId}

-- The site of the region that an address lies in. A constant is a region of its own.
def siteOf (inRam : Bool) (d : UInt64) : Base → AllocSite
  | .stack => .stackFrame
  | .param n => .param n
  | .absolute => if inRam = true ∧ d ≠ 0 then .global d else .const d

theorem classify_base (sites : Sites) (isBase : IsBase ssa.vars params sp v b) (isVar : ssa.vars[v]? = some d) :
    classify ssa params sites v d = some (siteOf inRam 0 b) := by
  unfold classify
  cases isBase with
  | stack isUnknown inRegister derived =>
    obtain ⟨d',isVar',isExpr⟩ := isUnknown
    obtain rfl := Option.some.inj (isVar'.symm.trans isVar)
    simp [derived.1,derived.2 d' isVar,isExpr,inRegister d' isVar,siteOf]
  | param isUnknown isParam => simp [isParam,siteOf]

theorem classify_copy (sites : Sites) (isExpr : HasExpr ssa.vars v (.var arg)) (derived : Derived ssa.vars params v)
    (isVar : ssa.vars[v]? = some d) : classify ssa params sites v d = sites arg := by
  obtain ⟨d',isVar',isExpr⟩ := isExpr
  obtain rfl := Option.some.inj (isVar'.symm.trans isVar)
  unfold classify
  simp [derived.1,derived.2 d' isVar,isExpr]

theorem classify_binOp (sites : Sites) (isExpr : HasExpr ssa.vars v (.binOp op x y)) (derived : Derived ssa.vars params v)
    (isVar : ssa.vars[v]? = some d) (known : sites x = some site) : classify ssa params sites v d = some site := by
  obtain ⟨d',isVar',isExpr⟩ := isExpr
  obtain rfl := Option.some.inj (isVar'.symm.trans isVar)
  unfold classify
  simp [derived.1,derived.2 d' isVar,isExpr,known]

theorem classify_const (sites : Sites) (isExpr : HasExpr ssa.vars v (.const c size)) (derived : Derived ssa.vars params v)
    (isVar : ssa.vars[v]? = some d) (inSpace : c = 0 ∨ inRam = decide (d.varnode.space = .ram)) :
    classify ssa params sites v d = some (siteOf inRam c .absolute) := by
  obtain ⟨d',isVar',isExpr⟩ := isExpr
  obtain rfl := Option.some.inj (isVar'.symm.trans isVar)
  unfold classify siteOf
  simp only [derived.1,derived.2 d' isVar,isExpr,Bool.false_eq_true,if_false]
  rcases inSpace with isZero | same
  · simp [isZero]
  · rw [same]
    simp only [decide_eq_true_eq]
    split <;> rfl

-- The sites after some rounds.
def sitesAfter (ssa : SsaCfg) (params : VarId → Option UInt8) (n : Nat) : Sites := (sweep ssa params)^[n] fun _ => none

theorem sitesAfter_succ (n : Nat) (isVar : ssa.vars[v]? = some d) : sitesAfter ssa params (n + 1) v =
    classify ssa params (partway ssa params (sitesAfter ssa params n) v) v d := by
  unfold sitesAfter
  rw [Function.iterate_succ_apply']
  exact sweep_at _ isVar

theorem partway_sites (n : Nat) {arg v : Nat} (isVar : ssa.vars[v]? = some d) :
    partway ssa params (sitesAfter ssa params n) v arg =
      if arg < v then sitesAfter ssa params (n + 1) arg else sitesAfter ssa params n arg := by
  have inRange : v < ssa.vars.length := (List.getElem?_eq_some_iff.mp isVar).1
  split
  · rename_i earlier
    rw [partway_earlier _ earlier (Nat.le_of_lt inRange)]
    unfold sitesAfter
    rw [Function.iterate_succ_apply']
  · rename_i later
    exact partway_later _ (Nat.le_of_not_lt later)

theorem root_positive (root : Root vars params sp r v b) : 0 < r := by
  induction root with
  | base isBase => exact Nat.one_pos
  | copyBack isExpr derived earlier rest ih => exact ih
  | copyAhead isExpr derived later rest ih => exact Nat.succ_pos _

theorem root_site (root : Root ssa.vars params sp r v b) (enough : r ≤ n) :
    sitesAfter ssa params n v = some (siteOf inRam 0 b) := by
  induction root generalizing n with
  | base isBase =>
    obtain ⟨n,rfl⟩ : ∃ m, n = m + 1 := ⟨n - 1,by omega⟩
    obtain ⟨d,isVar,_⟩ := base_unknown isBase
    rw [sitesAfter_succ n isVar,classify_base _ isBase isVar]
  | @copyBack v arg r b isExpr derived earlier rest ih =>
    cases n with
    | zero => exact absurd (root_positive rest) (Nat.not_lt.mpr enough)
    | succ n =>
      obtain ⟨d,isVar,isVarExpr⟩ := isExpr
      rw [sitesAfter_succ n isVar,classify_copy _ ⟨d,isVar,isVarExpr⟩ derived isVar,partway_sites n isVar,if_pos earlier]
      exact ih enough
  | @copyAhead v arg r b isExpr derived later rest ih =>
    obtain ⟨n,rfl⟩ : ∃ m, n = m + 1 := ⟨n - 1,by omega⟩
    obtain ⟨d,isVar,isVarExpr⟩ := isExpr
    rw [sitesAfter_succ n isVar,classify_copy _ ⟨d,isVar,isVarExpr⟩ derived isVar,partway_sites n isVar,
      if_neg (Nat.not_lt.mpr later)]
    exact ih (by omega)

theorem inTime_site (root : Root ssa.vars params sp r a b) (inTime : InTime r a v) (isVar : ssa.vars[v]? = some d) :
    partway ssa params (sitesAfter ssa params 3) v a = some (siteOf inRam 0 b) := by
  rw [partway_sites 3 isVar]
  split
  · rename_i earlier
    exact root_site root (by rcases inTime with few | few <;> omega)
  · rename_i later
    exact root_site root (by rcases inTime with few | few <;> omega)

theorem siteOf_relative (inRam : Bool) {b : Base} (relative : b ≠ .absolute) (d d' : UInt64) :
    siteOf inRam d b = siteOf inRam d' b := by
  cases b with
  | absolute => exact absurd rfl relative
  | _ => rfl

theorem base_relative (isBase : IsBase vars params sp v b) : b ≠ .absolute := by
  cases isBase <;> simp

theorem root_relative (root : Root vars params sp r v b) : b ≠ .absolute := by
  induction root with
  | base isBase => exact base_relative isBase
  | copyBack isExpr derived earlier rest ih => exact ih
  | copyAhead isExpr derived later rest ih => exact ih

theorem flat_site (flat : Flat ssa.vars params sp inRam v b d) : sitesAfter ssa params 4 v = some (siteOf inRam d b) := by
  induction flat with
  | base isBase => exact root_site (.base isBase) (by omega)
  | const isExpr derived inSpace =>
    obtain ⟨d,isVar,isConst⟩ := isExpr
    rw [sitesAfter_succ 3 isVar,classify_const _ ⟨d,isVar,isConst⟩ derived isVar (inSpace d isVar)]
  | copy isExpr derived earlier rest ih =>
    obtain ⟨d,isVar,isVarExpr⟩ := isExpr
    rw [sitesAfter_succ 3 isVar,classify_copy _ ⟨d,isVar,isVarExpr⟩ derived isVar,partway_sites 3 isVar,if_pos earlier]
    exact ih
  | add isExpr derived root inTime isConst few =>
    obtain ⟨d,isVar,isSum⟩ := isExpr
    rw [sitesAfter_succ 3 isVar,classify_binOp _ ⟨d,isVar,isSum⟩ derived isVar (inTime_site root inTime isVar),
      siteOf_relative inRam (root_relative root)]
  | sub isExpr derived root inTime isConst few =>
    obtain ⟨d,isVar,isSum⟩ := isExpr
    rw [sitesAfter_succ 3 isVar,classify_binOp _ ⟨d,isVar,isSum⟩ derived isVar (inTime_site root inTime isVar),
      siteOf_relative inRam (root_relative root)]

theorem flat_defined (flat : Flat vars params sp inRam v b d) : ∃ expr, HasExpr vars v expr := by
  cases flat with
  | base isBase => exact ⟨_,base_unknown isBase⟩
  | const isExpr => exact ⟨_,isExpr⟩
  | copy isExpr => exact ⟨_,isExpr⟩
  | add isExpr => exact ⟨_,isExpr⟩
  | sub isExpr => exact ⟨_,isExpr⟩

theorem flat_region (flat : Flat ssa.vars params sp inRam v b d) : regionOf ssa params v = some (siteOf inRam d b) := by
  obtain ⟨_,_,isVar,_⟩ := flat_defined flat
  have inRange : v < ssa.vars.length := (List.getElem?_eq_some_iff.mp isVar).1
  have site := flat_site flat
  unfold regionOf
  rw [if_pos inRange,rounds_iterate]
  unfold sitesAfter at site
  rw [site]
  rfl

variable {vars : List VarDef}

theorem constValue_const (isConst : IsConst vars n k c) (few : n < fuel) : constValueFrom vars fuel k = some c := by
  induction isConst generalizing fuel with
  | const isExpr =>
    obtain ⟨fuel,rfl⟩ : ∃ m, fuel = m + 1 := ⟨fuel - 1,by omega⟩
    obtain ⟨d,isVar,isConst⟩ := isExpr
    simp [constValueFrom,isVar,isConst]
  | copy isExpr rest ih =>
    obtain ⟨fuel,rfl⟩ : ∃ m, fuel = m + 1 := ⟨fuel - 1,by omega⟩
    obtain ⟨d,isVar,isVarExpr⟩ := isExpr
    simp only [constValueFrom,isVar,isVarExpr]
    exact ih (by omega)

theorem constValue_root (root : Root vars params sp r a b) (fuel : Nat) : constValueFrom vars fuel a = none := by
  induction root generalizing fuel with
  | base isBase =>
    obtain ⟨d,isVar,isUnknown⟩ := base_unknown isBase
    cases fuel <;> simp [constValueFrom,isVar,isUnknown]
  | copyBack isExpr derived earlier rest ih =>
    obtain ⟨d,isVar,isVarExpr⟩ := isExpr
    cases fuel with
    | zero => rfl
    | succ fuel =>
      simp only [constValueFrom,isVar,isVarExpr]
      exact ih fuel
  | copyAhead isExpr derived later rest ih =>
    obtain ⟨d,isVar,isVarExpr⟩ := isExpr
    cases fuel with
    | zero => rfl
    | succ fuel =>
      simp only [constValueFrom,isVar,isVarExpr]
      exact ih fuel

theorem flat_offset (flat : Flat vars params sp inRam v b d) (enough : v ≤ fuel) :
    classifyOffsetFrom vars (fuel + 1) v = .constOffset d := by
  induction flat generalizing fuel with
  | base isBase =>
    obtain ⟨d,isVar,isUnknown⟩ := base_unknown isBase
    simp [classifyOffsetFrom,isVar,isUnknown]
  | const isExpr derived inSpace =>
    obtain ⟨d,isVar,isConst⟩ := isExpr
    simp [classifyOffsetFrom,isVar,isConst]
  | copy isExpr derived earlier rest ih =>
    obtain ⟨d,isVar,isVarExpr⟩ := isExpr
    have inFuel := Nat.lt_of_lt_of_le earlier enough
    cases fuel with
    | zero => exact absurd inFuel (Nat.not_lt_zero _)
    | succ fuel =>
      simp only [classifyOffsetFrom,isVar,isVarExpr]
      exact ih (Nat.le_of_lt_succ inFuel)
  | add isExpr derived root inTime isConst few =>
    obtain ⟨d,isVar,isSum⟩ := isExpr
    simp [classifyOffsetFrom,isVar,isSum,constValue,constValue_root root,constValue_const isConst few]
  | sub isExpr derived root inTime isConst few =>
    obtain ⟨d,isVar,isSum⟩ := isExpr
    simp [classifyOffsetFrom,isVar,isSum,constValue,constValue_root root,constValue_const isConst few]

theorem flat_key (flat : Flat ssa.vars params sp inRam v b d) :
    memKey ssa params v = (some (siteOf inRam d b), .constOffset d) := by
  obtain ⟨_,_,isVar,_⟩ := flat_defined flat
  have inRange : v < ssa.vars.length := (List.getElem?_eq_some_iff.mp isVar).1
  unfold memKey classifyOffset
  rw [flat_region flat,flat_offset flat (Nat.le_of_lt inRange)]

theorem siteOf_base (inRam : Bool) (d : UInt64) (same : siteOf inRam d b = siteOf inRam d b') : b = b' := by
  cases b <;> cases b' <;> simp only [siteOf] at same <;> first | rfl | (split at same <;> cases same) | cases same
  · rfl

theorem flat_keys (first : Flat ssa.vars params sp inRam v b d) (second : Flat ssa.vars params sp inRam w b' d') :
    memKey ssa params v = memKey ssa params w ↔ b = b' ∧ d = d' := by
  rw [flat_key first,flat_key second]
  constructor
  · intro same
    obtain ⟨sameSite,sameOffset⟩ := Prod.mk.inj same
    obtain rfl := OffsetClass.constOffset.inj sameOffset
    exact ⟨siteOf_base inRam d (Option.some.inj sameSite),rfl⟩
  · rintro ⟨rfl,rfl⟩
    rfl

end Keys

end Rsleigh.Decompile.Lineage
