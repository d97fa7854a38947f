import Rsleigh.Decompile.SmtVerify

namespace Rsleigh.Decompile.SmtVerify

open Pcode BitTerms

-- A table without definition cycles, of variables of 1, 2, 4 and 8 bytes.
structure SizedTable where
  vars : List VarDef
  acyclic : WellFounded fun used id => UsedBy (leaved vars) id used
  sized : ∀ id < vars.length, Sized vars id

section Specification

def isComparison : BinOpKind → Bool
  | .eq | .notEq | .less | .lessEq | .sless | .slessEq => true
  | _ => false

def isArithmetic : BinOpKind → Bool
  | .add | .sub | .mult | .and | .or | .xor | .lsl | .lsr | .asr | .div | .sdiv | .rem | .srem => true
  | _ => false

def isDivision : BinOpKind → Bool
  | .div | .sdiv | .rem | .srem => true
  | _ => false

-- The widths that operators leave: that of the wider operand, or one bit of a comparison.
def binaryBits (kind : BinOpKind) (m n : Nat) : Option Nat :=
  if isArithmetic kind then some (max m n) else if isComparison kind then some 1 else none

def unaryBits (kind : UnaryOpKind) (bits n : Nat) : Option Nat :=
  match kind with
  | .neg | .not => some n
  | .boolNot => some 1
  | .zext | .sext => some (max bits n)
  | .trunc => some bits
  | _ => none

-- The width at which a variable is computed, whatever its size: that of what is copied, of the operands, or a bit.
inductive TermBits (vars : List VarDef) : VarId → Nat → Prop where
  | const (found : vars[v]? = some vdef) (isConst : vdef.expr = .const c size) : TermBits vars v (bitsFor vdef.size)
  | copy (found : vars[v]? = some vdef) (isVar : vdef.expr = .var arg) (argBits : TermBits vars arg n) : TermBits vars v n
  | binary (found : vars[v]? = some vdef) (isBinary : vdef.expr = .binOp kind l r) (leftBits : TermBits vars l m)
      (rightBits : TermBits vars r n) (covered : binaryBits kind m n = some bits) : TermBits vars v bits
  | unary (found : vars[v]? = some vdef) (isUnary : vdef.expr = .unaryOp kind arg) (argBits : TermBits vars arg n)
      (covered : unaryBits kind (bitsFor vdef.size) n = some bits) : TermBits vars v bits
  | leaf (found : vars[v]? = some vdef) (leaf : isLeaf vdef.expr = true) : TermBits vars v (bitsFor vdef.size)

-- What an operator gives for values of these widths.
def binaryAt (kind : BinOpKind) (m n x y : Nat) : Option Nat :=
  (buildBinary kind (.literal x m) (.literal y n)).map (Term.eval fun _ => 0)

def unaryAt (kind : UnaryOpKind) (bits n x : Nat) : Option Nat :=
  (buildUnary kind bits (.literal x n)).map (Term.eval fun _ => 0)

variable (env : Env) (vars : List VarDef)

-- A valuation of the leaves under which nothing that the variable depends on divides by zero.
structure Counts (v : VarId) (val : VarId → Nat) : Prop where
  valued : Valuation env vars val
  divides : ∀ u, Below (leaved vars) v u → ∀ kind l r, (varAt vars u).expr = .binOp kind l r → isDivision kind = true →
    val r ≠ 0

-- A copy does not cut its value, and an operator gives the value of the variable at the widths of its operands. What is
-- truncated has the bits that are kept.
structure WidthsAgree : Prop where
  copies : ∀ v vdef arg n, vars[v]? = some vdef → vdef.expr = .var arg → TermBits vars arg n →
    ∀ val, Counts env vars v val → val arg < 2 ^ (8 * vdef.size.toNat)
  binary : ∀ v vdef kind l r m n value, vars[v]? = some vdef → vdef.expr = .binOp kind l r → TermBits vars l m →
    TermBits vars r n → ∀ val, Counts env vars v val → binaryAt kind m n (val l) (val r) = some value → value = val v
  unary : ∀ v vdef kind arg n value, vars[v]? = some vdef → vdef.expr = .unaryOp kind arg → TermBits vars arg n →
    ∀ val, Counts env vars v val → unaryAt kind (bitsFor vdef.size) n (val arg) = some value → value = val v
  truncated : ∀ (v : VarId) (vdef : VarDef) (arg : VarId) (n : Nat), vars[v]? = some vdef → vdef.expr = .unaryOp .trunc arg → TermBits vars arg n →
    bitsFor vdef.size ≤ n

def Builds (policy : LowerPolicy) (v : VarId) (term : BV) : Prop := ∃ fuel, build policy vars fuel v = some (some term)

-- What is built is well formed and has the value of its variable, so that a verdict on a condition is right.
structure LowersRight : Prop where
  wellFormed : ∀ policy v term, Builds vars policy v term → term.WellFormed
  value : ∀ policy v term, Builds vars policy v term → ∀ val, Counts env vars v val → term.eval val = val v
  tautology : ∀ solver fuel cond, verifyBranch solver vars fuel cond = some .tautology →
    ∀ val, Counts env vars cond val → val cond ≠ 0
  contradiction : ∀ solver fuel cond, verifyBranch solver vars fuel cond = some .contradiction →
    ∀ val, Counts env vars cond val → val cond = 0

end Specification

section Terms

variable {leaf leaf' : VarId → Nat} {a b a' b' : BV}

theorem align_widths (a b : BV) : (align a b).1.width = max a.width b.width ∧ (align a b).2.width = max a.width b.width := by
  unfold align
  split
  · next same => exact ⟨by rw [same,Nat.max_self],by rw [same,Nat.max_self]⟩
  · split
    · next less =>
      simp only [Term.width]
      omega
    · next less =>
      simp only [Term.width]
      omega

theorem align_eval (leaf : VarId → Nat) (a b : BV) : (align a b).1.eval leaf = a.eval leaf ∧ (align a b).2.eval leaf = b.eval leaf := by
  unfold align
  split
  · exact ⟨rfl,rfl⟩
  · split <;> exact ⟨rfl,rfl⟩

theorem align_wellFormed (a b : BV) : ((align a b).1.WellFormed ∧ (align a b).2.WellFormed) ↔ a.WellFormed ∧ b.WellFormed := by
  unfold align
  split
  · rfl
  · split <;> rfl

theorem applyBinary_width {kind : BinOpKind} (same : a.width = b.width) : (applyBinary kind a b).map Term.width = binaryBits kind a.width b.width := by
  cases kind <;> simp [applyBinary,binaryBits,isArithmetic,isComparison,Term.width,same]

theorem applyBinary_wellFormed {kind : BinOpKind} (same : a.width = b.width) {t : BV} (applied : applyBinary kind a b = some t) :
    t.WellFormed ↔ a.WellFormed ∧ b.WellFormed := by
  cases kind <;> cases applied <;> simp [Term.WellFormed,same]

theorem applyBinary_eval {kind : BinOpKind} (widths : a'.width = a.width) (left : a'.eval leaf' = a.eval leaf) (right : b'.eval leaf' = b.eval leaf) :
    (applyBinary kind a' b').map (Term.eval leaf') = (applyBinary kind a b).map (Term.eval leaf) := by
  cases kind <;> simp only [applyBinary,Option.map_some,Option.map_none,Term.eval,widths,left,right]

theorem buildBinary_width (kind : BinOpKind) (a b : BV) :
    (buildBinary kind a b).map Term.width = binaryBits kind a.width b.width := by
  obtain ⟨left,right⟩ := align_widths a b
  rw [buildBinary,applyBinary_width (left.trans right.symm),left,right]
  unfold binaryBits
  rw [Nat.max_self]

theorem buildBinary_wellFormed {kind : BinOpKind} {t : BV} (built : buildBinary kind a b = some t) :
    t.WellFormed ↔ a.WellFormed ∧ b.WellFormed := by
  obtain ⟨left,right⟩ := align_widths a b
  rw [applyBinary_wellFormed (left.trans right.symm) built,align_wellFormed]

theorem buildBinary_eval (leaf : VarId → Nat) (kind : BinOpKind) (a b : BV) :
    (buildBinary kind a b).map (Term.eval leaf) = binaryAt kind a.width b.width (a.eval leaf) (b.eval leaf) := by
  symm
  refine applyBinary_eval ?_ ?_ ?_
  · rw [(align_widths _ _).1,(align_widths _ _).1,← Term.width_frozen leaf a,← Term.width_frozen leaf b]
    rfl
  · rw [(align_eval _ _ _).1,(align_eval _ _ _).1]
    exact Term.eval_frozen leaf _ a
  · rw [(align_eval _ _ _).2,(align_eval _ _ _).2]
    exact Term.eval_frozen leaf _ b

theorem buildUnary_width (kind : UnaryOpKind) {bits : Nat} (positive : 0 < bits) (a : BV) :
    (buildUnary kind bits a).map Term.width = unaryBits kind bits a.width := by
  cases kind <;> simp [buildUnary,unaryBits,Term.width] <;> omega

theorem buildUnary_wellFormed {kind : UnaryOpKind} {bits : Nat} (positive : 0 < bits) {t : BV} (built : buildUnary kind bits a = some t) :
    t.WellFormed ↔ a.WellFormed ∧ (kind = .trunc → bits ≤ a.width) := by
  cases kind <;> cases built <;> simp [Term.WellFormed,fromU64,Term.width]
  omega

theorem buildUnary_eval (leaf : VarId → Nat) (kind : UnaryOpKind) (bits : Nat) (a : BV) :
    (buildUnary kind bits a).map (Term.eval leaf) = unaryAt kind bits a.width (a.eval leaf) := by
  have frozen := Term.eval_frozen leaf (fun _ => 0) a
  have width := Term.width_frozen leaf a
  change _ = (buildUnary kind bits (a.frozen leaf)).map _
  cases kind <;> simp only [buildUnary,Option.map_some,Option.map_none,Term.eval,frozen,width,fromU64]

end Terms

section Build

variable {vars : List VarDef} {policy : LowerPolicy}

theorem build_mono : ∀ (fuel : Nat) (v : VarId) (answer : Option BV), build policy vars fuel v = some answer →
    ∀ more, build policy vars (fuel + more) v = some answer := by
  intro fuel
  induction fuel with
  | zero =>
    intro v answer built
    cases built
  | succ fuel ih =>
    intro v answer built more
    rw [Nat.add_right_comm]
    rw [build] at built ⊢
    cases found : vars[v]? with
    | none =>
      rw [found] at built
      exact built
    | some vdef =>
      simp only [found] at built ⊢
      cases expr : vdef.expr with
      | var arg =>
        simp only [expr] at built ⊢
        exact ih arg answer built more
      | unaryOp kind arg =>
        simp only [expr] at built ⊢
        cases argBuilt : build policy vars fuel arg with
        | none =>
          simp only [argBuilt] at built
          cases built
        | some a =>
          rw [ih arg a argBuilt more]
          rw [argBuilt] at built
          exact built
      | binOp kind l r =>
        simp only [expr] at built ⊢
        cases leftBuilt : build policy vars fuel l with
        | none =>
          simp only [leftBuilt] at built
          cases built
        | some a =>
          rw [ih l a leftBuilt more]
          rw [leftBuilt] at built
          cases a with
          | none => exact built
          | some a =>
            simp only at built ⊢
            cases rightBuilt : build policy vars fuel r with
            | none =>
              simp only [rightBuilt] at built
              cases built
            | some b =>
              rw [ih r b rightBuilt more]
              rw [rightBuilt] at built
              exact built
      | const c size =>
        simp only [expr] at built ⊢
        exact built
      | load _ | fieldAccess _ _ | phi _ | ternary _ _ _ | userOp _ _ | unknown =>
        simp only [expr] at built ⊢
        exact built

-- How the terms are built, by the definitions of the variables.
inductive Built (vars : List VarDef) (policy : LowerPolicy) : VarId → BV → Prop where
  | const {v : VarId} {vdef : VarDef} {c : UInt64} {size : UInt32} (found : vars[v]? = some vdef) (isConst : vdef.expr = .const c size) :
      Built vars policy v (fromU64 c (bitsFor vdef.size))
  | copy {v : VarId} {vdef : VarDef} {arg : VarId} (found : vars[v]? = some vdef) (isVar : vdef.expr = .var arg)
      (inner : Built vars policy arg t) : Built vars policy v t
  | binary {v : VarId} {vdef : VarDef} {kind : BinOpKind} {l r : VarId} (found : vars[v]? = some vdef)
      (isBinary : vdef.expr = .binOp kind l r) (left : Built vars policy l a) (right : Built vars policy r b)
      (term : buildBinary kind a b = some t) : Built vars policy v t
  | unary {v : VarId} {vdef : VarDef} {kind : UnaryOpKind} {arg : VarId} (found : vars[v]? = some vdef)
      (isUnary : vdef.expr = .unaryOp kind arg) (inner : Built vars policy arg a)
      (term : buildUnary kind (bitsFor vdef.size) a = some t) : Built vars policy v t
  | leaf {v : VarId} {vdef : VarDef} (found : vars[v]? = some vdef) (leaf : isLeaf vdef.expr = true) (isSymbolic : policy = .symbolic) :
      Built vars policy v (.leaf v (bitsFor vdef.size))

theorem build_built : ∀ (fuel : Nat) (v : VarId) (t : BV), build policy vars fuel v = some (some t) → Built vars policy v t := by
  intro fuel
  induction fuel with
  | zero =>
    intro v t built
    cases built
  | succ fuel ih =>
    intro v t built
    rw [build] at built
    cases found : vars[v]? with
    | none =>
      rw [found] at built
      cases built
    | some vdef =>
      simp only [found] at built
      cases expr : vdef.expr with
      | const c size =>
        simp only [expr] at built
        cases built
        exact .const found expr
      | var arg =>
        simp only [expr] at built
        exact .copy found expr (ih arg t built)
      | unaryOp kind arg =>
        simp only [expr] at built
        cases argBuilt : build policy vars fuel arg with
        | none =>
          simp only [argBuilt] at built
          cases built
        | some answer =>
          cases answer with
          | none =>
            simp only [argBuilt] at built
            cases built
          | some a =>
            simp only [argBuilt,Option.some.injEq] at built
            exact .unary found expr (ih arg a argBuilt) built
      | binOp kind l r =>
        simp only [expr] at built
        cases leftBuilt : build policy vars fuel l with
        | none =>
          simp only [leftBuilt] at built
          cases built
        | some answer =>
          cases answer with
          | none =>
            simp only [leftBuilt] at built
            cases built
          | some a =>
            cases rightBuilt : build policy vars fuel r with
            | none =>
              simp only [leftBuilt,rightBuilt] at built
              cases built
            | some answer =>
              cases answer with
              | none =>
                simp only [leftBuilt,rightBuilt] at built
                cases built
              | some b =>
                simp only [leftBuilt,rightBuilt,Option.some.injEq] at built
                exact .binary found expr (ih l a leftBuilt) (ih r b rightBuilt) built
      | load _ | fieldAccess _ _ | phi _ | ternary _ _ _ | userOp _ _ | unknown =>
        simp only [expr] at built
        cases policy with
        | symbolic =>
          cases built
          exact .leaf found (by rw [expr]; rfl) rfl
        | rejectUnsupported => cases built

theorem built_builds {v : VarId} {t : BV} (built : Built vars policy v t) : Builds vars policy v t := by
  induction built with
  | const found isConst =>
    refine ⟨1,?_⟩
    simp only [build,found,isConst]
  | copy found isVar _ ih =>
    obtain ⟨fuel,inner⟩ := ih
    refine ⟨fuel + 1,?_⟩
    simp only [build,found,isVar,inner]
  | binary found isBinary _ _ term leftHypothesis rightHypothesis =>
    obtain ⟨fuel,left⟩ := leftHypothesis
    obtain ⟨fuel',right⟩ := rightHypothesis
    have left' := build_mono fuel _ _ left fuel'
    have right' := build_mono fuel' _ _ right fuel
    rw [Nat.add_comm] at right'
    refine ⟨fuel + fuel' + 1,?_⟩
    simp only [build,found,isBinary,left',right',term]
  | unary found isUnary _ term ih =>
    obtain ⟨fuel,inner⟩ := ih
    refine ⟨fuel + 1,?_⟩
    simp only [build,found,isUnary,inner,term]
  | leaf found leaf isSymbolic =>
    refine ⟨1,?_⟩
    subst isSymbolic
    simp only [build,found]
    split <;> first | rfl | (rename_i expr; rw [expr] at leaf; cases leaf)

theorem builds_iff {v : VarId} {t : BV} : Builds vars policy v t ↔ Built vars policy v t :=
  ⟨fun ⟨fuel,built⟩ => build_built fuel v t built,built_builds⟩

-- With enough fuel there is an answer.
theorem build_returns (table : SizedTable) (policy : LowerPolicy) (v : VarId) :
    ∃ fuel answer, build policy table.vars fuel v = some answer := by
  induction v using table.acyclic.induction with
  | _ v ih =>
    cases found : table.vars[v]? with
    | none => exact ⟨1,none,by simp only [build,found]⟩
    | some vdef =>
      have isDef : varAt table.vars v = vdef := by rw [varAt,found,Option.getD_some]
      have operand : ∀ u ∈ vdef.expr.operands, isLeaf vdef.expr = false →
          ∃ fuel answer, build policy table.vars fuel u = some answer := by
        intro u used inner
        refine ih u ?_
        rw [UsedBy,expr_leaved (by rw [isDef]; exact inner),isDef]
        exact used
      cases expr : vdef.expr with
      | const c size => exact ⟨1,_,by simp only [build,found,expr]; rfl⟩
      | var arg =>
        obtain ⟨fuel,answer,built⟩ := operand arg (by rw [expr]; exact List.mem_singleton_self _) (by rw [expr]; rfl)
        exact ⟨fuel + 1,answer,by simp only [build,found,expr,built]⟩
      | unaryOp kind arg =>
        obtain ⟨fuel,answer,built⟩ := operand arg (by rw [expr]; exact List.mem_singleton_self _) (by rw [expr]; rfl)
        cases answer with
        | none => exact ⟨fuel + 1,none,by simp only [build,found,expr,built]⟩
        | some a => exact ⟨fuel + 1,_,by simp only [build,found,expr,built]; rfl⟩
      | binOp kind l r =>
        obtain ⟨fuel,answer,left⟩ := operand l (by rw [expr]; exact List.mem_cons_self) (by rw [expr]; rfl)
        obtain ⟨fuel',answer',right⟩ :=
          operand r (by rw [expr]; exact List.mem_cons_of_mem _ List.mem_cons_self) (by rw [expr]; rfl)
        have left' := build_mono fuel _ _ left fuel'
        have right' := build_mono fuel' _ _ right fuel
        rw [Nat.add_comm] at right'
        cases answer with
        | none => exact ⟨fuel + fuel' + 1,none,by simp only [build,found,expr,left']⟩
        | some a =>
          cases answer' with
          | none => exact ⟨fuel + fuel' + 1,none,by simp only [build,found,expr,left',right']⟩
          | some b => exact ⟨fuel + fuel' + 1,_,by simp only [build,found,expr,left',right']; rfl⟩
      | load _ | fieldAccess _ _ | phi _ | ternary _ _ _ | userOp _ _ | unknown =>
        cases policy with
        | symbolic => exact ⟨1,_,by simp only [build,found,expr]; rfl⟩
        | rejectUnsupported => exact ⟨1,_,by simp only [build,found,expr]; rfl⟩

end Build

section Widths

variable {env : Env} {table : SizedTable} {policy : LowerPolicy} {v : VarId} {vdef : VarDef} {val : VarId → Nat}

theorem bitsFor_sized (table : SizedTable) (found : table.vars[v]? = some vdef) :
    bitsFor vdef.size = 8 * vdef.size.toNat ∧ 0 < bitsFor vdef.size := by
  obtain ⟨inRange,_⟩ := List.getElem?_eq_some_iff.mp found
  have sized := table.sized v inRange
  rw [Sized,varAt,found,Option.getD_some] at sized
  generalize vdef.size = size at *
  simp only [List.mem_cons,List.not_mem_nil,or_false] at sized
  rcases sized with rfl | rfl | rfl | rfl <;> exact ⟨rfl,by decide⟩

theorem built_bits {t : BV} (built : Built table.vars policy v t) : TermBits table.vars v t.width := by
  induction built with
  | const found isConst => exact .const found isConst
  | copy found isVar _ ih => exact .copy found isVar ih
  | @binary v t a b vdef kind l r found isBinary _ _ term leftHypothesis rightHypothesis =>
    refine .binary found isBinary leftHypothesis rightHypothesis ?_
    rw [← buildBinary_width,term,Option.map_some]
  | @unary v t a vdef kind arg found isUnary _ term ih =>
    refine .unary found isUnary ih ?_
    rw [← buildUnary_width kind (bitsFor_sized table found).2,term,Option.map_some]
  | leaf found leaf isSymbolic => exact .leaf found leaf

theorem bits_built {n : Nat} (bits : TermBits table.vars v n) : ∃ t, Built table.vars .symbolic v t ∧ t.width = n := by
  induction bits with
  | const found isConst => exact ⟨_,.const found isConst,rfl⟩
  | copy found isVar _ ih =>
    obtain ⟨t,built,width⟩ := ih
    exact ⟨t,.copy found isVar built,width⟩
  | @binary v m n bits vdef kind l r found isBinary _ _ covered leftHypothesis rightHypothesis =>
    obtain ⟨a,left,rfl⟩ := leftHypothesis
    obtain ⟨b,right,rfl⟩ := rightHypothesis
    rw [← buildBinary_width,Option.map_eq_some_iff] at covered
    obtain ⟨t,term,width⟩ := covered
    exact ⟨t,.binary found isBinary left right term,width⟩
  | @unary v n bits vdef kind arg found isUnary _ covered ih =>
    obtain ⟨a,inner,rfl⟩ := ih
    rw [← buildUnary_width kind (bitsFor_sized table found).2,Option.map_eq_some_iff] at covered
    obtain ⟨t,term,width⟩ := covered
    exact ⟨t,.unary found isUnary inner term,width⟩
  | leaf found leaf => exact ⟨_,.leaf found leaf rfl,rfl⟩

theorem inner_of {expr expr' : Expr} (same : expr = expr') (inner : isLeaf expr' = false) : isLeaf expr = false :=
  same ▸ inner

theorem counts_operand {vars : List VarDef} (counts : Counts env vars v val) (found : vars[v]? = some vdef)
    (inner : isLeaf vdef.expr = false) {u : VarId} (used : u ∈ vdef.expr.operands) : Counts env vars u val := by
  have isDef : varAt vars v = vdef := by rw [varAt,found,Option.getD_some]
  refine ⟨counts.valued,fun w below => counts.divides w (.head ?_ below)⟩
  rw [UsedBy,expr_leaved (by rw [isDef]; exact inner),isDef]
  exact used

theorem counts_value {vars : List VarDef} (counts : Counts env vars v val) (found : vars[v]? = some vdef)
    (inner : isLeaf vdef.expr = false) {value : Nat} (computed : exprValue env (leaved vars) val vdef.size vdef.expr = some value) :
    val v = value % 2 ^ (8 * vdef.size.toNat) := by
  have isDef : varAt vars v = vdef := by rw [varAt,found,Option.getD_some]
  have holds := (counts.valued v).computed value
  rw [size_leaved,expr_leaved (by rw [isDef]; exact inner),isDef] at holds
  exact holds computed

theorem counts_within {vars : List VarDef} (counts : Counts env vars v val) (found : vars[v]? = some vdef) :
    val v < 2 ^ (8 * vdef.size.toNat) := by
  have isDef : varAt vars v = vdef := by rw [varAt,found,Option.getD_some]
  have within := (counts.valued v).within
  rw [size_leaved,isDef] at within
  exact within

theorem built_wellFormed {t : BV} (agree : WidthsAgree env table.vars) (built : Built table.vars policy v t) : t.WellFormed := by
  induction built with
  | const found isConst => trivial
  | copy _ _ _ ih => exact ih
  | binary found isBinary _ _ term leftHypothesis rightHypothesis =>
    exact (buildBinary_wellFormed term).mpr ⟨leftHypothesis,rightHypothesis⟩
  | unary found isUnary inner term ih =>
    refine (buildUnary_wellFormed (bitsFor_sized table found).2 term).mpr ⟨ih,?_⟩
    rintro rfl
    exact agree.truncated _ _ _ _ found isUnary (built_bits inner)
  | leaf found leaf isSymbolic => trivial

theorem built_value {t : BV} (agree : WidthsAgree env table.vars) (built : Built table.vars policy v t)
    (counts : Counts env table.vars v val) : t.eval val = val v := by
  induction built with
  | const found isConst =>
    rw [counts_value counts found (by rw [isConst]; rfl) (by rw [isConst]; rfl),← (bitsFor_sized table found).1]
    rfl
  | copy found isVar inner ih =>
    have inside := inner_of isVar rfl
    have operand := counts_operand counts found inside (by rw [isVar]; exact List.mem_singleton_self _)
    rw [ih operand,counts_value counts found inside (by rw [isVar]; rfl)]
    exact (Nat.mod_eq_of_lt (agree.copies _ _ _ _ found isVar (built_bits inner) val counts)).symm
  | binary found isBinary left right term leftHypothesis rightHypothesis =>
    have inside := inner_of isBinary rfl
    have leftCounts := counts_operand counts found inside (by rw [isBinary]; exact List.mem_cons_self)
    have rightCounts :=
      counts_operand counts found inside (by rw [isBinary]; exact List.mem_cons_of_mem _ List.mem_cons_self)
    refine agree.binary _ _ _ _ _ _ _ _ found isBinary (built_bits left) (built_bits right) val counts ?_
    rw [← leftHypothesis leftCounts,← rightHypothesis rightCounts,← buildBinary_eval,term,Option.map_some]
  | unary found isUnary inner term ih =>
    have inside := inner_of isUnary rfl
    have operand := counts_operand counts found inside (by rw [isUnary]; exact List.mem_singleton_self _)
    refine agree.unary _ _ _ _ _ _ found isUnary (built_bits inner) val counts ?_
    rw [← ih operand,← buildUnary_eval,term,Option.map_some]
  | leaf found leaf isSymbolic =>
    rw [Term.eval,(bitsFor_sized table found).1]
    exact Nat.mod_eq_of_lt (counts_within counts found)

theorem agree_lowers (agree : WidthsAgree env table.vars) : LowersRight env table.vars where
  wellFormed _ _ _ builds := built_wellFormed agree (builds_iff.mp builds)
  value _ _ _ builds _ counts := built_value agree (builds_iff.mp builds) counts
  tautology solver fuel cond verified val counts := by
    intro zero
    unfold verifyBranch at verified
    split at verified
    · cases verified
    · cases verified
    · next c built =>
      split at verified
      · next unsat =>
        refine solver.sound _ unsat val ?_
        rw [Query.holds,built_value agree (build_built fuel cond c built) counts]
        exact zero
      · split at verified <;> cases verified
  contradiction solver fuel cond verified val counts := by
    by_contra nonZero
    unfold verifyBranch at verified
    split at verified
    · cases verified
    · cases verified
    · next c built =>
      split at verified
      · cases verified
      · split at verified
        · next unsat =>
          refine solver.sound _ unsat val ?_
          rw [Query.holds,built_value agree (build_built fuel cond c built) counts]
          exact nonZero
        · cases verified

theorem lowers_agree (right : LowersRight env table.vars) : WidthsAgree env table.vars where
  copies v vdef arg n found isVar bits val counts := by
    obtain ⟨t,inner,_⟩ := bits_built bits
    have operand := counts_operand counts found (by rw [isVar]; rfl) (by rw [isVar]; exact List.mem_singleton_self arg)
    have atArg := right.value .symbolic arg t (builds_iff.mpr inner) val operand
    have atVar := right.value .symbolic v t (builds_iff.mpr (.copy found isVar inner)) val counts
    rw [← atArg,atVar]
    exact counts_within counts found
  binary v vdef kind l r m n value found isBinary leftBits rightBits val counts computed := by
    have inside := inner_of isBinary rfl
    obtain ⟨a,left,rfl⟩ := bits_built leftBits
    obtain ⟨b,right',rfl⟩ := bits_built rightBits
    have leftCounts := counts_operand counts found inside (by rw [isBinary]; exact List.mem_cons_self)
    have rightCounts :=
      counts_operand counts found inside (by rw [isBinary]; exact List.mem_cons_of_mem _ List.mem_cons_self)
    rw [← right.value .symbolic l a (builds_iff.mpr left) val leftCounts,
      ← right.value .symbolic r b (builds_iff.mpr right') val rightCounts,← buildBinary_eval,Option.map_eq_some_iff] at computed
    obtain ⟨t,term,rfl⟩ := computed
    exact right.value .symbolic v t (builds_iff.mpr (.binary found isBinary left right' term)) val counts
  unary v vdef kind arg n value found isUnary bits val counts computed := by
    have inside := inner_of isUnary rfl
    obtain ⟨a,inner,rfl⟩ := bits_built bits
    have operand := counts_operand counts found inside (by rw [isUnary]; exact List.mem_singleton_self arg)
    rw [← right.value .symbolic arg a (builds_iff.mpr inner) val operand,← buildUnary_eval,Option.map_eq_some_iff] at computed
    obtain ⟨t,term,rfl⟩ := computed
    exact right.value .symbolic v t (builds_iff.mpr (.unary found isUnary inner term)) val counts
  truncated v vdef arg n found isUnary bits := by
    obtain ⟨a,inner,rfl⟩ := bits_built bits
    have term : buildUnary .trunc (bitsFor vdef.size) a = some (.extract (bitsFor vdef.size - 1) 0 a) := rfl
    have wellFormed := right.wellFormed .symbolic v _ (builds_iff.mpr (.unary found isUnary inner term))
    exact ((buildUnary_wellFormed (bitsFor_sized table found).2 term).mp wellFormed).2 rfl

-- There is always an answer, and the terms are right exactly when the widths at which they are computed do not matter.
theorem build_right (env : Env) (table : SizedTable) :
    (∀ policy v, ∃ fuel answer, build policy table.vars fuel v = some answer) ∧
      (LowersRight env table.vars ↔ WidthsAgree env table.vars) :=
  ⟨build_returns table,lowers_agree,agree_lowers⟩

end Widths

-- The complement of a comparison that always holds: a byte, and at the width of its term a bit.
def complemented : SizedTable where
  vars := [plainVar .unknown 8,plainVar (.binOp .eq 0 0) 1,plainVar (.unaryOp .not 1) 1]
  acyclic := by
    refine Subrelation.wf (r := fun used id : Nat => used < id) ?_ Nat.lt_wfRel.wf
    intro used id uses
    match id with
    | 0 | _ + 3 => cases uses
    | 1 =>
      obtain rfl : used = 0 := by simpa using (show used ∈ [0,0] from uses)
      exact Nat.zero_lt_one
    | 2 =>
      obtain rfl : used = 1 := by simpa using (show used ∈ [1] from uses)
      exact Nat.one_lt_two
  sized id inRange := by
    match id with
    | 0 | 1 | 2 =>
      unfold Sized
      decide
    | _ + 3 => exact absurd inRange (by simp)

def complementedTerm : BV := .not (.compare .eq (.leaf 0 64) (.leaf 0 64))

def complementedVal : VarId → Nat
  | 1 => 1
  | 2 => 254
  | _ => 0

-- A solver that knows of this condition only.
def complementedSolver : Solver where
  unsat query := decide (query = .nonZero complementedTerm)
  sound query unsat leaf holds := by
    obtain rfl := of_decide_eq_true unsat
    refine holds ?_
    have same : ∀ w x, Comparison.eq.value w x x = 1 := by
      intro w x
      rw [Comparison.value,Comparison.holds,beq_self_eq_true]
      rfl
    change complement 1 (Comparison.eq.value 64 _ _) = 0
    rw [same]
    rfl

theorem complementedVal_counts : Counts plainEnv complemented.vars 2 complementedVal := by
  constructor
  · intro u
    match u with
    | 0 => exact ⟨by decide,fun value computed => by cases computed⟩
    | 1 => exact ⟨by decide,fun value computed => by cases computed; rfl⟩
    | 2 => exact ⟨by decide,fun value computed => by cases computed; rfl⟩
    | _ + 3 => exact ⟨Nat.two_pow_pos _,fun value computed => by cases computed⟩
  · intro u _ kind l r isBinary division
    match u with
    | 0 | 2 | _ + 3 => cases isBinary
    | 1 =>
      cases isBinary
      cases division

-- The condition is 254 and the verdict that it is never taken.
theorem build_complemented :
    verifyBranch complementedSolver complemented.vars 3 2 = some .contradiction ∧
      (∃ val, Counts plainEnv complemented.vars 2 val ∧ complementedTerm.eval val = 0 ∧ val 2 = 254) ∧
      ¬ LowersRight plainEnv complemented.vars := by
  have built : build .symbolic complemented.vars 3 2 = some (some complementedTerm) := rfl
  refine ⟨?_,⟨complementedVal,complementedVal_counts,rfl,rfl⟩,fun right => ?_⟩
  · rfl
  · have value := right.value .symbolic 2 complementedTerm ⟨3,built⟩ complementedVal complementedVal_counts
    exact absurd value (by decide)

end Rsleigh.Decompile.SmtVerify
