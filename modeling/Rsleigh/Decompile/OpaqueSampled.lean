import Rsleigh.Decompile.OpaqueExact

namespace Rsleigh.Decompile.OpaquePred

open Pcode

section Valuations

variable (vars : List VarDef) (val : VarId → Nat)

-- A variable whose definition is interpreted as it computes. A leaf that is copied is not cut to its size.
def Supported (u : VarId) : Prop :=
  foldableWidth (varAt vars u).size = true ∧
    match (varAt vars u).expr with
    | .var arg => isLeaf (varAt vars arg).expr = false ∨ (varAt vars u).size.toNat ≤ (varAt vars arg).size.toNat
    | .binOp op left right =>
      BinSupported op (varAt vars left).size (varAt vars right).size (varAt vars u).size (val left) (val right)
    | .unaryOp op arg =>
      UnSupported op (varAt vars arg).expr (varAt vars arg).size (varAt vars u).size (val arg)
    | _ => True

-- A boolean whose cone is interpreted as it computes.
structure Interpretable (cond : VarId) : Prop where
  boolean : val cond ≤ 1
  cone : ∀ u, Below (leaved vars) cond u → Supported vars val u

-- What the leaves are given, cut to their sizes.
structure Follows (env : Env) (sample : VarId → Option UInt64) : Prop where
  valued : Valuation env vars val
  leaves : ∀ u x, sample u = some x → val u = x.toNat % 2 ^ (8 * (varAt vars u).size.toNat)

end Valuations

section Interp

variable {env : Env} {vars : List VarDef} {val : VarId → Nat} {sample : VarId → Option UInt64}

theorem sizeOr_varAt {id : VarId} (foldable : foldableWidth (varAt vars id).size = true) (missing : UInt32) :
    sizeOr vars id missing = (varAt vars id).size := by
  unfold sizeOr varAt at *
  cases found : vars[id]? with
  | none =>
    rw [found] at foldable
    cases foldable
  | some vdef => rfl

-- What is interpreted is the value of the variable, or of a leaf that is yet to be cut to its size.
theorem interp_exact (follows : Follows vars val env sample)
    (onlyLeaves : ∀ u x, sample u = some x → isLeaf (varAt vars u).expr = true) :
    ∀ (depth : Nat) (v : VarId) (r : UInt64), (∀ u, Below (leaved vars) v u → Supported vars val u) →
      interp vars sample depth v = some r →
      r.toNat % 2 ^ (8 * (varAt vars v).size.toNat) = val v ∧ (isLeaf (varAt vars v).expr = false → r.toNat = val v) := by
  intro depth
  induction depth with
  | zero =>
    intro v r _ interpreted
    cases interpreted
  | succ depth ih =>
    intro v r supported interpreted
    rw [interp] at interpreted
    cases given : sample v with
    | some x =>
      rw [given] at interpreted
      cases interpreted
      refine ⟨(follows.leaves v r given).symm,fun inner => ?_⟩
      rw [onlyLeaves v r given] at inner
      cases inner
    | none =>
      simp only [given] at interpreted
      cases found : vars[v]? with
      | none =>
        rw [found] at interpreted
        cases interpreted
      | some vdef =>
        have isDef : varAt vars v = vdef := by rw [varAt,found,Option.getD_some]
        simp only [found,Option.map_eq_some_iff] at interpreted
        obtain ⟨raw,isRaw,masked⟩ := interpreted
        obtain ⟨foldable,here⟩ := supported v Relation.ReflTransGen.refl
        -- The value of the definition, at the width of the variable.
        have settled : ∀ value, exprValue env (leaved vars) val vdef.size vdef.expr = some value →
            isLeaf vdef.expr = false → AtWidth vdef.size raw value →
            r.toNat % 2 ^ (8 * (varAt vars v).size.toNat) = val v ∧
              (isLeaf (varAt vars v).expr = false → r.toNat = val v) := by
          intro value isValue inner exact
          have computed := (follows.valued v).computed value
          rw [size_leaved,expr_leaved (by rw [isDef]; exact inner),isDef] at computed
          have isVal : r.toNat = val v := by
            rw [← masked,toNat_masked (isDef ▸ foldable),computed isValue]
            exact exact
          refine ⟨?_,fun _ => isVal⟩
          rw [isVal]
          have within := (follows.valued v).within
          rw [size_leaved] at within
          exact Nat.mod_eq_of_lt within
        have operand : ∀ u, u ∈ vdef.expr.operands → isLeaf vdef.expr = false →
            ∀ w, Below (leaved vars) u w → Supported vars val w := by
          intro u used inner w below
          refine supported w (.head ?_ below)
          rw [UsedBy,expr_leaved (by rw [isDef]; exact inner),isDef]
          exact used
        rw [isDef] at here
        cases expr : vdef.expr with
        | const c size =>
          rw [expr] at isRaw
          cases isRaw
          exact settled raw.toNat (by rw [expr]; rfl) (by rw [expr]; rfl) rfl
        | var arg =>
          rw [expr] at isRaw here
          obtain ⟨argValue,argExact⟩ := ih arg raw
            (operand arg (by rw [expr]; exact List.mem_singleton_self _) (by rw [expr]; rfl)) isRaw
          refine settled (val arg) (by rw [expr]; rfl) (by rw [expr]; rfl) ?_
          rcases here with inner | narrower
          · rw [AtWidth,argExact inner]
          · rw [AtWidth,← argValue,Nat.mod_mod_of_dvd]
            exact Nat.pow_dvd_pow 2 (Nat.mul_le_mul_left 8 narrower)
        | binOp op left right =>
          rw [expr] at isRaw here
          have leftCone := operand left (by rw [expr]; exact List.mem_cons_self) (by rw [expr]; rfl)
          have rightCone := operand right (by rw [expr]; exact List.mem_cons_of_mem _ List.mem_cons_self) (by rw [expr]; rfl)
          have leftFoldable := (leftCone left Relation.ReflTransGen.refl).1
          cases leftRun : interp vars sample depth left with
          | none =>
            simp only [leftRun] at isRaw
            cases isRaw
          | some a =>
            cases rightRun : interp vars sample depth right with
            | none =>
              simp only [leftRun,rightRun] at isRaw
              cases isRaw
            | some b =>
              simp only [leftRun,rightRun,sizeOr_varAt leftFoldable] at isRaw
              have leftValue := (ih left a leftCone leftRun).1
              have rightValue := (ih right b rightCone rightRun).1
              refine settled _ (by rw [expr]; rfl) (by rw [expr]; rfl) ?_
              rw [size_leaved]
              exact applyBinop_exact leftFoldable (rightCone right Relation.ReflTransGen.refl).1 here leftValue rightValue isRaw
        | unaryOp op arg =>
          rw [expr] at isRaw here
          have argCone := operand arg (by rw [expr]; exact List.mem_singleton_self _) (by rw [expr]; rfl)
          have argFoldable := (argCone arg Relation.ReflTransGen.refl).1
          cases argRun : interp vars sample depth arg with
          | none =>
            simp only [argRun] at isRaw
            cases isRaw
          | some a =>
            simp only [argRun,sizeOr_varAt argFoldable] at isRaw
            obtain ⟨argValue,argExact⟩ := ih arg a argCone argRun
            refine settled _ (by rw [expr]; rfl) (by rw [expr]; rfl) ?_
            rw [size_leaved]
            rw [isDef] at foldable
            exact applyUnop_exact argFoldable foldable here argValue argExact isRaw
        | load _ | fieldAccess _ _ | phi _ | ternary _ _ _ | userOp _ _ | unknown =>
          rw [expr] at isRaw
          cases isRaw

end Interp

section Trials

variable {vars : List VarDef} {cond : VarId}

theorem walk_leaves (vars : List VarDef) : ∀ (depth : Nat) (v : VarId) (found : List VarId × List VarId),
    (∀ u ∈ found.2, isLeaf (varAt vars u).expr = true) →
    ∀ u ∈ (walk vars depth v found).2, isLeaf (varAt vars u).expr = true := by
  intro depth
  induction depth with
  | zero => exact fun v found known => known
  | succ depth ih =>
    rintro v ⟨seen,out⟩ known
    rw [walk]
    by_cases before : v ∈ seen
    · rw [if_pos before]
      exact known
    · rw [if_neg before]
      have added : isLeaf (varAt vars v).expr = true → ∀ u ∈ out ++ [v], isLeaf (varAt vars u).expr = true := by
        intro leaf u member
        rcases List.mem_append.mp member with old | new
        · exact known u old
        · rw [List.mem_singleton.mp new]
          exact leaf
      cases found : vars[v]? with
      | none =>
        refine added ?_
        rw [varAt,found]
        rfl
      | some vdef =>
        have isDef : varAt vars v = vdef := by rw [varAt,found,Option.getD_some]
        rw [isDef] at added
        cases expr : vdef.expr with
        | const c size =>
          simp only [expr]
          exact known
        | var arg =>
          simp only [expr]
          exact ih arg _ known
        | unaryOp op arg =>
          simp only [expr]
          exact ih arg _ known
        | binOp op left right =>
          simp only [expr]
          exact ih right _ (ih left _ known)
        | load _ | fieldAccess _ _ | phi _ | ternary _ _ _ | userOp _ _ | unknown =>
          simp only [expr]
          exact added (by rw [expr]; rfl)

theorem collectFreeVars_leaf {u : VarId} (free : u ∈ collectFreeVars cond vars) : isLeaf (varAt vars u).expr = true :=
  walk_leaves vars _ cond ([],[]) (fun _ member => absurd member List.not_mem_nil) u free

theorem sampleFrom_free (trial : Nat) : ∀ (free : List VarId) (idx : Nat) (sampled : UInt64 × (VarId → Option UInt64))
    (u : VarId) (x : UInt64), (sampleFrom trial idx free sampled).2 u = some x → sampled.2 u = some x ∨ u ∈ free := by
  intro free
  induction free with
  | nil => exact fun idx sampled u x given => .inl given
  | cons v rest ih =>
    rintro idx ⟨state,sample⟩ u x given
    have later : ∀ state' value, (sampleFrom trial (idx + 1) rest (state',Function.update sample v (some value))).2 u = some x →
        sample u = some x ∨ u ∈ v :: rest := by
      intro state' value isGiven
      rcases ih _ _ u x isGiven with before | after
      · by_cases same : u = v
        · exact .inr (same ▸ List.mem_cons_self)
        · change Function.update sample v (some value) u = some x at before
          rw [Function.update_of_ne same] at before
          exact .inl before
      · exact .inr (List.mem_cons_of_mem _ after)
    rw [sampleFrom] at given
    cases edge : edgeEnvs[trial]? with
    | some e =>
      simp only [edge] at given
      exact later _ _ given
    | none =>
      simp only [edge] at given
      exact later _ _ given

-- The state of the generator before a trial, and what the trial gives to the free variables.
def stateAt (free : List VarId) : Nat → UInt64
  | 0 => 0x9e3779b97f4a7c15
  | trial + 1 => (sampleTrial free trial (stateAt free trial)).1

def sampleAt (cond : VarId) (vars : List VarDef) (trial : Nat) : VarId → Option UInt64 :=
  (sampleTrial (collectFreeVars cond vars) trial (stateAt (collectFreeVars cond vars) trial)).2

theorem sampleAt_leaf {trial : Nat} {u : VarId} {x : UInt64} (given : sampleAt cond vars trial u = some x) :
    isLeaf (varAt vars u).expr = true := by
  rcases sampleFrom_free trial _ 0 _ u x given with nothing | free
  · cases nothing
  · exact collectFreeVars_leaf free

def trials : Nat := samples + edgeEnvs.length

def BranchClass.taken : BranchClass → Bool
  | .alwaysTaken => true
  | .neverTaken => false

theorem classifyFrom_agrees {free : List VarId} {verdict : BranchClass} : ∀ (left trial : Nat) (first : Option Bool),
    classifyFrom vars cond free left trial (stateAt free trial) first = some verdict →
    (∀ before ∈ first, before = verdict.taken) ∧ ∀ i < left, ∃ r,
      interp vars (sampleTrial free (trial + i) (stateAt free (trial + i))).2 (maxDepth + 1) cond = some r ∧
        (r &&& 1 != 0) = verdict.taken := by
  intro left
  induction left with
  | zero =>
    intro trial first classified
    rw [classifyFrom,Option.map_eq_some_iff] at classified
    obtain ⟨truthy,rfl,rfl⟩ := classified
    refine ⟨fun before isBefore => ?_,fun i small => absurd small (Nat.not_lt_zero i)⟩
    obtain rfl : truthy = before := by simpa using isBefore
    cases truthy <;> rfl
  | succ left ih =>
    intro trial first classified
    rw [classifyFrom] at classified
    cases run : interp vars (sampleTrial free trial (stateAt free trial)).2 (maxDepth + 1) cond with
    | none =>
      rw [run] at classified
      cases classified
    | some r =>
      simp only [run] at classified
      have spread : (r &&& 1 != 0) = verdict.taken →
          (∀ i < left, ∃ r, interp vars (sampleTrial free (trial + 1 + i) (stateAt free (trial + 1 + i))).2 (maxDepth + 1) cond =
            some r ∧ (r &&& 1 != 0) = verdict.taken) →
          ∀ i < left + 1, ∃ r, interp vars (sampleTrial free (trial + i) (stateAt free (trial + i))).2 (maxDepth + 1) cond =
            some r ∧ (r &&& 1 != 0) = verdict.taken := by
        intro here later i small
        cases i with
        | zero => exact ⟨r,run,here⟩
        | succ i =>
          have next := later i (Nat.lt_of_succ_lt_succ small)
          rw [Nat.add_assoc,Nat.add_comm 1 i] at next
          exact next
      cases first with
      | none =>
        obtain ⟨agreed,rest⟩ := ih (trial + 1) _ classified
        exact ⟨fun before isBefore => absurd isBefore (by simp),spread (agreed _ rfl) rest⟩
      | some before =>
        by_cases same : before = (r &&& 1 != 0)
        · simp only [if_pos same] at classified
          obtain ⟨agreed,rest⟩ := ih (trial + 1) _ classified
          exact ⟨agreed,spread (same ▸ agreed before rfl) rest⟩
        · simp only [if_neg same] at classified
          cases classified

theorem classifyBranch_agrees {verdict : BranchClass} (classified : classifyBranch cond vars = some verdict)
    {trial : Nat} (inside : trial < trials) :
    ∃ r, interp vars (sampleAt cond vars trial) (maxDepth + 1) cond = some r ∧ (r &&& 1 != 0) = verdict.taken := by
  unfold classifyBranch at classified
  split at classified
  · cases classified
  · have agreed := (classifyFrom_agrees trials 0 none classified).2 trial inside
    rw [Nat.zero_add] at agreed
    exact agreed

end Trials

section Branches

variable {env : Env} {vars : List VarDef} {cond : VarId} {verdict : BranchClass}

theorem verdict_sampled (classified : classifyBranch cond vars = some verdict) {trial : Nat} (inside : trial < trials)
    {val : VarId → Nat} (follows : Follows vars val env (sampleAt cond vars trial)) (sound : Interpretable vars val cond) :
    (val cond ≠ 0 ↔ verdict = .alwaysTaken) := by
  obtain ⟨r,interpreted,truthy⟩ := classifyBranch_agrees classified inside
  have value := (interp_exact follows (fun u x => sampleAt_leaf) _ cond r sound.cone interpreted).1
  have foldable := (sound.cone cond Relation.ReflTransGen.refl).1
  have bit := bool_bit foldable value sound.boolean
  have isTaken : (val cond ≠ 0) ↔ verdict.taken = true := by
    rw [← bit,← truthy,bne_iff_ne,Ne,Ne,← UInt64.toNat_inj]
    rfl
  rw [isTaken]
  cases verdict <;> simp [BranchClass.taken]

-- A condition that holds under every valuation or under none.
def Constant (env : Env) (vars : List VarDef) (cond : VarId) : Prop :=
  ∀ val val', Valuation env vars val → Valuation env vars val' → (val cond ≠ 0 ↔ val' cond ≠ 0)

-- There the values of every trial are interpreted as they compute.
structure Settled (env : Env) (vars : List VarDef) (cond : VarId) : Prop where
  constant : Constant env vars cond
  sound : ∀ trial < trials, ∀ val, Follows vars val env (sampleAt cond vars trial) → Interpretable vars val cond

theorem follows_exists (acyclic : WellFounded fun used id => UsedBy vars id used) (trial : Nat) :
    ∃ val, Follows vars val env (sampleAt cond vars trial) := by
  have leavedAcyclic : WellFounded fun used id => UsedBy (leaved vars) id used :=
    Subrelation.wf (fun uses => usedBy_leaved uses) acyclic
  let leaf (u : VarId) : Nat := ((sampleAt cond vars trial u).map UInt64.toNat).getD 0
  refine ⟨valuesFrom env leavedAcyclic leaf,fun u => valuesFrom_holds env leavedAcyclic leaf u,fun u x given => ?_⟩
  have isLeafOne : exprValue env (leaved vars) (valuesFrom env leavedAcyclic leaf) (varAt (leaved vars) u).size
      (varAt (leaved vars) u).expr = none := by
    rw [leaf_leaved (sampleAt_leaf given)]
    rfl
  rw [valuesFrom_leaf env leavedAcyclic isLeafOne,size_leaved]
  simp only [leaf,given,Option.map_some,Option.getD_some]

theorem settled_verdict (acyclic : WellFounded fun used id => UsedBy vars id used) (settled : Settled env vars cond)
    (classified : classifyBranch cond vars = some verdict) {val : VarId → Nat} (valued : Valuation env vars val) :
    (val cond ≠ 0 ↔ verdict = .alwaysTaken) := by
  obtain ⟨sampled,follows⟩ : ∃ sampled, Follows vars sampled env (sampleAt cond vars 0) := follows_exists acyclic 0
  rw [settled.constant val sampled valued follows.valued]
  exact verdict_sampled classified (by decide) follows (settled.sound 0 (by decide) sampled follows)

end Branches

section Runs

-- Where a block leads under a valuation.
def nextBlocks (val : VarId → Nat) : SsaTerminator → List BlockId
  | .fallthrough next | .branch next | .call _ _ _ next => [next]
  | .cbranch cond taken fallthrough => [if val cond ≠ 0 then taken else fallthrough]
  | .ret _ | .indirect _ => []

-- The paths that can be executed: the leaves may hold anything, anew at each block.
inductive Executable (env : Env) (ssa : SsaCfg) : BlockId → List BlockId → Prop where
  | here : Executable env ssa block [block]
  | step {val : VarId → Nat} (valued : Valuation env ssa.vars val) (isBlock : ssa.blocks[block]? = some found)
      (leads : next ∈ nextBlocks val found.terminator) (path : Executable env ssa next rest) :
      Executable env ssa block (block :: rest)

-- A table without definition cycles.
structure AcyclicSsa extends SsaCfg where
  acyclic : WellFounded fun used id => UsedBy vars id used

def SettledBranches (env : Env) (ssa : SsaCfg) : Prop :=
  ∀ block ∈ ssa.blocks, ∀ cond taken fallthrough, block.terminator = .cbranch cond taken fallthrough →
    Settled env ssa.vars cond

theorem foldBlock_leads {env : Env} (ssa : AcyclicSsa) (settled : SettledBranches env ssa.toSsaCfg) {block : SsaBlock}
    (inside : block ∈ ssa.blocks) {val : VarId → Nat} (valued : Valuation env ssa.vars val) :
    nextBlocks val (foldBlock ssa.vars block).terminator = nextBlocks val block.terminator := by
  unfold foldBlock foldedTarget
  cases terminator : block.terminator with
  | cbranch cond taken fallthrough =>
    have settledCond := settled block inside cond taken fallthrough terminator
    cases classified : classifyBranch cond ssa.vars with
    | none => simp only [classified,terminator]
    | some verdict =>
      have truth := settled_verdict ssa.acyclic settledCond classified valued
      cases verdict with
      | alwaysTaken => simp only [classified,nextBlocks,if_pos (truth.mpr rfl)]
      | neverTaken =>
        have never : ¬ val cond ≠ 0 := fun holds => absurd (truth.mp holds) (by decide)
        simp only [classified,nextBlocks,if_neg never]
  | _ => simp only [terminator]

theorem executable_fold {env : Env} (ssa : AcyclicSsa) (settled : SettledBranches env ssa.toSsaCfg) (start : BlockId)
    (path : List BlockId) :
    Executable env ssa.toSsaCfg start path ↔ Executable env (foldOpaqueBranches ssa.toSsaCfg).1 start path := by
  have found : ∀ block, (foldOpaqueBranches ssa.toSsaCfg).1.blocks[block]? = (ssa.blocks[block]?).map (foldBlock ssa.vars) :=
    fun block => List.getElem?_map
  constructor
  · intro executable
    induction executable with
    | here => exact .here
    | step valued isBlock leads _ ih =>
      refine .step valued (by rw [found,isBlock]; rfl) ?_ ih
      rw [foldBlock_leads ssa settled (List.mem_of_getElem? isBlock) valued]
      exact leads
  · intro executable
    induction executable with
    | here => exact .here
    | step valued isBlock leads _ ih =>
      rw [found,Option.map_eq_some_iff] at isBlock
      obtain ⟨block,isBlock,rfl⟩ := isBlock
      refine .step valued isBlock ?_ ih
      rw [foldBlock_leads ssa settled (List.mem_of_getElem? isBlock) valued] at leads
      exact leads

-- A comparison with a constant that no trial hits, and a branch on it.
def rare : List VarDef := [plainVar .unknown 8,plainVar (.const 12345 8) 8,plainVar (.binOp .eq 0 1) 1]

def guarded : SsaCfg where
  blocks := [⟨0x1000,[],.cbranch 2 1 2⟩,⟨0x1010,[],.ret none⟩,⟨0x1020,[],.ret none⟩]
  vars := rare
  entry := 0
  diagnostics := []

def rareVal : VarId → Nat
  | 0 => 12345
  | 1 => 12345
  | 2 => 1
  | _ => 0

theorem rareVal_valued : Valuation plainEnv rare rareVal := by
  intro u
  match u with
  | 0 => exact ⟨by decide,fun value computed => by cases computed⟩
  | 1 => exact ⟨by decide,fun value computed => by cases computed; rfl⟩
  | 2 => exact ⟨by decide,fun value computed => by cases computed; rfl⟩
  | _ + 3 => exact ⟨Nat.two_pow_pos _,fun value computed => by cases computed⟩

theorem rare_never : classifyBranch 2 rare = some .neverTaken := by decide +kernel

theorem guarded_folded : (foldOpaqueBranches guarded).1.blocks =
    [⟨0x1000,[],.branch 2⟩,⟨0x1010,[],.ret none⟩,⟨0x1020,[],.ret none⟩] := by
  have folded : foldBlock rare ⟨0x1000,[],.cbranch 2 1 2⟩ = ⟨0x1000,[],.branch 2⟩ := by
    simp only [foldBlock,foldedTarget,rare_never]
  have kept : ∀ addr, foldBlock rare ⟨addr,[],.ret none⟩ = ⟨addr,[],.ret none⟩ := fun addr => rfl
  simp only [foldOpaqueBranches,guarded,List.map_cons,List.map_nil,folded,kept]

end Runs

end Rsleigh.Decompile.OpaquePred
