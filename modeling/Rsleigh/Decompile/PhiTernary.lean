import Rsleigh.Decompile.DominatorChain
import Rsleigh.Decompile.ReachingStores
import Rsleigh.Decompile.Values

namespace Rsleigh.Decompile.PhiTernary

open Paths

-- fold.rs, `rewrite_conditional_phi_to_ternary`.
abbrev Group := VarId × List BlockId

def successors : SsaTerminator → List BlockId
  | .fallthrough next | .branch next => [next]
  | .cbranch _ taken next => [taken, next]
  | .call _ _ _ next => [next]
  | .ret _ | .indirect _ => []

def enteredOnlyFrom (blocks : List SsaBlock) (arm source : BlockId) : Bool :=
  (List.range blocks.length).all fun id =>
    id = source || arm ∉ ((blocks[id]?).map fun block => successors block.terminator).getD []

structure Branch where
  block : BlockId
  cond : VarId
  taken : BlockId
  next : BlockId

-- The conditional branch at the nearest common dominator, when its arms are entered from it alone.
def commonBranch (dom : List BlockId) (blocks : List SsaBlock) (preds : List BlockId) : Option Branch := do
  let common ← phiNearestCommonDom dom preds
  let block ← blocks[common]?
  match block.terminator with
  | .cbranch cond taken next =>
    if enteredOnlyFrom blocks taken common && enteredOnlyFrom blocks next common then
      some ⟨common, cond, taken, next⟩
    else none
  | _ => none

def groupUnder (dom : List BlockId) (preds : List BlockId) (arm : BlockId) : Bool :=
  preds.all fun pred => phiDomDominates dom arm pred

def addToGroup (input : VarId) (pred : BlockId) : List Group → List Group
  | [] => [(input, [pred])]
  | group :: rest =>
    if group.1 = input then (group.1, group.2 ++ [pred]) :: rest else group :: addToGroup input pred rest

def groupPreds (edges : List (BlockId × VarId)) : List Group :=
  edges.foldl (fun groups edge => addToGroup edge.2 edge.1 groups) []

def splitGroups (dom : List BlockId) (taken next : BlockId) : List Group → Option (List Group × List Group)
  | [] => some ([], [])
  | group :: rest => do
    let inThen := groupUnder dom group.2 taken
    let inElse := groupUnder dom group.2 next
    let (thenGroups, elseGroups) ← splitGroups dom taken next rest
    if inThen && !inElse then some (group :: thenGroups, elseGroups)
    else if inElse && !inThen then some (thenGroups, group :: elseGroups)
    else none

-- A ternary, with the blocks whose branches its conditions come from.
inductive Choice where
  | operand (id : VarId)
  | branch (block : BlockId) (cond : VarId) (then_ else_ : Choice)
  deriving DecidableEq

def nestedVarnode (vars : List VarDef) (size : UInt32) : Pcode.Varnode :=
  ⟨.unique, 0xE1000000 + UInt64.ofNat vars.length, size⟩

-- The recursion goes as deep as there are groups. Variables are made also when it fails later.
def buildNestedPhiTernary (dom : List BlockId) (blocks : List SsaBlock) (size : UInt32) :
    Nat → List Group → List VarDef → Option (VarId × Choice) × List VarDef
  | 0, _, vars => (none, vars)
  | depth + 1, groups, vars =>
    match groups with
    | [group] => (some (group.1, .operand group.1), vars)
    | _ =>
      match commonBranch dom blocks (groups.flatMap Prod.snd) with
      | none => (none, vars)
      | some common =>
        match splitGroups dom common.taken common.next groups with
        | none => (none, vars)
        | some (thenGroups, elseGroups) =>
          if thenGroups.isEmpty || elseGroups.isEmpty then (none, vars)
          else match buildNestedPhiTernary dom blocks size depth thenGroups vars with
            | (none, vars) => (none, vars)
            | (some (thenVar, thenChoice), vars) =>
              match buildNestedPhiTernary dom blocks size depth elseGroups vars with
              | (none, vars) => (none, vars)
              | (some (elseVar, elseChoice), vars) =>
                (some (vars.length, .branch common.block common.cond thenChoice elseChoice),
                  vars ++ [⟨nestedVarnode vars size, .ternary common.cond thenVar elseVar, none, size, false⟩])

def phiResolveVarChain (vars : List VarDef) : Nat → VarId → VarId
  | 0, id => id
  | depth + 1, id =>
    match (varAt vars id).expr with
    | .var inner => phiResolveVarChain vars depth inner
    | _ => id

def constantOf (vars : List VarDef) (id : VarId) : Option UInt64 :=
  match (varAt vars (phiResolveVarChain vars 8 id)).expr with
  | .const value _ => some value
  | _ => none

-- All inputs render as the first one.
def allSameRender (vars : List VarDef) (inputs : List VarId) : Bool :=
  let constants := inputs.map (constantOf vars)
  let distinctConstants := constants.all Option.isSome && constants.any (· != constants.headD none)
  let firstLeaf := phiResolveVarChain vars 8 (inputs.headD 0)
  !distinctConstants && inputs.all fun input =>
    let leaf := phiResolveVarChain vars 8 input
    leaf = firstLeaf || (varAt vars leaf).varnode = (varAt vars firstLeaf).varnode

def sameRender (vars : List VarDef) (thenVal elseVal : VarId) : Bool :=
  let thenLeaf := phiResolveVarChain vars 8 thenVal
  let elseLeaf := phiResolveVarChain vars 8 elseVal
  let distinctConstants := match (varAt vars thenLeaf).expr, (varAt vars elseLeaf).expr with
    | .const a _, .const b _ => a != b
    | _, _ => false
  thenLeaf = elseLeaf || ((varAt vars thenLeaf).varnode = (varAt vars elseLeaf).varnode && !distinctConstants)

-- Which group the branch goes to when it is taken.
def twoArms (dom : List BlockId) (common : Branch) (a b : Group) : Option (VarId × VarId) :=
  if groupUnder dom a.2 common.taken && groupUnder dom b.2 common.next then some (a.1, b.1)
  else if groupUnder dom a.2 common.next && groupUnder dom b.2 common.taken then some (b.1, a.1)
  else none

-- What becomes of one phi: the new variables, and the ternary that replaces it.
def rewritePhi (dom : List BlockId) (blocks : List SsaBlock) (preds : List BlockId) (id : VarId) (inputs : List VarId)
    (vars : List VarDef) : Option Choice × List VarDef :=
  if allSameRender vars inputs then (none, rewriteExpr vars id (.var (inputs.headD 0)))
  else
    let groups := groupPreds (preds.zip inputs)
    match groups with
    | [] => (none, vars)
    | [_] => (none, vars)
    | [a, b] =>
      match commonBranch dom blocks (a.2 ++ b.2) with
      | none => (none, vars)
      | some common =>
        match twoArms dom common a b with
        | none => (none, vars)
        | some (thenVal, elseVal) =>
          if sameRender vars thenVal elseVal then (none, rewriteExpr vars id (.var thenVal))
          else (some (.branch common.block common.cond (.operand thenVal) (.operand elseVal)),
            rewriteExpr vars id (.ternary common.cond thenVal elseVal))
    | _ =>
      match buildNestedPhiTernary dom blocks (varAt vars id).size groups.length groups vars with
      | (none, vars) => (none, vars)
      | (some (result, choice), vars) => (some choice, rewriteExpr vars id (.var result))

-- Where an edge leads to a block that dominates the block it comes from.
def isBackTarget (cfg : Cfg) (dom : List BlockId) (merge : BlockId) : Bool :=
  (List.range cfg.blocks.length).any fun block =>
    (cfg.successors block).any fun succ => succ = merge && phiDomDominates dom succ block

def phiStmts (vars : List VarDef) (count : Nat) (block : SsaBlock) : List (VarId × List VarId) :=
  block.stmts.filterMap fun stmt =>
    match stmt with
    | .assign id =>
      match (varAt vars id).expr with
      | .phi inputs => if inputs.length = count then some (id, inputs) else none
      | _ => none
    | _ => none

-- A phi that was replaced: its block, its operands and the ternary.
structure Replaced where
  merge : BlockId
  id : VarId
  inputs : List VarId
  choice : Choice

def rewriteAll (dom : List BlockId) (blocks : List SsaBlock) (preds : List BlockId) (merge : BlockId) :
    List (VarId × List VarId) → List VarDef × List Replaced → List VarDef × List Replaced
  | [], state => state
  | (id, inputs) :: rest, (vars, replaced) =>
    match rewritePhi dom blocks preds id inputs vars with
    | (none, vars) => rewriteAll dom blocks preds merge rest (vars, replaced)
    | (some choice, vars) => rewriteAll dom blocks preds merge rest (vars, replaced ++ [⟨merge, id, inputs, choice⟩])

def rewriteMerge (cfg : Cfg) (blocks : List SsaBlock) (dom : List BlockId) (state : List VarDef × List Replaced)
    (merge : BlockId) : List VarDef × List Replaced :=
  let preds := cfg.predecessors merge
  if cfg.blocks.length ≤ merge || isBackTarget cfg dom merge || preds.length < 2 then state
  else match blocks[merge]? with
    | none => state
    | some block => rewriteAll dom blocks preds merge (phiStmts state.1 preds.length block) state

def rewriteConditionalPhiToTernary (fuel : Nat) (cfg : Cfg) (ssa : SsaCfg) : Option (List VarDef × List Replaced) :=
  if cfg.blocks.isEmpty then some (ssa.vars, [])
  else (computeDominators fuel cfg).map fun dom =>
    (List.range ssa.blocks.length).foldl (rewriteMerge cfg ssa.blocks dom) (ssa.vars, [])


section Spec

-- Control goes from a block to another; a conditional branch goes by the value of its condition.
def Goes (blocks : List SsaBlock) (a : BlockId) (value : Bool) (b : BlockId) : Prop :=
  ∃ block, blocks[a]? = some block ∧
    match block.terminator with
    | .cbranch _ taken next => b = if value then taken else next
    | terminator => b ∈ successors terminator

-- An execution up to a block: the blocks before it with the values of their conditions, the last one first.
inductive Walk (cfg : Cfg) (blocks : List SsaBlock) : List (BlockId × Bool) → BlockId → Prop where
  | start : Walk cfg blocks [] cfg.entry
  | step : Walk cfg blocks trace a → Goes blocks a value b → b < cfg.blocks.length → Walk cfg blocks ((a,value) :: trace) b

-- A ternary, each condition with its value at the last execution of the branch that it comes from.
def Choice.select (trace : List (BlockId × Bool)) : Choice → Option VarId
  | .operand id => some id
  | .branch block _ then_ else_ =>
    match trace.lookup block with
    | some true => then_.select trace
    | some false => else_.select trace
    | none => none

-- The edge of an operand: of two edges from one branch, the taken one is listed first.
def EntersBy (cfg : Cfg) (blocks : List SsaBlock) (merge : BlockId) (index : Nat) (pred : BlockId) (value : Bool) : Prop :=
  (cfg.predecessors merge)[index]? = some pred ∧ ∀ block cond, blocks[pred]? = some block →
    block.terminator = .cbranch cond merge merge → (value = true ↔ pred ∉ (cfg.predecessors merge).take index)

-- On every execution that enters the block, the ternary is the operand of the edge it entered by.
def Selects (cfg : Cfg) (blocks : List SsaBlock) (replaced : Replaced) : Prop :=
  ∀ trace pred value index operand, Walk cfg blocks trace pred → Goes blocks pred value replaced.merge →
    EntersBy cfg blocks replaced.merge index pred value → replaced.inputs[index]? = some operand →
      replaced.choice.select ((pred,value) :: trace) = some operand

-- The graph of the SSA program is the one that was analysed.
structure Mirrors (cfg : Cfg) (blocks : List SsaBlock) : Prop where
  length : blocks.length = cfg.blocks.length
  same : ∀ (id : BlockId) (block : SsaBlock), blocks[id]? = some block → successors block.terminator = cfg.successors id

-- An operand that comes in from a block that is reached and from one that is not.
def MixedOperand (cfg : Cfg) (replaced : Replaced) : Prop :=
  ∃ (first second : Nat) (p u : BlockId) (operand : VarId), (cfg.predecessors replaced.merge)[first]? = some p ∧
    (cfg.predecessors replaced.merge)[second]? = some u ∧
    replaced.inputs[first]? = some operand ∧ replaced.inputs[second]? = some operand ∧
    Relation.ReflTransGen cfg.Edge cfg.entry p ∧ ¬Relation.ReflTransGen cfg.Edge cfg.entry u

end Spec

section Walks

variable {cfg : RootedCfg} {blocks : List SsaBlock}

theorem goes_successor (goes : Goes blocks a value b) :
    ∃ block, blocks[a]? = some block ∧ b ∈ successors block.terminator := by
  obtain ⟨block,isBlock,target⟩ := goes
  refine ⟨block,isBlock,?_⟩
  split at target
  · rename_i taken next isBranch
    rw [isBranch,successors,target]
    cases value
    · exact List.mem_cons_of_mem _ List.mem_cons_self
    · exact List.mem_cons_self
  · exact target

theorem goes_edge (mirrors : Mirrors cfg.toCfg blocks) (goes : Goes blocks a value b) (inside : b < cfg.blocks.length) :
    cfg.Edge a b := by
  obtain ⟨block,isBlock,member⟩ := goes_successor goes
  exact ⟨mirrors.same a block isBlock ▸ member,inside⟩

theorem walk_path (mirrors : Mirrors cfg.toCfg blocks) (walk : Walk cfg.toCfg blocks trace b) :
    Path cfg.Edge cfg.entry b (b :: trace.map Prod.fst) := by
  induction walk with
  | start => exact .start
  | step before goes inside ih => exact .step ih (goes_edge mirrors goes inside)

theorem edge_goes (mirrors : Mirrors cfg.toCfg blocks) (isEdge : b ∈ cfg.successors a) :
    ∃ value, Goes blocks a value b := by
  have inside : a < blocks.length := mirrors.length ▸ Cfg.successor_inside isEdge
  have isBlock : blocks[a]? = some blocks[a] := List.getElem?_eq_getElem inside
  rw [← mirrors.same a _ isBlock] at isEdge
  unfold Goes
  cases isTerminator : blocks[a].terminator with
  | cbranch cond taken next =>
    rw [isTerminator,successors,List.mem_cons,List.mem_singleton] at isEdge
    rcases isEdge with isTaken | isNext
    · exact ⟨true,_,isBlock,by rw [isTerminator]; exact isTaken⟩
    · exact ⟨false,_,isBlock,by rw [isTerminator]; exact isNext⟩
  | _ => exact ⟨true,_,isBlock,by rw [isTerminator] at isEdge ⊢; exact isEdge⟩

theorem reached_walk (mirrors : Mirrors cfg.toCfg blocks) (reached : Relation.ReflTransGen cfg.Edge cfg.entry b) :
    ∃ trace, Walk cfg.toCfg blocks trace b := by
  induction reached with
  | refl => exact ⟨[],.start⟩
  | tail _ isEdge ih =>
    obtain ⟨trace,walk⟩ := ih
    obtain ⟨value,goes⟩ := edge_goes mirrors isEdge.1
    exact ⟨_,.step walk goes isEdge.2⟩

theorem edge_enters (mirrors : Mirrors cfg.toCfg blocks) (isPred : (cfg.predecessors merge)[index]? = some pred) :
    ∃ value, Goes blocks pred value merge ∧ EntersBy cfg.toCfg blocks merge index pred value := by
  have isEdge : merge ∈ cfg.successors pred := Cfg.mem_predecessors.mp (List.mem_of_getElem? isPred)
  by_cases parallel : ∃ block cond, blocks[pred]? = some block ∧ block.terminator = .cbranch cond merge merge
  · obtain ⟨block,cond,isBlock,isBranch⟩ := parallel
    refine ⟨decide (pred ∉ (cfg.predecessors merge).take index),⟨block,isBlock,?_⟩,isPred,fun _ _ _ _ => decide_eq_true_iff⟩
    rw [isBranch]
    dsimp only
    split <;> rfl
  · obtain ⟨value,goes⟩ := edge_goes mirrors isEdge
    exact ⟨value,goes,isPred,fun block cond isBlock isBranch => absurd ⟨block,cond,isBlock,isBranch⟩ parallel⟩

end Walks

section Arms

variable {cfg : RootedCfg} {blocks : List SsaBlock} {dom : List BlockId} {common : Branch} {preds : List BlockId}

def Branch.arm (common : Branch) (value : Bool) : BlockId := if value then common.taken else common.next

-- What `common_branch` finds.
structure IsCommon (cfg : RootedCfg) (blocks : List SsaBlock) (dom : List BlockId) (preds : List BlockId)
    (common : Branch) : Prop where
  above : ∀ pred ∈ preds, Above dom pred common.block
  nearest : ∀ d, (∀ pred ∈ preds, Above dom pred d) → Above dom common.block d
  goes : ∀ value b, Goes blocks common.block value b ↔ b = common.arm value
  edges : ∀ b, b ∈ cfg.successors common.block ↔ ∃ value, b = common.arm value
  only : ∀ value a, cfg.Edge a (common.arm value) → a = common.block

theorem enteredOnlyFrom_spec (mirrors : Mirrors cfg.toCfg blocks) (entered : enteredOnlyFrom blocks arm source = true)
    (isEdge : cfg.Edge a arm) : a = source := by
  have inside : a < blocks.length := mirrors.length ▸ Cfg.successor_inside isEdge.1
  have isBlock : blocks[a]? = some blocks[a] := List.getElem?_eq_getElem inside
  have holds := List.all_eq_true.mp entered a (List.mem_range.mpr inside)
  rw [isBlock] at holds
  simp only [Option.map_some,Option.getD_some,Bool.or_eq_true,decide_eq_true_eq] at holds
  rcases holds with same | notEntered
  · exact same
  · exact absurd (mirrors.same a _ isBlock ▸ isEdge.1) notEntered

theorem commonBranch_spec (table : DominatorTable cfg dom) (mirrors : Mirrors cfg.toCfg blocks)
    (found : commonBranch dom blocks preds = some common) (inside : ∀ pred ∈ preds, pred < cfg.blocks.length) :
    IsCommon cfg blocks dom preds common := by
  unfold commonBranch at found
  simp only [Option.bind_eq_bind,Option.bind_eq_some_iff] at found
  obtain ⟨block,isNearest,ssaBlock,isBlock,found⟩ := found
  split at found
  · rename_i cond taken next isBranch
    split at found
    · rename_i entered
      obtain ⟨takenOnly,nextOnly⟩ := Bool.and_eq_true_iff.mp entered
      obtain rfl := Option.some.inj found
      obtain ⟨above,nearest⟩ := table.chained.nearest_spec isNearest fun pred member => table.length ▸ inside pred member
      refine ⟨above,nearest,fun value b => ?_,fun b => ?_,fun value a isEdge => ?_⟩
      · constructor
        · rintro ⟨other,isOther,target⟩
          obtain rfl := Option.some.inj (isBlock.symm.trans isOther)
          rw [isBranch] at target
          exact target
        · intro isArm
          exact ⟨ssaBlock,isBlock,by rw [isBranch]; exact isArm⟩
      · rw [← mirrors.same block ssaBlock isBlock,isBranch,successors,List.mem_cons,List.mem_singleton]
        constructor
        · rintro (isTaken | isNext)
          · exact ⟨true,isTaken⟩
          · exact ⟨false,isNext⟩
        · rintro ⟨value,isArm⟩
          cases value
          · exact .inr isArm
          · exact .inl isArm
      · cases value
        · exact enteredOnlyFrom_spec mirrors nextOnly isEdge
        · exact enteredOnlyFrom_spec mirrors takenOnly isEdge
    · cases found
  · cases found

theorem groupUnder_iff (table : DominatorTable cfg dom) (inside : ∀ pred ∈ preds, pred < cfg.blocks.length) :
    groupUnder dom preds arm = true ↔ ∀ pred ∈ preds, Above dom pred arm := by
  unfold groupUnder
  rw [List.all_eq_true]
  exact forall_congr' fun pred => forall_congr' fun member =>
    table.chained.dominates_iff (table.length ▸ inside pred member)

theorem last_arm (mirrors : Mirrors cfg.toCfg blocks) (isCommon : IsCommon cfg blocks dom preds common)
    (reached : Relation.ReflTransGen cfg.Edge cfg.entry common.block) (notEntry : common.arm side ≠ cfg.entry)
    (walk : Walk cfg.toCfg blocks trace b) (dominates : Dominates cfg.Edge cfg.entry (common.arm side) b) :
    ∃ value, trace.lookup common.block = some value ∧ common.arm value = common.arm side := by
  induction walk with
  | start => exact absurd (List.mem_singleton.mp (dominates _ .start)) notEntry
  | @step trace a value b before goes inside ih =>
    have isEdge := goes_edge mirrors goes inside
    rw [List.lookup_cons]
    by_cases isBranch : common.block = a
    · subst isBranch
      rw [beq_self_eq_true]
      refine ⟨value,rfl,?_⟩
      by_contra otherArm
      have behind : common.arm side ≠ b := fun same => otherArm (((isCommon.goes value b).mp goes).symm.trans same.symm)
      exact gate_not_above reached notEntry (isCommon.only side) (dominates_before dominates behind isEdge)
    · rw [beq_false_of_ne isBranch]
      by_cases isArm : common.arm side = b
      · subst isArm
        exact absurd (isCommon.only side a isEdge).symm isBranch
      · exact ih (dominates_before dominates isArm isEdge)

theorem last_leaves (isCommon : IsCommon cfg blocks dom preds common) (walk : Walk cfg.toCfg blocks trace b)
    (isLast : trace.lookup common.block = some value) (back : common.arm value = common.block) : b = common.block := by
  induction walk with
  | start => cases isLast
  | @step trace a taken b before goes _ ih =>
    rw [List.lookup_cons] at isLast
    by_cases isBranch : common.block = a
    · subst isBranch
      rw [beq_self_eq_true] at isLast
      obtain rfl := Option.some.inj isLast
      rw [(isCommon.goes _ _).mp goes,back]
    · rw [beq_false_of_ne isBranch] at isLast
      exact absurd (ih isLast).symm isBranch

variable (table : DominatorTable cfg dom)

include table

theorem common_reached (isCommon : IsCommon cfg blocks dom preds common) (member : pred ∈ preds)
    (reached : Relation.ReflTransGen cfg.Edge cfg.entry pred) : Relation.ReflTransGen cfg.Edge cfg.entry common.block :=
  dominator_reached reached (table.above_dominates (isCommon.above pred member) reached)

theorem not_all_under (isCommon : IsCommon cfg blocks dom preds common) (member : pred ∈ preds)
    (reached : Relation.ReflTransGen cfg.Edge cfg.entry pred) (notEntry : common.arm side ≠ cfg.entry) :
    ¬∀ pred ∈ preds, Above dom pred (common.arm side) := by
  intro under
  have commonReached := common_reached table isCommon member reached
  exact gate_not_above commonReached notEntry (isCommon.only side)
    (table.above_dominates (isCommon.nearest _ under) commonReached)

theorem chosen (mirrors : Mirrors cfg.toCfg blocks) (isCommon : IsCommon cfg blocks dom preds common)
    (member : pred ∈ preds) (walk : Walk cfg.toCfg blocks trace pred) (under : Above dom pred (common.arm side))
    (notEntry : common.arm side ≠ cfg.entry) (apart : common.arm (!side) ≠ common.arm side) :
    ((pred,value) :: trace).lookup common.block = some side := by
  have reached := path_reached (walk_path mirrors walk)
  have dominates := table.above_dominates under reached
  have commonReached := common_reached table isCommon member reached
  have notBranch : common.block ≠ pred := fun same =>
    gate_not_above commonReached notEntry (isCommon.only side) (same ▸ dominates)
  obtain ⟨last,isLast,isArm⟩ := last_arm mirrors isCommon commonReached notEntry walk dominates
  rw [List.lookup_cons,beq_false_of_ne notBranch]
  rw [isLast]
  cases side <;> cases last <;> first | rfl | exact absurd isArm apart

end Arms

section Groups

def InGroups (groups : List Group) (pred : BlockId) (input : VarId) : Prop :=
  ∃ group ∈ groups, group.1 = input ∧ pred ∈ group.2

theorem inGroups_cons {group : Group} : InGroups (group :: groups) pred input ↔
    (group.1 = input ∧ pred ∈ group.2) ∨ InGroups groups pred input := by
  unfold InGroups
  simp

theorem addToGroup_inGroups {groups : List Group} : InGroups (addToGroup input' pred' groups) pred input ↔
    InGroups groups pred input ∨ pred = pred' ∧ input = input' := by
  induction groups with
  | nil =>
    unfold addToGroup
    rw [inGroups_cons,List.mem_singleton]
    have none : ¬InGroups [] pred input := fun ⟨_,member,_⟩ => List.not_mem_nil member
    simp [none,and_comm,eq_comm]
  | cons group rest ih =>
    unfold addToGroup
    split
    · rename_i same
      rw [inGroups_cons,inGroups_cons,List.mem_append,List.mem_singleton]
      subst same
      constructor
      · rintro (⟨rfl,old | rfl⟩ | later)
        · exact .inl (.inl ⟨rfl,old⟩)
        · exact .inr ⟨rfl,rfl⟩
        · exact .inl (.inr later)
      · rintro ((⟨rfl,old⟩ | later) | ⟨rfl,rfl⟩)
        · exact .inl ⟨rfl,.inl old⟩
        · exact .inr later
        · exact .inl ⟨rfl,.inr rfl⟩
    · rw [inGroups_cons,inGroups_cons,ih,or_assoc]

theorem groupPreds_inGroups {edges : List (BlockId × VarId)} {groups : List Group} :
    InGroups (edges.foldl (fun groups edge => addToGroup edge.2 edge.1 groups) groups) pred input ↔
      InGroups groups pred input ∨ (pred,input) ∈ edges := by
  induction edges generalizing groups with
  | nil => simp
  | cons edge rest ih =>
    rw [List.foldl_cons,ih,addToGroup_inGroups,List.mem_cons,or_assoc]
    simp [Prod.ext_iff]

theorem mem_groupPreds {edges : List (BlockId × VarId)} :
    InGroups (groupPreds edges) pred input ↔ (pred,input) ∈ edges := by
  unfold groupPreds
  rw [groupPreds_inGroups]
  have none : ¬InGroups [] pred input := fun ⟨_,member,_⟩ => List.not_mem_nil member
  simp [none]

theorem addToGroup_inputs {groups : List Group} : (addToGroup input pred groups).map Prod.fst =
    if input ∈ groups.map Prod.fst then groups.map Prod.fst else groups.map Prod.fst ++ [input] := by
  induction groups with
  | nil => rfl
  | cons group rest ih =>
    unfold addToGroup
    split
    · rename_i same
      simp [same]
    · rename_i other
      rw [List.map_cons,ih]
      by_cases later : input ∈ rest.map Prod.fst
      · have present : input ∈ (group :: rest).map Prod.fst := List.mem_cons_of_mem _ later
        rw [if_pos later,if_pos present,List.map_cons]
      · have absent : input ∉ (group :: rest).map Prod.fst := by
          rw [List.map_cons,List.mem_cons]
          exact fun found => found.elim (fun same => other same.symm) later
        rw [if_neg later,if_neg absent,List.map_cons,List.cons_append]

theorem groupPreds_nodup (edges : List (BlockId × VarId)) : ((groupPreds edges).map Prod.fst).Nodup := by
  suffices general : ∀ groups : List Group, (groups.map Prod.fst).Nodup →
      ((edges.foldl (fun groups edge => addToGroup edge.2 edge.1 groups) groups).map Prod.fst).Nodup by
    exact general [] .nil
  induction edges with
  | nil => exact fun groups nodup => nodup
  | cons edge rest ih =>
    intro groups nodup
    apply ih
    rw [addToGroup_inputs]
    split
    · exact nodup
    · rename_i absent
      refine List.nodup_append.mpr ⟨nodup,List.pairwise_singleton _ _,fun input old other new same => ?_⟩
      exact absent (List.mem_singleton.mp new ▸ same ▸ old)

theorem group_unique {groups : List Group} (nodup : (groups.map Prod.fst).Nodup) {first second : Group}
    (isFirst : first ∈ groups) (isSecond : second ∈ groups) (same : first.1 = second.1) : first = second :=
  List.inj_on_of_nodup_map nodup isFirst isSecond same

theorem splitGroups_spec {dom : List BlockId} {groups thenGroups elseGroups : List Group}
    (split : splitGroups dom taken next groups = some (thenGroups,elseGroups)) :
    (∀ group, group ∈ groups ↔ group ∈ thenGroups ∨ group ∈ elseGroups) ∧
      (∀ group ∈ thenGroups, groupUnder dom group.2 taken = true ∧ groupUnder dom group.2 next = false) ∧
      ∀ group ∈ elseGroups, groupUnder dom group.2 next = true ∧ groupUnder dom group.2 taken = false := by
  induction groups generalizing thenGroups elseGroups with
  | nil =>
    obtain ⟨rfl,rfl⟩ := Prod.mk.inj (Option.some.inj split)
    exact ⟨fun group => by simp,fun group member => absurd member List.not_mem_nil,
      fun group member => absurd member List.not_mem_nil⟩
  | cons first rest ih =>
    simp only [splitGroups,Option.bind_eq_bind,Option.bind_eq_some_iff] at split
    obtain ⟨⟨thenRest,elseRest⟩,isRest,split⟩ := split
    obtain ⟨members,thens,elses⟩ := ih isRest
    dsimp only at split
    split at split
    · rename_i inThen
      obtain ⟨rfl,rfl⟩ := Prod.mk.inj (Option.some.inj split)
      refine ⟨fun group => by rw [List.mem_cons,List.mem_cons,members,or_assoc],fun group member => ?_,elses⟩
      rcases List.mem_cons.mp member with rfl | member
      · simpa using inThen
      · exact thens group member
    · split at split
      · rename_i inElse
        obtain ⟨rfl,rfl⟩ := Prod.mk.inj (Option.some.inj split)
        refine ⟨fun group => ?_,thens,fun group member => ?_⟩
        · rw [List.mem_cons,List.mem_cons,members]
          exact or_left_comm
        · rcases List.mem_cons.mp member with rfl | member
          · simpa using inElse
          · exact elses group member
      · cases split

end Groups

section Sides

variable {cfg : RootedCfg} {blocks : List SsaBlock} {dom : List BlockId} {common : Branch} {preds : List BlockId}
  {merge : BlockId}

theorem pred_inside (isPred : pred ∈ cfg.predecessors merge) : pred < cfg.blocks.length :=
  Cfg.successor_inside (Cfg.mem_predecessors.mp isPred)

theorem common_pred (isCommon : IsCommon cfg blocks dom preds common)
    (isPred : common.block ∈ cfg.predecessors merge) : ∃ side, common.arm side = merge := by
  obtain ⟨side,isArm⟩ := (isCommon.edges merge).mp (Cfg.mem_predecessors.mp isPred)
  exact ⟨side,isArm.symm⟩

variable (table : DominatorTable cfg dom)

include table

theorem not_above_pred (forward : isBackTarget cfg.toCfg dom merge = false) (isPred : pred ∈ cfg.predecessors merge) :
    ¬Above dom pred merge := by
  intro above
  have isEdge := Cfg.mem_predecessors.mp isPred
  have inside := pred_inside isPred
  have back : isBackTarget cfg.toCfg dom merge = true := by
    refine List.any_eq_true.mpr ⟨pred,List.mem_range.mpr inside,List.any_eq_true.mpr ⟨merge,isEdge,?_⟩⟩
    simpa using (table.chained.dominates_iff (table.length ▸ inside)).mpr above
  rw [back] at forward
  cases forward

theorem entry_above_pred (isPred : pred ∈ cfg.predecessors merge) : Above dom pred cfg.entry :=
  table.chained.entry_above (table.length ▸ pred_inside isPred)

variable (mirrors : Mirrors cfg.toCfg blocks) (isCommon : IsCommon cfg blocks dom preds common)
  (arePreds : ∀ pred ∈ preds, pred ∈ cfg.predecessors merge) (forward : isBackTarget cfg.toCfg dom merge = false)

include isCommon arePreds forward

theorem behind_other (isEntry : common.arm side = cfg.entry) (other : BlockId) (isOther : other ∈ preds)
    (otherUnder : Above dom other (common.arm (!side))) (member : pred ∈ preds)
    (reached : Relation.ReflTransGen cfg.Edge cfg.entry pred) :
    Dominates cfg.Edge cfg.entry (common.arm (!side)) pred ∧ common.arm (!side) ≠ cfg.entry := by
  have notBranch : pred ≠ common.block := by
    rintro rfl
    obtain ⟨way,isArm⟩ := common_pred isCommon (arePreds _ member)
    by_cases same : way = side
    · subst same
      exact not_above_pred table forward (arePreds _ member)
        (isArm ▸ isEntry ▸ entry_above_pred table (arePreds _ member))
    · have isNot : way = !side := by cases way <;> cases side <;> first | rfl | exact absurd rfl same
      rw [← isNot,isArm] at otherUnder
      exact not_above_pred table forward (arePreds _ isOther) otherUnder
  have dominates := table.above_dominates (isCommon.above pred member) reached
  have leads : ∀ next, cfg.Edge common.block next → next = cfg.entry ∨ next = common.arm (!side) := by
    rintro next ⟨isSuccessor,_⟩
    obtain ⟨way,rfl⟩ := (isCommon.edges next).mp isSuccessor
    by_cases same : way = side
    · exact .inl (same ▸ isEntry)
    · have isNot : way = !side := by cases way <;> cases side <;> first | rfl | exact absurd rfl same
      exact .inr (by rw [isNot])
  obtain ⟨behind,notEntry⟩ := gate_behind dominates notBranch leads
  exact ⟨behind,notEntry reached⟩

include mirrors

-- One side of the branch feeds the predecessors `own`, the other side the rest.
theorem side_chosen {own others : List BlockId} (areOwn : ∀ pred ∈ own, pred ∈ preds)
    (areOthers : ∀ pred ∈ others, pred ∈ preds) (either : ∀ pred ∈ preds, pred ∈ own ∨ pred ∈ others)
    (under : ∀ pred ∈ own, Above dom pred (common.arm side))
    (othersUnder : ∀ pred ∈ others, Above dom pred (common.arm (!side))) (some : others ≠ [])
    (member : pred ∈ own) (walk : Walk cfg.toCfg blocks trace pred) (value : Bool) :
    ((pred,value) :: trace).lookup common.block = .some side ∨ cfg.Edge cfg.entry cfg.entry ∧
      ∃ unreached ∈ own, ¬Relation.ReflTransGen cfg.Edge cfg.entry unreached := by
  have reached := path_reached (walk_path mirrors walk)
  have commonReached := common_reached table isCommon (areOwn pred member) reached
  by_cases isEntry : common.arm side = cfg.entry
  · obtain ⟨other,isOther⟩ := List.exists_mem_of_ne_nil _ some
    have behind : ∀ pred ∈ preds, Relation.ReflTransGen cfg.Edge cfg.entry pred →
        Dominates cfg.Edge cfg.entry (common.arm (!side)) pred ∧ common.arm (!side) ≠ cfg.entry := fun pred isPred =>
      behind_other table isCommon arePreds forward isEntry other (areOthers other isOther)
        (othersUnder other isOther) isPred
    have notEntry := (behind pred (areOwn pred member) reached).2
    have otherInside : common.arm (!side) < cfg.blocks.length := by
      have above := othersUnder other isOther
      exact table.length ▸ table.chained.above_inside above
        (table.length ▸ pred_inside (arePreds _ (areOthers other isOther)))
    have armReached : Relation.ReflTransGen cfg.Edge cfg.entry (common.arm (!side)) :=
      commonReached.tail ⟨(isCommon.edges _).mpr ⟨_,rfl⟩,otherInside⟩
    have othersReached : ∀ pred ∈ others, Relation.ReflTransGen cfg.Edge cfg.entry pred := by
      intro pred isPred
      by_contra unreached
      rcases (table.above_unreached (pred_inside (arePreds _ (areOthers pred isPred))) unreached).mp
        (othersUnder pred isPred) with same | isRoot
      · exact unreached (same ▸ armReached)
      · exact notEntry isRoot
    have unreachedOwn : ∃ unreached ∈ own, ¬Relation.ReflTransGen cfg.Edge cfg.entry unreached := by
      by_contra none
      apply not_all_under table isCommon (areOwn pred member) reached notEntry
      intro pred isPred
      have ownReached : pred ∈ own → Relation.ReflTransGen cfg.Edge cfg.entry pred := fun isOwn =>
        by_contra fun notReached => none ⟨pred,isOwn,notReached⟩
      have isReached := (either pred isPred).elim ownReached (othersReached pred)
      exact (table.above_iff isReached).mpr (behind pred isPred isReached).1
    obtain ⟨unreached,isOwn,notReached⟩ := unreachedOwn
    have isRoot : common.block = cfg.entry := by
      rcases (table.above_unreached (pred_inside (arePreds _ (areOwn _ isOwn))) notReached).mp
        (isCommon.above _ (areOwn _ isOwn)) with same | isRoot
      · exact absurd (same ▸ commonReached) notReached
      · exact isRoot
    exact .inr ⟨⟨isRoot ▸ (isCommon.edges _).mpr ⟨side,isRoot ▸ isEntry.symm⟩,cfg.entered⟩,unreached,isOwn,notReached⟩
  · refine .inl (chosen table mirrors isCommon (areOwn pred member) walk (under pred member) isEntry fun same => ?_)
    apply not_all_under table isCommon (areOwn pred member) reached isEntry
    intro pred isPred
    rcases either pred isPred with isOwn | isOther
    · exact under pred isOwn
    · exact same ▸ othersUnder pred isOther

-- Mixed predecessors are behind the entry, and its branch was last left by the other arm.
theorem mixed_chosen (member : pred ∈ preds) (walk : Walk cfg.toCfg blocks trace pred)
    (goes : Goes blocks pred value merge) (mergeInside : merge < cfg.blocks.length) (isUnreached : unreached ∈ preds)
    (notReached : ¬Relation.ReflTransGen cfg.Edge cfg.entry unreached)
    (under : Above dom unreached (common.arm side)) :
    common.block = cfg.entry ∧ common.arm side = cfg.entry ∧ ((pred,value) :: trace).lookup common.block = some (!side) := by
  have reached := path_reached (walk_path mirrors walk)
  have commonReached := common_reached table isCommon member reached
  have inside := pred_inside (arePreds _ isUnreached)
  have isRoot : common.block = cfg.entry := by
    rcases (table.above_unreached inside notReached).mp (isCommon.above _ isUnreached) with same | isRoot
    · exact absurd (same ▸ commonReached) notReached
    · exact isRoot
  have armEntry : common.arm side = cfg.entry := by
    rcases (table.above_unreached inside notReached).mp under with same | isEntry
    · have armReached : Relation.ReflTransGen cfg.Edge cfg.entry (common.arm side) :=
        commonReached.tail ⟨(isCommon.edges _).mpr ⟨_,rfl⟩,same ▸ inside⟩
      exact absurd (same ▸ armReached) notReached
    · exact isEntry
  have whole : Walk cfg.toCfg blocks ((pred,value) :: trace) merge := .step walk goes mergeInside
  have passed : common.block ∈ ((pred,value) :: trace).map Prod.fst := by
    have onPath := path_root (walk_path mirrors whole)
    rw [List.mem_cons] at onPath
    rcases onPath with isMerge | passed
    · exact absurd (isMerge ▸ entry_above_pred table (arePreds _ member)) (not_above_pred table forward (arePreds _ member))
    · exact isRoot ▸ passed
  obtain ⟨last,isLast⟩ : ∃ last, ((pred,value) :: trace).lookup common.block = some last := by
    rw [← Option.isSome_iff_exists,List.lookup_isSome_iff]
    obtain ⟨entry,isEntry,same⟩ := List.mem_map.mp passed
    exact ⟨entry,isEntry,by simp [same]⟩
  refine ⟨isRoot,armEntry,?_⟩
  rw [isLast]
  by_cases same : last = side
  · subst same
    have isMerge := last_leaves isCommon whole isLast (armEntry.trans isRoot.symm)
    exact absurd (isMerge ▸ isRoot ▸ entry_above_pred table (arePreds _ member))
      (not_above_pred table forward (arePreds _ member))
  · cases last <;> cases side <;> first | rfl | exact absurd rfl same

end Sides

section Nested

variable {cfg : RootedCfg} {blocks : List SsaBlock} {dom : List BlockId} {size : UInt32}

-- A step of the recursion that succeeds.
structure Splits (dom : List BlockId) (blocks : List SsaBlock) (groups : List Group) (common : Branch)
    (thenGroups elseGroups : List Group) : Prop where
  found : commonBranch dom blocks (groups.flatMap Prod.snd) = some common
  split : splitGroups dom common.taken common.next groups = some (thenGroups,elseGroups)
  thenSome : thenGroups ≠ []
  elseSome : elseGroups ≠ []

theorem build_cases {depth : Nat} {groups : List Group} {vars vars' : List VarDef} {id : VarId} {choice : Choice}
    (built : buildNestedPhiTernary dom blocks size (depth + 1) groups vars = (some (id,choice),vars')) :
    (∃ group, groups = [group] ∧ id = group.1 ∧ choice = .operand group.1 ∧ vars' = vars) ∨
    ∃ common thenGroups elseGroups thenVar thenChoice thenVars elseVar elseChoice elseVars,
      Splits dom blocks groups common thenGroups elseGroups ∧
      buildNestedPhiTernary dom blocks size depth thenGroups vars = (some (thenVar,thenChoice),thenVars) ∧
      buildNestedPhiTernary dom blocks size depth elseGroups thenVars = (some (elseVar,elseChoice),elseVars) ∧
      id = elseVars.length ∧ choice = .branch common.block common.cond thenChoice elseChoice ∧
      vars' = elseVars ++ [⟨nestedVarnode elseVars size,.ternary common.cond thenVar elseVar,none,size,false⟩] := by
  unfold buildNestedPhiTernary at built
  split at built
  · rename_i group
    simp only [Prod.mk.injEq,Option.some.injEq] at built
    exact .inl ⟨group,rfl,built.1.1.symm,built.1.2.symm,built.2.symm⟩
  · split at built
    · cases built
    · rename_i common isCommon
      split at built
      · cases built
      · rename_i thenGroups elseGroups isSplit
        split at built
        · cases built
        · rename_i bothSome
          split at built
          · cases built
          · rename_i thenVar thenChoice thenVars isThen
            split at built
            · cases built
            · rename_i elseVar elseChoice elseVars isElse
              simp only [Bool.or_eq_true,List.isEmpty_iff,not_or] at bothSome
              simp only [Prod.mk.injEq,Option.some.injEq] at built
              exact .inr ⟨common,thenGroups,elseGroups,thenVar,thenChoice,thenVars,elseVar,elseChoice,elseVars,
                ⟨isCommon,isSplit,bothSome.1,bothSome.2⟩,isThen,isElse,built.1.1.symm,built.1.2.symm,built.2.symm⟩

variable {merge : BlockId} (table : DominatorTable cfg dom)

include table

theorem splits_notEntry {groups : List Group} (splits : Splits dom blocks groups common thenGroups elseGroups)
    (arePreds : ∀ group ∈ groups, ∀ pred ∈ group.2, pred < cfg.blocks.length) (side : Bool) :
    common.arm side ≠ cfg.entry := by
  obtain ⟨members,thens,elses⟩ := splitGroups_spec splits.split
  have underEntry : ∀ group ∈ groups, groupUnder dom group.2 cfg.entry = true := fun group isGroup =>
    (groupUnder_iff table (arePreds group isGroup)).mpr fun pred member =>
      table.chained.entry_above (table.length ▸ arePreds group isGroup pred member)
  intro isEntry
  cases side with
  | true =>
    obtain ⟨group,isElse⟩ := List.exists_mem_of_ne_nil _ splits.elseSome
    have notUnder := (elses group isElse).2
    rw [show common.taken = cfg.entry from isEntry,underEntry group ((members group).mpr (.inr isElse))] at notUnder
    cases notUnder
  | false =>
    obtain ⟨group,isThen⟩ := List.exists_mem_of_ne_nil _ splits.thenSome
    have notUnder := (thens group isThen).2
    rw [show common.next = cfg.entry from isEntry,underEntry group ((members group).mpr (.inl isThen))] at notUnder
    cases notUnder

variable (mirrors : Mirrors cfg.toCfg blocks)

include mirrors

theorem splits_common {groups : List Group} (splits : Splits dom blocks groups common thenGroups elseGroups)
    (arePreds : ∀ group ∈ groups, ∀ pred ∈ group.2, pred < cfg.blocks.length) :
    IsCommon cfg blocks dom (groups.flatMap Prod.snd) common := by
  apply commonBranch_spec table mirrors splits.found
  intro pred member
  obtain ⟨group,isGroup,inGroup⟩ := List.mem_flatMap.mp member
  exact arePreds group isGroup pred inGroup

theorem build_selects {depth : Nat} {groups : List Group} {vars vars' : List VarDef} {id : VarId} {choice : Choice}
    (built : buildNestedPhiTernary dom blocks size depth groups vars = (some (id,choice),vars'))
    (arePreds : ∀ group ∈ groups, ∀ pred ∈ group.2, pred < cfg.blocks.length) {group : Group} (isGroup : group ∈ groups)
    (member : pred ∈ group.2) (walk : Walk cfg.toCfg blocks trace pred) (value : Bool) :
    choice.select ((pred,value) :: trace) = some group.1 := by
  induction depth generalizing groups vars vars' id choice with
  | zero => cases built
  | succ depth ih =>
    rcases build_cases built with ⟨single,rfl,_,rfl,_⟩ |
      ⟨common,thenGroups,elseGroups,thenVar,thenChoice,thenVars,elseVar,elseChoice,elseVars,splits,isThen,isElse,_,rfl,_⟩
    · rw [List.mem_singleton.mp isGroup]
      rfl
    · obtain ⟨members,thens,elses⟩ := splitGroups_spec splits.split
      have isCommon := splits_common table mirrors splits arePreds
      have inPreds : pred ∈ groups.flatMap Prod.snd := List.mem_flatMap.mpr ⟨group,isGroup,member⟩
      have apart : common.taken ≠ common.next := by
        intro same
        rcases (members group).mp isGroup with isThenGroup | isElseGroup
        · have one := thens group isThenGroup
          rw [same,one.2] at one
          exact Bool.noConfusion one.1
        · have one := elses group isElseGroup
          rw [same,one.1] at one
          exact Bool.noConfusion one.2
      rw [Choice.select]
      rcases (members group).mp isGroup with isThenGroup | isElseGroup
      · have under : Above dom pred (common.arm true) :=
          (groupUnder_iff table (arePreds group isGroup)).mp (thens group isThenGroup).1 pred member
        rw [chosen table mirrors isCommon inPreds walk under (splits_notEntry table splits arePreds true)
          (Ne.symm apart)]
        exact ih isThen (fun other isOther => arePreds other ((members other).mpr (.inl isOther)))
          isThenGroup
      · have under : Above dom pred (common.arm false) :=
          (groupUnder_iff table (arePreds group isGroup)).mp (elses group isElseGroup).1 pred member
        rw [chosen table mirrors isCommon inPreds walk under (splits_notEntry table splits arePreds false) apart]
        exact ih isElse (fun other isOther => arePreds other ((members other).mpr (.inr isOther)))
          isElseGroup

theorem build_unmixed {depth : Nat} {groups : List Group} {vars vars' : List VarDef} {id : VarId} {choice : Choice}
    (built : buildNestedPhiTernary dom blocks size (depth + 1) groups vars = (some (id,choice),vars'))
    (several : groups.length ≠ 1) (arePreds : ∀ group ∈ groups, ∀ pred ∈ group.2, pred < cfg.blocks.length)
    {group : Group} (isGroup : group ∈ groups) (member : pred ∈ group.2) (isUnreached : unreached ∈ group.2)
    (reached : Relation.ReflTransGen cfg.Edge cfg.entry pred)
    (notReached : ¬Relation.ReflTransGen cfg.Edge cfg.entry unreached) : ¬cfg.Edge cfg.entry cfg.entry := by
  intro back
  rcases build_cases built with ⟨single,rfl,_⟩ | ⟨common,thenGroups,elseGroups,_,_,_,_,_,_,splits,_⟩
  · exact several rfl
  · have isCommon := splits_common table mirrors splits arePreds
    have inPreds : ∀ pred ∈ group.2, pred ∈ groups.flatMap Prod.snd := fun pred member =>
      List.mem_flatMap.mpr ⟨group,isGroup,member⟩
    have isRoot : common.block = cfg.entry := by
      rcases (table.above_unreached (arePreds group isGroup _ isUnreached) notReached).mp
        (isCommon.above _ (inPreds _ isUnreached)) with same | isRoot
      · exact absurd (same ▸ common_reached table isCommon (inPreds _ member) reached) notReached
      · exact isRoot
    obtain ⟨side,isArm⟩ := (isCommon.edges cfg.entry).mp (isRoot ▸ back.1)
    exact splits_notEntry table splits arePreds side isArm.symm

end Nested

section OnePhi

variable {cfg : RootedCfg} {blocks : List SsaBlock} {dom : List BlockId} {replaced : Replaced}

theorem mem_edges {preds : List BlockId} {inputs : List VarId} :
    (pred,input) ∈ preds.zip inputs ↔ ∃ index : Nat, preds[index]? = some pred ∧ inputs[index]? = some input := by
  rw [List.mem_iff_getElem?]
  exact exists_congr fun index => List.getElem?_zip_eq_some

theorem mixed_group : MixedOperand cfg.toCfg replaced ↔
    ∃ group ∈ groupPreds ((cfg.predecessors replaced.merge).zip replaced.inputs), ∃ p ∈ group.2, ∃ u ∈ group.2,
      Relation.ReflTransGen cfg.Edge cfg.entry p ∧ ¬Relation.ReflTransGen cfg.Edge cfg.entry u := by
  have nodup := groupPreds_nodup ((cfg.predecessors replaced.merge).zip replaced.inputs)
  constructor
  · rintro ⟨first,second,p,u,operand,isP,isU,feedsP,feedsU,reached,notReached⟩
    obtain ⟨group,isGroup,same,member⟩ := mem_groupPreds.mpr (mem_edges.mpr ⟨first,isP,feedsP⟩)
    obtain ⟨other,isOther,sameOther,otherMember⟩ := mem_groupPreds.mpr (mem_edges.mpr ⟨second,isU,feedsU⟩)
    obtain rfl := group_unique nodup isGroup isOther (same.trans sameOther.symm)
    exact ⟨group,isGroup,p,member,u,otherMember,reached,notReached⟩
  · rintro ⟨group,isGroup,p,isP,u,isU,reached,notReached⟩
    obtain ⟨first,predP,feedsP⟩ := mem_edges.mp (mem_groupPreds.mp ⟨group,isGroup,rfl,isP⟩)
    obtain ⟨second,predU,feedsU⟩ := mem_edges.mp (mem_groupPreds.mp ⟨group,isGroup,rfl,isU⟩)
    exact ⟨first,second,p,u,group.1,predP,predU,feedsP,feedsU,reached,notReached⟩

theorem group_pred {group : Group}
    (isGroup : group ∈ groupPreds ((cfg.predecessors merge).zip inputs)) (member : pred ∈ group.2) :
    pred ∈ cfg.predecessors merge := by
  obtain ⟨index,isPred,_⟩ := mem_edges.mp (mem_groupPreds.mp ⟨group,isGroup,rfl,member⟩)
  exact List.mem_of_getElem? isPred

theorem selects_of_groups
    (each : ∀ group ∈ groupPreds ((cfg.predecessors replaced.merge).zip replaced.inputs), ∀ pred ∈ group.2,
      ∀ trace value, Walk cfg.toCfg blocks trace pred →
        replaced.choice.select ((pred,value) :: trace) = some group.1) : Selects cfg.toCfg blocks replaced := by
  intro trace pred value index operand walk _ enters feeds
  obtain ⟨group,isGroup,rfl,member⟩ := mem_groupPreds.mpr (mem_edges.mpr ⟨index,enters.1,feeds⟩)
  exact each group isGroup pred member trace value walk

theorem selects_group (mirrors : Mirrors cfg.toCfg blocks) (selects : Selects cfg.toCfg blocks replaced) {group : Group}
    (isGroup : group ∈ groupPreds ((cfg.predecessors replaced.merge).zip replaced.inputs)) (member : pred ∈ group.2)
    (walk : Walk cfg.toCfg blocks trace pred) : ∃ value, Goes blocks pred value replaced.merge ∧
      replaced.choice.select ((pred,value) :: trace) = some group.1 := by
  obtain ⟨index,isPred,feeds⟩ := mem_edges.mp (mem_groupPreds.mp ⟨group,isGroup,rfl,member⟩)
  obtain ⟨value,goes,enters⟩ := edge_enters mirrors isPred
  exact ⟨value,goes,selects trace pred value index group.1 walk goes enters feeds⟩

theorem twoArms_side {common : Branch} {a b : Group} (found : twoArms dom common a b = some (thenVal,elseVal)) :
    ∃ side, groupUnder dom a.2 (common.arm side) = true ∧ groupUnder dom b.2 (common.arm (!side)) = true ∧
      (if side then thenVal else elseVal) = a.1 ∧ (if side then elseVal else thenVal) = b.1 := by
  unfold twoArms at found
  split at found
  · rename_i under
    obtain ⟨rfl,rfl⟩ := Prod.mk.inj (Option.some.inj found)
    exact ⟨true,(Bool.and_eq_true_iff.mp under).1,(Bool.and_eq_true_iff.mp under).2,rfl,rfl⟩
  · split at found
    · rename_i under
      obtain ⟨rfl,rfl⟩ := Prod.mk.inj (Option.some.inj found)
      exact ⟨false,(Bool.and_eq_true_iff.mp under).1,(Bool.and_eq_true_iff.mp under).2,rfl,rfl⟩
    · cases found

theorem select_side {trace : List (BlockId × Bool)} {cond : VarId} (isLast : trace.lookup block = some last) :
    (Choice.branch block cond (.operand thenVal) (.operand elseVal)).select trace =
      some (if last then thenVal else elseVal) := by
  rw [Choice.select,isLast]
  cases last <;> rfl

-- The two sides of a branch.
structure TwoSided (cfg : RootedCfg) (blocks : List SsaBlock) (dom : List BlockId) (replaced : Replaced)
    (common : Branch) (side : Bool) (own other : Group) : Prop where
  isCommon : IsCommon cfg blocks dom (own.2 ++ other.2) common
  ownPreds : ∀ pred ∈ own.2, pred ∈ cfg.predecessors replaced.merge
  otherPreds : ∀ pred ∈ other.2, pred ∈ cfg.predecessors replaced.merge
  ownUnder : ∀ pred ∈ own.2, Above dom pred (common.arm side)
  otherUnder : ∀ pred ∈ other.2, Above dom pred (common.arm (!side))
  ownSome : own.2 ≠ []
  otherSome : other.2 ≠ []

theorem isCommon_swap {common : Branch} {first second : List BlockId}
    (isCommon : IsCommon cfg blocks dom (first ++ second) common) : IsCommon cfg blocks dom (second ++ first) common where
  above pred member := isCommon.above pred (by rw [List.mem_append] at member ⊢; exact member.symm)
  nearest d above := isCommon.nearest d fun pred member =>
    above pred (by rw [List.mem_append] at member ⊢; exact member.symm)
  goes := isCommon.goes
  edges := isCommon.edges
  only := isCommon.only

theorem TwoSided.swap {common : Branch} {own other : Group}
    (sides : TwoSided cfg blocks dom replaced common side own other) :
    TwoSided cfg blocks dom replaced common (!side) other own where
  isCommon := isCommon_swap sides.isCommon
  ownPreds := sides.otherPreds
  otherPreds := sides.ownPreds
  ownUnder := sides.otherUnder
  otherUnder := by rw [Bool.not_not]; exact sides.ownUnder
  ownSome := sides.otherSome
  otherSome := sides.ownSome

theorem TwoSided.preds {common : Branch} {own other : Group}
    (sides : TwoSided cfg blocks dom replaced common side own other) :
    ∀ pred ∈ own.2 ++ other.2, pred ∈ cfg.predecessors replaced.merge := fun pred member =>
  (List.mem_append.mp member).elim (sides.ownPreds pred) (sides.otherPreds pred)

variable (table : DominatorTable cfg dom) (mirrors : Mirrors cfg.toCfg blocks)
  (forward : isBackTarget cfg.toCfg dom replaced.merge = false)

include table mirrors forward

theorem TwoSided.last {common : Branch} {own other : Group}
    (sides : TwoSided cfg blocks dom replaced common side own other)
    (member : pred ∈ own.2) (walk : Walk cfg.toCfg blocks trace pred) (value : Bool) :
    ((pred,value) :: trace).lookup common.block = some side ∨ cfg.Edge cfg.entry cfg.entry ∧
      ∃ unreached ∈ own.2, ¬Relation.ReflTransGen cfg.Edge cfg.entry unreached :=
  side_chosen table mirrors sides.isCommon sides.preds forward (fun _ => List.mem_append_left _)
    (fun _ => List.mem_append_right _) (fun _ => List.mem_append.mp) sides.ownUnder sides.otherUnder sides.otherSome
    member walk value

theorem TwoSided.missed {common : Branch} {own other : Group}
    (sides : TwoSided cfg blocks dom replaced common side own other) (mergeInside : replaced.merge < cfg.blocks.length)
    (member : pred ∈ own.2) (isUnreached : unreached ∈ own.2)
    (notReached : ¬Relation.ReflTransGen cfg.Edge cfg.entry unreached) (walk : Walk cfg.toCfg blocks trace pred)
    (goes : Goes blocks pred value replaced.merge) :
    ((pred,value) :: trace).lookup common.block = some (!side) :=
  (mixed_chosen table mirrors sides.isCommon sides.preds forward (List.mem_append_left _ member) walk goes mergeInside
    (List.mem_append_left _ isUnreached) notReached (sides.ownUnder unreached isUnreached)).2.2

theorem two_selects (mergeInside : replaced.merge < cfg.blocks.length) {common : Branch} {a b : Group}
    (areGroups : groupPreds ((cfg.predecessors replaced.merge).zip replaced.inputs) = [a,b])
    (sides : TwoSided cfg blocks dom replaced common side a b)
    (isChoice : replaced.choice = .branch common.block common.cond (.operand thenVal) (.operand elseVal))
    (isA : (if side then thenVal else elseVal) = a.1) (isB : (if side then elseVal else thenVal) = b.1) :
    Selects cfg.toCfg blocks replaced ↔ ¬(cfg.Edge cfg.entry cfg.entry ∧ MixedOperand cfg.toCfg replaced) := by
  have nodup := groupPreds_nodup ((cfg.predecessors replaced.merge).zip replaced.inputs)
  rw [areGroups] at nodup
  have differ : a.1 ≠ b.1 := by simpa using nodup
  have selected : ∀ {trace last}, trace.lookup common.block = some last →
      replaced.choice.select trace = some (if last = side then a.1 else b.1) := by
    intro trace last isLast
    rw [isChoice,select_side isLast,← isA,← isB]
    cases last <;> cases side <;> rfl
  have opposite : (!side) ≠ side := by cases side <;> exact Bool.noConfusion
  rw [mixed_group,areGroups]
  constructor
  · rintro selects ⟨_,group,isGroup,p,isP,u,isU,reached,notReached⟩
    obtain ⟨trace,walk⟩ := reached_walk mirrors reached
    obtain ⟨value,goes,isSelected⟩ := selects_group mirrors selects (areGroups.symm ▸ isGroup) isP walk
    rcases List.mem_cons.mp isGroup with rfl | isSecond
    · rw [selected (sides.missed table mirrors forward mergeInside isP isU notReached walk goes),if_neg opposite] at isSelected
      exact differ (Option.some.inj isSelected).symm
    · obtain rfl := List.mem_singleton.mp isSecond
      rw [selected (sides.swap.missed table mirrors forward mergeInside isP isU notReached walk goes),Bool.not_not,
        if_pos rfl] at isSelected
      exact differ (Option.some.inj isSelected)
  · intro unmixed
    apply selects_of_groups
    rw [areGroups]
    intro group isGroup pred member trace value walk
    have reached := path_reached (walk_path mirrors walk)
    rcases List.mem_cons.mp isGroup with rfl | isSecond
    · rcases sides.last table mirrors forward member walk value with isLast | ⟨back,u,isU,notReached⟩
      · rw [selected isLast,if_pos rfl]
      · exact absurd ⟨back,group,isGroup,pred,member,u,isU,reached,notReached⟩ unmixed
    · obtain rfl := List.mem_singleton.mp isSecond
      rcases sides.swap.last table mirrors forward member walk value with isLast | ⟨back,u,isU,notReached⟩
      · rw [selected isLast,if_neg opposite]
      · exact absurd ⟨back,group,isGroup,pred,member,u,isU,reached,notReached⟩ unmixed

end OnePhi

section Outcomes

variable {blocks : List SsaBlock} {dom : List BlockId} {id : VarId}

-- Variables that are made: ternaries behind the others.
def Extends (vars vars' : List VarDef) : Prop :=
  ∃ more, vars' = vars ++ more ∧ ∀ made ∈ more, ∃ cond then_ else_, made.expr = .ternary cond then_ else_

theorem extends_refl (vars : List VarDef) : Extends vars vars := ⟨[],by simp,fun _ member => absurd member List.not_mem_nil⟩

theorem extends_trans (first : Extends a b) (second : Extends b c) : Extends a c := by
  obtain ⟨more,rfl,ternaries⟩ := first
  obtain ⟨later,rfl,laterTernaries⟩ := second
  exact ⟨more ++ later,List.append_assoc _ _ _,fun made member =>
    (List.mem_append.mp member).elim (ternaries made) (laterTernaries made)⟩

-- The block ends with a branch on the condition.
def BranchesOn (blocks : List SsaBlock) (block : BlockId) (cond : VarId) : Prop :=
  ∃ ssaBlock taken next, blocks[block]? = some ssaBlock ∧ ssaBlock.terminator = .cbranch cond taken next

-- A variable stands for a ternary, nested ones being variables that the pass made.
inductive Encodes (blocks : List SsaBlock) (vars : List VarDef) (fresh : Nat) : VarId → Choice → Prop where
  | operand (id : VarId) : Encodes blocks vars fresh id (.operand id)
  | branch {block : BlockId} {cond id then_ else_ : VarId} {thenChoice elseChoice : Choice} : fresh ≤ id →
    BranchesOn blocks block cond → (varAt vars id).expr = .ternary cond then_ else_ →
    Encodes blocks vars fresh then_ thenChoice → Encodes blocks vars fresh else_ elseChoice →
    Encodes blocks vars fresh id (.branch block cond thenChoice elseChoice)

theorem commonBranch_branches {preds : List BlockId} (found : commonBranch dom blocks preds = some common) :
    BranchesOn blocks common.block common.cond := by
  unfold commonBranch at found
  simp only [Option.bind_eq_bind,Option.bind_eq_some_iff] at found
  obtain ⟨block,_,ssaBlock,isBlock,found⟩ := found
  split at found
  · rename_i isBranch
    split at found
    · obtain rfl := Option.some.inj found
      exact ⟨ssaBlock,_,_,isBlock,isBranch⟩
    · cases found
  · cases found

-- What is no phi stays as it is.
def Keeps (vars vars' : List VarDef) : Prop :=
  ∀ id expr, (varAt vars id).expr = expr → expr ≠ .unknown → (∀ inputs, expr ≠ .phi inputs) → (varAt vars' id).expr = expr

theorem encodes_keeps (keeps : Keeps vars vars') (encodes : Encodes blocks vars fresh id choice) :
    Encodes blocks vars' fresh id choice := by
  induction encodes with
  | operand id => exact .operand id
  | branch isFresh branches isTernary _ _ thenHypothesis elseHypothesis =>
    exact .branch isFresh branches (keeps _ _ isTernary Expr.noConfusion fun _ => Expr.noConfusion) thenHypothesis
      elseHypothesis

theorem encodes_fresh (lower : fresh ≤ least) (encodes : Encodes blocks vars least id choice) :
    Encodes blocks vars fresh id choice := by
  induction encodes with
  | operand id => exact .operand id
  | branch isFresh branches isTernary _ _ thenHypothesis elseHypothesis =>
    exact .branch (Nat.le_trans lower isFresh) branches isTernary thenHypothesis elseHypothesis

theorem varAt_known {vars : List VarDef} (known : (varAt vars id).expr ≠ .unknown) : id < vars.length := by
  by_contra outside
  unfold varAt at known
  rw [List.getElem?_eq_none (Nat.le_of_not_lt outside)] at known
  exact known rfl

theorem varAt_append {vars more : List VarDef} (inside : id < vars.length) : varAt (vars ++ more) id = varAt vars id := by
  unfold varAt
  rw [List.getElem?_append_left inside]

theorem extends_keeps (extended : Extends vars vars') : Keeps vars vars' := by
  obtain ⟨more,rfl,_⟩ := extended
  intro id expr isExpr known _
  rw [varAt_append (varAt_known (isExpr ▸ known))]
  exact isExpr

theorem build_extends {depth : Nat} {groups : List Group} {vars vars' : List VarDef} {result : Option (VarId × Choice)}
    (built : buildNestedPhiTernary dom blocks size depth groups vars = (result,vars')) : Extends vars vars' := by
  induction depth generalizing groups vars vars' result with
  | zero => exact (Prod.mk.inj built).2 ▸ extends_refl vars
  | succ depth ih =>
    unfold buildNestedPhiTernary at built
    split at built
    · exact (Prod.mk.inj built).2 ▸ extends_refl vars
    · split at built
      · exact (Prod.mk.inj built).2 ▸ extends_refl vars
      · split at built
        · exact (Prod.mk.inj built).2 ▸ extends_refl vars
        · split at built
          · exact (Prod.mk.inj built).2 ▸ extends_refl vars
          · split at built
            · rename_i isThen
              exact (Prod.mk.inj built).2 ▸ ih isThen
            · rename_i isThen
              split at built
              · rename_i isElse
                exact (Prod.mk.inj built).2 ▸ extends_trans (ih isThen) (ih isElse)
              · rename_i isElse
                refine (Prod.mk.inj built).2 ▸ extends_trans (ih isThen)
                  (extends_trans (ih isElse) ⟨_,rfl,fun made member => ?_⟩)
                rw [List.mem_singleton.mp member]
                exact ⟨_,_,_,rfl⟩

theorem extends_length (extended : Extends vars vars') : vars.length ≤ vars'.length := by
  obtain ⟨more,rfl,_⟩ := extended
  rw [List.length_append]
  exact Nat.le_add_right _ _

theorem build_encodes {depth : Nat} {groups : List Group} {vars vars' : List VarDef} {id : VarId} {choice : Choice}
    (built : buildNestedPhiTernary dom blocks size depth groups vars = (some (id,choice),vars')) :
    Encodes blocks vars' vars.length id choice ∧ (groups.length = 1 ∨ vars.length ≤ id) := by
  induction depth generalizing groups vars vars' id choice with
  | zero => cases built
  | succ depth ih =>
    rcases build_cases built with ⟨single,rfl,rfl,rfl,_⟩ |
      ⟨common,thenGroups,elseGroups,thenVar,thenChoice,thenVars,elseVar,elseChoice,elseVars,splits,isThen,isElse,rfl,rfl,rfl⟩
    · exact ⟨.operand _,.inl rfl⟩
    · have thenExtends := build_extends isThen
      have elseExtends := build_extends isElse
      have grown := Nat.le_trans (extends_length thenExtends) (extends_length elseExtends)
      have last : Extends elseVars
          (elseVars ++ [⟨nestedVarnode elseVars size,.ternary common.cond thenVar elseVar,none,size,false⟩]) :=
        ⟨_,rfl,fun made member => by rw [List.mem_singleton.mp member]; exact ⟨_,_,_,rfl⟩⟩
      refine ⟨@Encodes.branch blocks _ _ _ _ _ thenVar elseVar _ _ grown (commonBranch_branches splits.found) ?_ ?_ ?_,
        .inr grown⟩
      · unfold varAt
        rw [List.getElem?_concat_length]
        rfl
      · exact encodes_keeps (extends_keeps (extends_trans elseExtends last)) (ih isThen).1
      · exact encodes_keeps (extends_keeps last)
          (encodes_fresh (extends_length thenExtends) (ih isElse).1)

end Outcomes

section Pass

variable {cfg : RootedCfg} {blocks : List SsaBlock} {dom preds : List BlockId} {inputs : List VarId} {merge : BlockId}
  {id : VarId}

theorem addToGroup_some {groups : List Group} (some : ∀ group ∈ groups, group.2 ≠ []) :
    ∀ group ∈ addToGroup input pred groups, group.2 ≠ [] := by
  induction groups with
  | nil =>
    intro group member
    rw [List.mem_singleton.mp member]
    exact List.cons_ne_nil _ _
  | cons first rest ih =>
    unfold addToGroup
    split
    · rintro group (_ | ⟨_,later⟩)
      · exact List.append_ne_nil_of_right_ne_nil _ (List.cons_ne_nil _ _)
      · exact some group (List.mem_cons_of_mem _ later)
    · rintro group (_ | ⟨_,later⟩)
      · exact some first List.mem_cons_self
      · exact ih (fun group member => some group (List.mem_cons_of_mem _ member)) group later

theorem groupPreds_some {edges : List (BlockId × VarId)} : ∀ group ∈ groupPreds edges, group.2 ≠ [] := by
  suffices general : ∀ groups : List Group, (∀ group ∈ groups, group.2 ≠ []) →
      ∀ group ∈ edges.foldl (fun groups edge => addToGroup edge.2 edge.1 groups) groups, group.2 ≠ [] by
    exact general [] fun _ member => absurd member List.not_mem_nil
  induction edges with
  | nil => exact fun groups some => some
  | cons edge rest ih => exact fun groups some => ih _ (addToGroup_some some)

theorem group_input {group : Group} (isGroup : group ∈ groupPreds (preds.zip inputs)) : group.1 ∈ inputs := by
  obtain ⟨pred,member⟩ := List.exists_mem_of_ne_nil _ (groupPreds_some group isGroup)
  obtain ⟨index,_,feeds⟩ := mem_edges.mp (mem_groupPreds.mp ⟨group,isGroup,rfl,member⟩)
  exact List.mem_of_getElem? feeds

-- What can become of a phi.
inductive Outcome (dom : List BlockId) (blocks : List SsaBlock) (preds : List BlockId) (id : VarId)
    (inputs : List VarId) (vars : List VarDef) : Option Choice → List VarDef → Prop where
  | kept : Extends vars vars' → Outcome dom blocks preds id inputs vars none vars'
  | same : input ∈ inputs → Outcome dom blocks preds id inputs vars none (rewriteExpr vars id (.var input))
  | two {a b : Group} {common : Branch} : groupPreds (preds.zip inputs) = [a,b] →
    commonBranch dom blocks (a.2 ++ b.2) = some common → twoArms dom common a b = some (thenVal,elseVal) →
    Outcome dom blocks preds id inputs vars
      (some (.branch common.block common.cond (.operand thenVal) (.operand elseVal)))
      (rewriteExpr vars id (.ternary common.cond thenVal elseVal))
  | nested : 2 < (groupPreds (preds.zip inputs)).length →
    buildNestedPhiTernary dom blocks (varAt vars id).size (groupPreds (preds.zip inputs)).length
      (groupPreds (preds.zip inputs)) vars = (some (result,choice),grown) →
    Outcome dom blocks preds id inputs vars (some choice) (rewriteExpr grown id (.var result))

theorem twoArms_groups {common : Branch} {a b : Group} (found : twoArms dom common a b = some (thenVal,elseVal)) :
    thenVal = a.1 ∨ thenVal = b.1 := by
  unfold twoArms at found
  split at found
  · exact .inl (Prod.mk.inj (Option.some.inj found)).1.symm
  · split at found
    · exact .inr (Prod.mk.inj (Option.some.inj found)).1.symm
    · cases found

theorem rewritePhi_cases (vars : List VarDef) (some : inputs ≠ []) :
    Outcome dom blocks preds id inputs vars (rewritePhi dom blocks preds id inputs vars).1
      (rewritePhi dom blocks preds id inputs vars).2 := by
  unfold rewritePhi
  split
  · obtain ⟨first,rest,rfl⟩ := List.exists_cons_of_ne_nil some
    exact .same List.mem_cons_self
  · dsimp only
    split
    · exact .kept (extends_refl vars)
    · exact .kept (extends_refl vars)
    · rename_i a b areGroups
      split
      · exact .kept (extends_refl vars)
      · rename_i common isCommon
        split
        · exact .kept (extends_refl vars)
        · rename_i thenVal elseVal areArms
          split
          · refine .same ?_
            have ofGroup : ∀ group ∈ [a,b], group.1 ∈ inputs := fun group member => group_input (areGroups.symm ▸ member)
            rcases twoArms_groups areArms with rfl | rfl
            · exact ofGroup a List.mem_cons_self
            · exact ofGroup b (List.mem_cons_of_mem _ List.mem_cons_self)
          · exact .two areGroups isCommon areArms
    · rename_i groups notEmpty notOne notTwo
      split
      · rename_i built
        exact .kept (build_extends built)
      · rename_i built
        refine .nested ?_ built
        match groupPreds (preds.zip inputs), notEmpty, notOne, notTwo with
        | [],notEmpty,_,_ => exact absurd rfl notEmpty
        | [_],_,notOne,_ => exact absurd rfl (notOne _)
        | [_,_],_,_,notTwo => exact absurd rfl (notTwo _ _)
        | _ :: _ :: _ :: rest,_,_,_ => exact Nat.le_add_left 3 rest.length

-- What a phi was replaced by: a ternary, or a variable that the pass made.
inductive Stands (blocks : List SsaBlock) (vars : List VarDef) (fresh : Nat) (replaced : Replaced) : Prop where
  | ternary {block : BlockId} {cond then_ else_ : VarId} : (varAt vars replaced.id).expr = .ternary cond then_ else_ → BranchesOn blocks block cond →
    replaced.choice = .branch block cond (.operand then_) (.operand else_) → Stands blocks vars fresh replaced
  | nested : (varAt vars replaced.id).expr = .var result → fresh ≤ result →
    Encodes blocks vars fresh result replaced.choice → Stands blocks vars fresh replaced

theorem stands_keeps (keeps : Keeps vars vars') (stands : Stands blocks vars fresh replaced) :
    Stands blocks vars' fresh replaced := by
  cases stands with
  | ternary isTernary branches isChoice =>
    exact .ternary (keeps _ _ isTernary Expr.noConfusion fun _ => Expr.noConfusion) branches isChoice
  | nested isVar isFresh encodes =>
    exact .nested (keeps _ _ isVar Expr.noConfusion fun _ => Expr.noConfusion) isFresh (encodes_keeps keeps encodes)

theorem stands_fresh (lower : fresh ≤ least) (stands : Stands blocks vars least replaced) :
    Stands blocks vars fresh replaced := by
  cases stands with
  | ternary isTernary branches isChoice => exact .ternary isTernary branches isChoice
  | nested isVar isFresh encodes =>
    exact .nested isVar (Nat.le_trans lower isFresh) (encodes_fresh lower encodes)

-- One phi of the program is rewritten.
structure Frame (vars vars' : List VarDef) (id : VarId) : Prop where
  grown : vars.length ≤ vars'.length
  others : ∀ other, other ≠ id → other < vars.length → varAt vars' other = varAt vars other
  made : ∀ other, vars.length ≤ other → ∀ inputs, (varAt vars' other).expr ≠ .phi inputs

theorem extends_made (extended : Extends vars vars') (outside : vars.length ≤ other) (inputs : List VarId) :
    (varAt vars' other).expr ≠ .phi inputs := by
  obtain ⟨more,rfl,ternaries⟩ := extended
  unfold varAt
  rw [List.getElem?_append_right outside]
  cases isMade : more[other - vars.length]? with
  | none => exact Expr.noConfusion
  | some made =>
    obtain ⟨cond,then_,else_,isTernary⟩ := ternaries made (List.mem_of_getElem? isMade)
    rw [Option.getD_some,isTernary]
    exact Expr.noConfusion

theorem frame_extends (extended : Extends vars vars') (id : VarId) : Frame vars vars' id where
  grown := extends_length extended
  others other _ inside := by
    obtain ⟨more,rfl,_⟩ := extended
    exact varAt_append inside
  made _ outside := extends_made extended outside

theorem frame_rewrite (extended : Extends vars grown) (inside : id < vars.length) (expr : Expr) :
    Frame vars (rewriteExpr grown id expr) id := by
  have grownInside := Nat.lt_of_lt_of_le inside (extends_length extended)
  have frame := frame_extends extended id
  refine ⟨?_,fun other differs otherInside => ?_,fun other outside inputs => ?_⟩
  · rw [length_rewriteExpr]
    exact frame.grown
  · rw [varAt_rewriteExpr grownInside,if_neg differs,frame.others other differs otherInside]
  · rw [varAt_rewriteExpr grownInside,if_neg (Nat.ne_of_gt (Nat.lt_of_lt_of_le inside outside))]
    exact frame.made other outside inputs

theorem frame_keeps (frame : Frame vars vars' id) (isPhi : (varAt vars id).expr = .phi inputs) : Keeps vars vars' := by
  intro other expr isExpr known notPhi
  have differs : other ≠ id := fun same => notPhi inputs (isExpr.symm.trans (same ▸ isPhi))
  rw [frame.others other differs (varAt_known (isExpr ▸ known))]
  exact isExpr

theorem rewritten_expr {vars : List VarDef} (inside : id < vars.length) (expr : Expr) :
    (varAt (rewriteExpr vars id expr) id).expr = expr := by
  rw [varAt_rewriteExpr inside,if_pos rfl]

theorem rewrite_keeps {vars : List VarDef} (isPhi : (varAt vars id).expr = .phi inputs) (expr : Expr) :
    Keeps vars (rewriteExpr vars id expr) :=
  frame_keeps (frame_rewrite (extends_refl vars) (varAt_known (by rw [isPhi]; exact Expr.noConfusion)) expr) isPhi

theorem outcome_frame {choice : Option Choice} (outcome : Outcome dom blocks preds id inputs vars choice vars')
    (isPhi : (varAt vars id).expr = .phi inputs) : Frame vars vars' id ∧
      match choice with
      | none => (varAt vars' id).expr = .phi inputs ∨ ∃ input ∈ inputs, (varAt vars' id).expr = .var input
      | some choice => Stands blocks vars' vars.length ⟨merge,id,inputs,choice⟩ := by
  have inside : id < vars.length := varAt_known (by rw [isPhi]; exact Expr.noConfusion)
  cases outcome with
  | kept extended =>
    refine ⟨frame_extends extended id,.inl ?_⟩
    obtain ⟨more,rfl,_⟩ := extended
    rw [varAt_append inside,isPhi]
  | same isInput => exact ⟨frame_rewrite (extends_refl vars) inside _,.inr ⟨_,isInput,rewritten_expr inside _⟩⟩
  | two _ isCommon _ =>
    exact ⟨frame_rewrite (extends_refl vars) inside _,
      .ternary (rewritten_expr inside _) (commonBranch_branches isCommon) rfl⟩
  | @nested _ _ grown several built =>
    have extended := build_extends built
    have grownInside := Nat.lt_of_lt_of_le inside (extends_length extended)
    have grownPhi : (varAt grown id).expr = .phi inputs := by
      obtain ⟨more,rfl,_⟩ := extended
      rw [varAt_append inside,isPhi]
    obtain ⟨encodes,single | isFresh⟩ := build_encodes built
    · rw [single] at several
      exact absurd several (by decide)
    · exact ⟨frame_rewrite extended inside _,
        .nested (rewritten_expr grownInside _) isFresh (encodes_keeps (rewrite_keeps grownPhi _) encodes)⟩

variable (table : DominatorTable cfg dom) (mirrors : Mirrors cfg.toCfg blocks)
  (forward : isBackTarget cfg.toCfg dom merge = false) (mergeInside : merge < cfg.blocks.length)

include table mirrors forward mergeInside

-- Whether the ternary is right.
theorem outcome_selects (outcome : Outcome dom blocks (cfg.predecessors merge) id inputs vars (some choice) vars') :
    Selects cfg.toCfg blocks ⟨merge,id,inputs,choice⟩ ↔
      ¬(cfg.Edge cfg.entry cfg.entry ∧ MixedOperand cfg.toCfg ⟨merge,id,inputs,choice⟩) := by
  cases outcome with
  | @two thenVal elseVal a b common areGroups isCommon areArms =>
    have isPred : ∀ group ∈ [a,b], ∀ pred ∈ group.2, pred ∈ cfg.predecessors merge := fun group member pred =>
      group_pred (areGroups.symm ▸ member)
    have someGroup : ∀ group ∈ [a,b], group.2 ≠ [] := fun group member => groupPreds_some group (areGroups.symm ▸ member)
    have isA : a ∈ [a,b] := List.mem_cons_self
    have isB : b ∈ [a,b] := List.mem_cons_of_mem _ List.mem_cons_self
    obtain ⟨side,underA,underB,thenIs,elseIs⟩ := twoArms_side areArms
    have groupInside : ∀ group ∈ [a,b], ∀ pred ∈ group.2, pred < cfg.blocks.length := fun group member pred inGroup =>
      pred_inside (isPred group member pred inGroup)
    have common : IsCommon cfg blocks dom (a.2 ++ b.2) common :=
      commonBranch_spec table mirrors isCommon fun pred member =>
        (List.mem_append.mp member).elim (groupInside a isA pred) (groupInside b isB pred)
    exact two_selects table mirrors forward mergeInside areGroups
      ⟨common,isPred a isA,isPred b isB,(groupUnder_iff table (groupInside a isA)).mp underA,
        (groupUnder_iff table (groupInside b isB)).mp underB,someGroup a isA,someGroup b isB⟩ rfl thenIs elseIs
  | nested several built =>
    have arePreds : ∀ group ∈ groupPreds ((cfg.predecessors merge).zip inputs), ∀ pred ∈ group.2,
        pred < cfg.blocks.length := fun group isGroup pred member => pred_inside (group_pred isGroup member)
    refine iff_of_true ?_ ?_
    · apply selects_of_groups
      intro group isGroup pred member trace value walk
      exact build_selects table mirrors built arePreds isGroup member walk value
    · rintro ⟨back,mixed⟩
      obtain ⟨group,isGroup,p,isP,u,isU,reached,notReached⟩ := mixed_group.mp mixed
      obtain ⟨depth,isDepth⟩ := Nat.exists_eq_succ_of_ne_zero (Nat.ne_of_gt (Nat.lt_trans (Nat.zero_lt_succ 1) several))
      have deep := built
      rw [isDepth] at deep
      exact build_unmixed table mirrors deep (Nat.ne_of_gt (Nat.lt_trans (Nat.lt_succ_self 1) several)) arePreds isGroup isP
        isU reached notReached back

end Pass

section Run

variable {cfg : RootedCfg} {blocks : List SsaBlock} {dom : List BlockId} {start vars : List VarDef} {merge : BlockId}

-- What a phi became: a ternary, or a variable that the pass made.
def BecameTernary (fresh : Nat) : Expr → Prop
  | .ternary _ _ _ => True
  | .var id => fresh ≤ id
  | _ => False

-- A phi of the program at its block, with one operand for each predecessor.
structure IsPhi (cfg : RootedCfg) (blocks : List SsaBlock) (start : List VarDef) (replaced : Replaced) : Prop where
  phi : (varAt start replaced.id).expr = .phi replaced.inputs
  operands : replaced.inputs.length = (cfg.predecessors replaced.merge).length
  placed : ∃ block, blocks[replaced.merge]? = some block ∧ .assign replaced.id ∈ block.stmts

-- A replaced phi: what stands for it, and whether that is right.
structure Right (cfg : RootedCfg) (blocks : List SsaBlock) (start vars : List VarDef) (replaced : Replaced) : Prop where
  isPhi : IsPhi cfg blocks start replaced
  stands : Stands blocks vars start.length replaced
  selects : Selects cfg.toCfg blocks replaced ↔ ¬(cfg.Edge cfg.entry cfg.entry ∧ MixedOperand cfg.toCfg replaced)

-- The variables at any time of the pass.
structure Tracks (cfg : RootedCfg) (blocks : List SsaBlock) (start vars : List VarDef) (replaced : List Replaced) : Prop where
  grown : start.length ≤ vars.length
  keeps : Keeps start vars
  phis : ∀ id inputs, (varAt vars id).expr = .phi inputs → (varAt start id).expr = .phi inputs
  covered : ∀ id inputs, (varAt start id).expr = .phi inputs → BecameTernary start.length (varAt vars id).expr →
    ∃ one ∈ replaced, one.id = id
  each : ∀ one ∈ replaced, Right cfg blocks start vars one

theorem tracks_start : Tracks cfg blocks start start [] where
  grown := Nat.le_refl _
  keeps _ _ isExpr _ _ := isExpr
  phis _ _ isPhi := isPhi
  covered id inputs isPhi became := by
    rw [isPhi] at became
    exact became.elim
  each one member := absurd member List.not_mem_nil

theorem right_keeps (keeps : Keeps vars vars') (right : Right cfg blocks start vars one) :
    Right cfg blocks start vars' one :=
  ⟨right.isPhi,stands_keeps keeps right.stands,right.selects⟩

variable (table : DominatorTable cfg dom) (mirrors : Mirrors cfg.toCfg blocks)
  (inRange : ∀ id inputs, (varAt start id).expr = .phi inputs → ∀ input ∈ inputs, input < start.length)

include table mirrors inRange

theorem rewritePhi_tracks {id : VarId} (tracks : Tracks cfg blocks start vars replaced)
    (forward : isBackTarget cfg.toCfg dom merge = false) (mergeInside : merge < cfg.blocks.length)
    (several : 2 ≤ (cfg.predecessors merge).length) (isPhi : (varAt vars id).expr = .phi inputs)
    (operands : inputs.length = (cfg.predecessors merge).length)
    (placed : ∃ block, blocks[merge]? = some block ∧ .assign id ∈ block.stmts)
    (rewritten : rewritePhi dom blocks (cfg.predecessors merge) id inputs vars = (choice,vars')) :
    Frame vars vars' id ∧
      Tracks cfg blocks start vars' (replaced ++ (choice.map fun choice => ⟨merge,id,inputs,choice⟩).toList) := by
  have some : inputs ≠ [] := by
    rintro rfl
    rw [← operands] at several
    exact absurd several (by decide)
  have outcome := @rewritePhi_cases blocks dom (cfg.predecessors merge) inputs id vars some
  rw [rewritten] at outcome
  obtain ⟨frame,own⟩ := @outcome_frame _ _ _ _ merge _ _ _ _ outcome isPhi
  have keeps := frame_keeps frame isPhi
  have startPhi := tracks.phis id inputs isPhi
  have startInside : id < start.length := varAt_known (by rw [startPhi]; exact Expr.noConfusion)
  refine ⟨frame,Nat.le_trans tracks.grown frame.grown,?_,?_,?_,?_⟩
  · exact fun other expr isExpr known notPhi => keeps other expr (tracks.keeps other expr isExpr known notPhi) known notPhi
  · intro other operands stillPhi
    by_cases same : other = id
    · subst same
      cases choice with
      | none =>
        rcases own with unchanged | ⟨input,_,isVar⟩
        · rw [unchanged] at stillPhi
          rw [startPhi,stillPhi]
        · rw [isVar] at stillPhi
          cases stillPhi
      | some choice =>
        cases own with
        | ternary isTernary => rw [isTernary] at stillPhi; cases stillPhi
        | nested isVar => rw [isVar] at stillPhi; cases stillPhi
    · by_cases inside : other < vars.length
      · rw [frame.others other same inside] at stillPhi
        exact tracks.phis other operands stillPhi
      · exact absurd stillPhi (frame.made other (Nat.le_of_not_lt inside) operands)
  · intro other operands wasPhi became
    have member : ∀ one ∈ replaced, one ∈ replaced ++ (choice.map fun choice => ⟨merge,id,inputs,choice⟩).toList :=
      fun one member => List.mem_append_left _ member
    by_cases same : other = id
    · subst same
      cases choice with
      | none =>
        rcases own with unchanged | ⟨input,isInput,isVar⟩
        · rw [unchanged] at became
          exact became.elim
        · rw [isVar] at became
          exact absurd (inRange other inputs startPhi input isInput) (Nat.not_lt.mpr became)
      | some choice => exact ⟨_,List.mem_append_right _ List.mem_cons_self,rfl⟩
    · have inside : other < vars.length :=
        Nat.lt_of_lt_of_le (varAt_known (by rw [wasPhi]; exact Expr.noConfusion)) tracks.grown
      rw [frame.others other same inside] at became
      obtain ⟨one,isOne,isId⟩ := tracks.covered other operands wasPhi became
      exact ⟨one,member one isOne,isId⟩
  · intro one isOne
    rcases List.mem_append.mp isOne with old | new
    · exact right_keeps keeps (tracks.each one old)
    · cases choice with
      | none => exact absurd new List.not_mem_nil
      | some choice =>
        obtain rfl := List.mem_singleton.mp new
        exact ⟨⟨startPhi,operands,placed⟩,stands_fresh tracks.grown own,
          outcome_selects table mirrors forward mergeInside outcome⟩

-- The phis of a block, each assigned once, are rewritten one after the other.
theorem rewriteAll_tracks (phis : List (VarId × List VarId)) (tracks : Tracks cfg blocks start vars replaced)
    (forward : isBackTarget cfg.toCfg dom merge = false) (mergeInside : merge < cfg.blocks.length)
    (several : 2 ≤ (cfg.predecessors merge).length) (distinct : (phis.map Prod.fst).Nodup)
    (arePhis : ∀ phi ∈ phis, (varAt vars phi.1).expr = .phi phi.2 ∧ phi.2.length = (cfg.predecessors merge).length ∧
      ∃ block, blocks[merge]? = some block ∧ .assign phi.1 ∈ block.stmts)
    (rewritten : rewriteAll dom blocks (cfg.predecessors merge) merge phis (vars,replaced) = (vars',replaced')) :
    Tracks cfg blocks start vars' replaced' := by
  induction phis generalizing vars replaced with
  | nil =>
    obtain ⟨rfl,rfl⟩ := Prod.mk.inj rewritten
    exact tracks
  | cons phi rest ih =>
    obtain ⟨isPhi,operands,placed⟩ := arePhis phi List.mem_cons_self
    obtain ⟨notLater,restDistinct⟩ := List.nodup_cons.mp distinct
    cases isNext : rewritePhi dom blocks (cfg.predecessors merge) phi.1 phi.2 vars with
    | mk choice next =>
      obtain ⟨frame,tracksNext⟩ := rewritePhi_tracks table mirrors inRange tracks forward mergeInside several isPhi operands
        placed isNext
      have stillPhis : ∀ later ∈ rest, (varAt next later.1).expr = .phi later.2 ∧
          later.2.length = (cfg.predecessors merge).length ∧
          ∃ block, blocks[merge]? = some block ∧ .assign later.1 ∈ block.stmts := by
        intro later member
        obtain ⟨laterPhi,others⟩ := arePhis later (List.mem_cons_of_mem _ member)
        have differs : later.1 ≠ phi.1 := fun same => notLater (same ▸ List.mem_map_of_mem member)
        rw [frame.others later.1 differs (varAt_known (by rw [laterPhi]; exact Expr.noConfusion))]
        exact ⟨laterPhi,others⟩
      rw [rewriteAll,isNext] at rewritten
      cases choice with
      | none =>
        rw [Option.map_none,Option.toList_none,List.append_nil] at tracksNext
        exact ih tracksNext restDistinct stillPhis rewritten
      | some choice => exact ih tracksNext restDistinct stillPhis rewritten

omit table mirrors inRange in
theorem mem_phiStmts {phi : VarId × List VarId} : phi ∈ phiStmts vars count block ↔
    .assign phi.1 ∈ block.stmts ∧ (varAt vars phi.1).expr = .phi phi.2 ∧ phi.2.length = count := by
  unfold phiStmts
  rw [List.mem_filterMap]
  constructor
  · rintro ⟨stmt,isStmt,isPhi⟩
    split at isPhi
    · split at isPhi
      · rename_i isExpr
        split at isPhi
        · rename_i counted
          obtain rfl := Option.some.inj isPhi
          exact ⟨isStmt,isExpr,counted⟩
        · cases isPhi
      · cases isPhi
    · cases isPhi
  · rintro ⟨isStmt,isExpr,counted⟩
    refine ⟨_,isStmt,?_⟩
    dsimp only
    rw [isExpr]
    exact if_pos counted

end Run

section Whole

variable {cfg : RootedCfg} {blocks : List SsaBlock} {dom : List BlockId} {start : List VarDef}

-- Variables are assigned once, and the phis read variables of the program.
structure PhiProgram (ssa : SsaCfg) : Prop where
  once : AssignedOnce ssa
  inRange : ∀ id inputs, (varAt ssa.vars id).expr = .phi inputs → ∀ input ∈ inputs, input < ssa.vars.length

theorem phiStmts_nodup {vars : List VarDef} {block : SsaBlock} (once : (assigned block.stmts).Nodup) :
    ((phiStmts vars count block).map Prod.fst).Nodup := by
  refine List.Nodup.sublist ?_ once
  unfold phiStmts assigned
  induction block.stmts with
  | nil => exact .slnil
  | cons stmt rest ih =>
    cases stmt with
    | assign id =>
      rw [List.filterMap_cons,List.filterMap_cons]
      dsimp only
      split
      · exact .cons _ ih
      · rename_i phi isPhi
        split at isPhi
        · split at isPhi
          · obtain rfl := Option.some.inj isPhi
            exact .cons_cons _ ih
          · cases isPhi
        · cases isPhi
    | _ => exact ih

variable (table : DominatorTable cfg dom) (mirrors : Mirrors cfg.toCfg blocks)
  (once : ∀ block ∈ blocks, (assigned block.stmts).Nodup)
  (inRange : ∀ id inputs, (varAt start id).expr = .phi inputs → ∀ input ∈ inputs, input < start.length)

include table mirrors once inRange

theorem rewriteMerge_tracks (merge : BlockId) {state : List VarDef × List Replaced}
    (tracks : Tracks cfg blocks start state.1 state.2) :
    Tracks cfg blocks start (rewriteMerge cfg.toCfg blocks dom state merge).1
      (rewriteMerge cfg.toCfg blocks dom state merge).2 := by
  unfold rewriteMerge
  dsimp only
  split
  · exact tracks
  · rename_i proceeds
    simp only [Bool.or_eq_true,decide_eq_true_eq,not_or,Nat.not_le,Nat.not_lt,Bool.not_eq_true] at proceeds
    obtain ⟨⟨mergeInside,forward⟩,several⟩ := proceeds
    split
    · exact tracks
    · rename_i block isBlock
      refine rewriteAll_tracks table mirrors inRange _ tracks forward mergeInside several
        (phiStmts_nodup (once block (List.mem_of_getElem? isBlock))) (fun phi member => ?_) rfl
      obtain ⟨isStmt,isPhi,counted⟩ := mem_phiStmts.mp member
      exact ⟨isPhi,counted,block,isBlock,isStmt⟩

theorem foldMerges_tracks (merges : List BlockId) {state : List VarDef × List Replaced}
    (tracks : Tracks cfg blocks start state.1 state.2) :
    Tracks cfg blocks start (merges.foldl (rewriteMerge cfg.toCfg blocks dom) state).1
      (merges.foldl (rewriteMerge cfg.toCfg blocks dom) state).2 := by
  induction merges generalizing state with
  | nil => exact tracks
  | cons merge rest ih =>
    exact ih (rewriteMerge_tracks table mirrors once inRange merge tracks)

end Whole

-- Every ternary that replaces a phi is the operand of the edge that the execution came by, unless the entry block
-- branches to itself and an operand comes in both from a block that is reached and from one that is not.
theorem rewriteConditionalPhi_selects (cfg : RootedCfg) (ssa : SsaCfg) (mirrors : Mirrors cfg.toCfg ssa.blocks)
    (program : PhiProgram ssa) : ∃ bound, ∀ fuel ≥ bound, ∃ vars replaced,
      rewriteConditionalPhiToTernary fuel cfg.toCfg ssa = some (vars,replaced) ∧
      (∀ id inputs, (varAt ssa.vars id).expr = .phi inputs → BecameTernary ssa.vars.length (varAt vars id).expr →
        ∃ one ∈ replaced, one.id = id) ∧
      ∀ one ∈ replaced, IsPhi cfg ssa.blocks ssa.vars one ∧ Stands ssa.blocks vars ssa.vars.length one ∧
        (Selects cfg.toCfg ssa.blocks one ↔ ¬(cfg.Edge cfg.entry cfg.entry ∧ MixedOperand cfg.toCfg one)) := by
  obtain ⟨bound,isTable⟩ := computeDominators_table cfg
  refine ⟨bound,fun fuel enough => ?_⟩
  obtain ⟨dom,isDom,table⟩ := isTable fuel enough
  have some : cfg.blocks ≠ [] := List.ne_nil_of_length_pos (Nat.zero_lt_of_lt cfg.entered)
  have once : ∀ block ∈ ssa.blocks, (assigned block.stmts).Nodup := (List.nodup_flatMap.mp program.once).1
  have tracks := @foldMerges_tracks _ _ _ _ table mirrors once program.inRange (List.range ssa.blocks.length)
    (ssa.vars,[]) tracks_start
  refine ⟨_,_,?_,tracks.covered,fun one member => ?_⟩
  · unfold rewriteConditionalPhiToTernary
    rw [if_neg (by simpa using some),isDom]
    rfl
  · have right := tracks.each one member
    exact ⟨right.isPhi,right.stands,right.selects⟩

-- The entry block, which branches to itself, a choice between two blocks that join again, and one that is not reached.
def reentered : RootedCfg where
  blocks := [.cbranch ⟨.register,0x206,1⟩ 0 1,.cbranch ⟨.register,0x202,1⟩ 2 3,.fallthrough 4,.fallthrough 4,.ret,
    .branch 4].mapIdx fun id terminator => ⟨id,0x401000 + 2 * id,[],terminator⟩
  entry := 0
  diagnostics := []
  indexed index block isBlock := by
    rw [List.getElem?_mapIdx,Option.map_eq_some_iff] at isBlock
    obtain ⟨_,_,rfl⟩ := isBlock
    rfl
  entered := by decide

-- The block that is not reached and one of the two others feed the same operand.
def joined : SsaCfg where
  blocks := [⟨0x401000,[.assign 0],.cbranch 0 0 1⟩,⟨0x401002,[.assign 1,.assign 2,.assign 3],.cbranch 1 2 3⟩,
    ⟨0x401004,[],.fallthrough 4⟩,⟨0x401006,[],.fallthrough 4⟩,⟨0x401008,[.assign 4],.ret (some 4)⟩,
    ⟨0x40100a,[],.branch 4⟩]
  vars := [⟨⟨.register,0x206,1⟩,.unknown,none,1,false⟩,⟨⟨.register,0x202,1⟩,.unknown,none,1,false⟩,
    ⟨⟨.register,0,4⟩,.const 1 4,none,4,false⟩,⟨⟨.register,0,4⟩,.const 2 4,none,4,false⟩,
    ⟨⟨.register,0,4⟩,.phi [2,3,2],none,4,false⟩]
  entry := 0
  diagnostics := []

theorem joined_mirrors : Mirrors reentered.toCfg joined.blocks where
  length := rfl
  same id block isBlock := by
    have each : ∀ id < 6, (joined.blocks[id]?).map (fun block => successors block.terminator) =
        some (reentered.successors id) := by decide
    obtain ⟨inside,_⟩ := List.getElem?_eq_some_iff.mp isBlock
    have here := each id inside
    rw [isBlock] at here
    exact Option.some.inj here

theorem joined_program : PhiProgram joined where
  once := by
    unfold AssignedOnce
    decide
  inRange id inputs isPhi := by
    have each : ∀ id < 5, ∀ inputs, (varAt joined.vars id).expr = .phi inputs → ∀ input ∈ inputs, input < 5 := by
      intro id inside inputs isPhi
      interval_cases id
      all_goals cases isPhi
      decide
    exact each id (varAt_known (by rw [isPhi]; exact Expr.noConfusion)) inputs isPhi

theorem rewriteConditionalPhi_selects_joined : ∃ bound, ∀ fuel ≥ bound, ∃ vars replaced,
    rewriteConditionalPhiToTernary fuel reentered.toCfg joined = some (vars,replaced) ∧
      ∀ one ∈ replaced, Selects reentered.toCfg joined.blocks one ↔
        ¬(reentered.Edge reentered.entry reentered.entry ∧ MixedOperand reentered.toCfg one) := by
  obtain ⟨bound,runs⟩ := rewriteConditionalPhi_selects reentered joined joined_mirrors joined_program
  refine ⟨bound,fun fuel enough => ?_⟩
  obtain ⟨vars,replaced,isResult,_,each⟩ := runs fuel enough
  exact ⟨vars,replaced,isResult,fun one member => (each one member).2.2⟩

-- The ternary asks whether the entry block was left by its arm to itself, which no execution does.
theorem joined_misses : Mirrors reentered.toCfg joined.blocks ∧ PhiProgram joined ∧
    ∃ vars one, rewriteConditionalPhiToTernary 20 reentered.toCfg joined = some (vars,[one]) ∧
    (varAt vars 4).expr = .ternary 0 2 3 ∧ one.choice = .branch 0 0 (.operand 2) (.operand 3) ∧
    ¬Selects reentered.toCfg joined.blocks one := by
  refine ⟨joined_mirrors,joined_program,rewriteExpr joined.vars 4 (.ternary 0 2 3),⟨4,4,[2,3,2],.branch 0 0 (.operand 2) (.operand 3)⟩,by rfl,rfl,rfl,?_⟩
  intro selects
  have walk : Walk reentered.toCfg joined.blocks [(1,true),(0,false)] 2 :=
    .step (.step .start ⟨_,rfl,rfl⟩ (by decide)) ⟨_,rfl,rfl⟩ (by decide)
  have selected := selects _ 2 true 0 2 walk ⟨_,rfl,List.mem_cons_self⟩ ⟨rfl,fun block cond isBlock isBranch => by
    cases isBlock
    cases isBranch⟩ rfl
  exact absurd selected (by decide)

end Rsleigh.Decompile.PhiTernary
