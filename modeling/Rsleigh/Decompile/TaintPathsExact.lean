import Rsleigh.Decompile.TaintPaths

namespace Rsleigh.Decompile.TaintPaths

open Pcode Branching

-- Block ids are unique, the arms of a branch lead to different blocks, and all calls are direct.
structure DirectCfg extends NamedCfg where
  unique : (blocks.map (·.id)).Nodup
  twoArmed : ∀ block ∈ blocks, ∀ cond taken fallthrough, block.terminator = .cbranch cond taken fallthrough →
    taken ≠ fallthrough
  directStmts : ∀ block ∈ blocks, ∀ target args out, Stmt.call target args out ∈ block.stmts → ∃ addr, target = .direct addr
  directTerminators : ∀ block ∈ blocks, ∀ target args out fallthrough, block.terminator = .call target args out fallthrough →
    ∃ addr, target = .direct addr

section Paths

def successors : SsaTerminator → List BlockId
  | .fallthrough next | .branch next | .call _ _ _ next => [next]
  | .cbranch _ taken next => [taken, next]
  | .ret _ | .indirect _ => []

def isConditional : SsaTerminator → Bool
  | .cbranch _ _ _ => true
  | _ => false

def isEnd : SsaTerminator → Bool
  | .ret _ | .indirect _ => true
  | _ => false

-- The paths from a block to a return or an indirect branch that pass no block twice and none that was visited.
structure PathFrom (cfg : NamedCfg) (start : BlockId) (visited : List BlockId) (nodes : List NamedBlock) : Prop where
  inside : ∀ block ∈ nodes, block ∈ cfg.blocks
  starts : nodes.head?.map (·.id) = some start
  chained : nodes.IsChain fun a b => b.id ∈ successors a.terminator
  simple : (nodes.map (·.id)).Nodup
  fresh : ∀ block ∈ nodes, block.id ∉ visited
  ends : ∀ last ∈ nodes.getLast?, isEnd last.terminator = true

def conditionals (nodes : List NamedBlock) : Nat := nodes.countP fun block => isConditional block.terminator

structure AcyclicPath (cfg : NamedCfg) (nodes : List NamedBlock) : Prop where
  path : PathFrom cfg cfg.entry [] nodes
  shallow : conditionals nodes ≤ maxBranchDepth

-- The arm that a path takes at a conditional branch.
def arm (block : NamedBlock) (next : BlockId) : List BranchDecision :=
  match block.terminator with
  | .cbranch cond taken _ => [⟨block.addr, cond, next == taken⟩]
  | _ => []

def arms : List NamedBlock → List BranchDecision
  | block :: next :: rest => arm block next.id ++ arms (next :: rest)
  | _ => []

variable (skip : VarId → Bool) (imports : UInt64 → Option String)

-- The event of a statement whose calls are direct. The assignments in `skip` are left out.
def eventOf (idx : Nat) : Stmt → List TaintEvent
  | .assign v => if skip v then [] else [⟨idx, .assign v⟩]
  | .store addr val => [⟨idx, .store addr val⟩]
  | .call (.direct addr) args out => [⟨idx, callKind imports addr args out⟩]
  | .call (.indirect _) _ _ => []

def stmtEvents : Nat → List Stmt → List TaintEvent
  | _, [] => []
  | idx, stmt :: rest => eventOf skip imports idx stmt ++ stmtEvents (idx + 1) rest

def terminatorEvent (block : NamedBlock) : List TaintEvent :=
  match block.terminator with
  | .call (.direct addr) args out _ => [⟨block.stmts.length, callKind imports addr args out⟩]
  | _ => []

def blockEvents (block : NamedBlock) : List TaintEvent :=
  stmtEvents skip imports 0 block.stmts ++ terminatorEvent imports block

def pathEvents (nodes : List NamedBlock) : List TaintEvent := nodes.flatMap (blockEvents skip imports)

def SourceAt (events : List TaintEvent) (i : Nat) (spec : SourceSpec) : Prop :=
  ∃ idx args out chain, events[i]? = some ⟨idx, .sourceCall spec args out chain⟩

def SinkAt (events : List TaintEvent) (i : Nat) (spec : SinkSpec) : Prop :=
  ∃ idx args out chain, events[i]? = some ⟨idx, .sinkCall spec args out chain⟩

-- A source and a sink after it.
structure Paired (events : List TaintEvent) (decisions : List BranchDecision) (path : TaintPath) : Prop where
  sameEvents : path.events = events
  sameDecisions : path.branchDecisions = decisions
  source : SourceAt events path.sourceEvent path.source
  sink : SinkAt events path.sinkEvent path.sink
  later : path.sourceEvent < path.sinkEvent

-- What is returned are the pairs of the paths, each of them once.
structure Enumerates (cfg : NamedCfg) (paths : List TaintPath) : Prop where
  once : paths.Nodup
  exact : ∀ path, path ∈ paths ↔ ∃ nodes, AcyclicPath cfg nodes ∧ Paired (pathEvents skip imports nodes) (arms nodes) path
  ofOne : ∀ path ∈ paths, ∀ nodes nodes', AcyclicPath cfg nodes → Paired (pathEvents skip imports nodes) (arms nodes) path →
    AcyclicPath cfg nodes' → Paired (pathEvents skip imports nodes') (arms nodes') path → nodes = nodes'

-- An error says that there is no pair.
def Answers (cfg : NamedCfg) (result : Except PathRejection (List TaintPath)) : Prop :=
  match result with
  | .ok paths => paths ≠ [] ∧ Enumerates skip imports cfg paths
  | .error _ => Enumerates skip imports cfg []

def NoCapHit (final : Pending WalkState PathRejection) : Prop :=
  final.dropped = false ∧ (allPairs final).length ≤ maxPathsPerFn

end Paths

section Blocks

variable {cfg : NamedCfg} {imports : UInt64 → Option String}

theorem classifyCall_direct (vars : List VarDef) (idx : Nat) (addr : UInt64) (args : List VarId) (out : Option VarId) :
    classifyCall imports vars idx (.direct addr) args out = .ok ⟨idx,callKind imports addr args out⟩ := rfl

theorem walkStmts_events (stmts : List Stmt)
    (direct : ∀ target args out, Stmt.call target args out ∈ stmts → ∃ addr, target = .direct addr) :
    ∀ (idx : Nat) (events : List TaintEvent),
      walkStmts cfg imports idx stmts events = .ok (events ++ stmtEvents (isPhi cfg) imports idx stmts) := by
  induction stmts with
  | nil =>
    intro idx events
    rw [walkStmts,stmtEvents,List.append_nil]
  | cons stmt rest ih =>
    intro idx events
    have later := ih fun target args out member => direct target args out (List.mem_cons_of_mem _ member)
    cases stmt with
    | assign v =>
      rw [walkStmts,stmtEvents,eventOf,later,later]
      by_cases phi : isPhi cfg v = true
      · rw [if_pos phi,if_pos phi,List.nil_append]
      · rw [if_neg phi,if_neg phi,List.append_assoc]
    | store addr val => rw [walkStmts,stmtEvents,eventOf,later,List.append_assoc]
    | call target args out =>
      obtain ⟨addr,rfl⟩ := direct target args out List.mem_cons_self
      rw [walkStmts,classifyCall_direct,stmtEvents,eventOf,← List.append_assoc]
      exact later _ _

-- A walk after a block, when it turns to the next one.
def WalkState.pass (state : WalkState) (cfg : NamedCfg) (imports : UInt64 → Option String) (block : NamedBlock)
    (next : BlockId) : WalkState where
  current := next
  events := state.events ++ blockEvents (isPhi cfg) imports block
  visited := state.current :: state.visited
  branchDecisions := state.branchDecisions ++ arm block next

theorem find_block (cfg : DirectCfg) {block : NamedBlock} {start : BlockId} (inside : block ∈ cfg.blocks)
    (named : block.id = start) : cfg.blocks.find? (·.id == start) = some block := by
  obtain ⟨found,isFound⟩ : ∃ found, cfg.blocks.find? (·.id == start) = some found := by
    apply Option.isSome_iff_exists.mp
    exact List.find?_isSome.mpr ⟨block,inside,by simpa using named⟩
  have foundNamed : found.id = start := by simpa using List.find?_some isFound
  have same : found = block :=
    List.inj_on_of_nodup_map cfg.unique (List.mem_of_find?_eq_some isFound) inside (foundNamed.trans named.symm)
  rw [isFound,same]

-- A walk goes no further from a block that it has passed, that is not there, or that branches once too often.
inductive Stuck (cfg : NamedCfg) (state : WalkState) : Prop where
  | passed (visited : state.current ∈ state.visited)
  | missing (absent : ∀ block ∈ cfg.blocks, block.id ≠ state.current)
  | deep (block : NamedBlock) (inside : block ∈ cfg.blocks) (named : block.id = state.current)
      (conditional : isConditional block.terminator = true) (full : maxBranchDepth ≤ state.branchDecisions.length)

-- What becomes of a walk at a block.
inductive Passes (cfg : NamedCfg) (imports : UInt64 → Option String) (state : WalkState) (block : NamedBlock) :
    Expansion WalkState PathRejection → Prop where
  | finish (isLast : isEnd block.terminator = true)
      (events : last.events = state.events ++ blockEvents (isPhi cfg) imports block)
      (decisions : last.branchDecisions = state.branchDecisions) : Passes cfg imports state block (.finish last)
  | go (only : successors block.terminator = [next]) (unconditional : isConditional block.terminator = false) :
      Passes cfg imports state block (.go (state.pass cfg imports block next))
  | fork {cond : VarId} {taken fallthrough : BlockId} (branches : block.terminator = .cbranch cond taken fallthrough)
      (room : state.branchDecisions.length < maxBranchDepth) :
      Passes cfg imports state block (.fork (state.pass cfg imports block taken) (state.pass cfg imports block fallthrough))

-- A walk whose statements have been passed, before its terminator.
def WalkState.atTerminator (state : WalkState) (cfg : NamedCfg) (imports : UInt64 → Option String) (block : NamedBlock) :
    WalkState :=
  { state with
    events := state.events ++ stmtEvents (isPhi cfg) imports 0 block.stmts
    visited := state.current :: state.visited }

theorem pass_plain (state : WalkState) {block : NamedBlock} (next : BlockId) (noEvent : terminatorEvent imports block = [])
    (noArm : arm block next = []) :
    { state.atTerminator cfg imports block with current := next } = state.pass cfg imports block next := by
  unfold WalkState.atTerminator WalkState.pass blockEvents
  rw [noEvent,noArm,List.append_nil,List.append_nil]

theorem walkTerminator_cases (cfg : DirectCfg) {block : NamedBlock} {state : WalkState} (inside : block ∈ cfg.blocks)
    (named : block.id = state.current) :
    (∃ why, walkTerminator cfg.toNamedCfg imports block (state.atTerminator cfg.toNamedCfg imports block) = .stop why ∧
      Stuck cfg.toNamedCfg state) ∨
      Passes cfg.toNamedCfg imports state block
        (walkTerminator cfg.toNamedCfg imports block (state.atTerminator cfg.toNamedCfg imports block)) := by
  unfold walkTerminator
  cases terminator : block.terminator with
  | fallthrough next =>
    refine .inr ?_
    have isPass : { state.atTerminator cfg.toNamedCfg imports block with current := next } =
        state.pass cfg.toNamedCfg imports block next :=
      pass_plain state next (by rw [terminatorEvent,terminator]) (by rw [arm,terminator])
    simp only [isPass]
    exact .go (by rw [terminator,successors]) (by rw [terminator]; rfl)
  | branch next =>
    refine .inr ?_
    have isPass : { state.atTerminator cfg.toNamedCfg imports block with current := next } =
        state.pass cfg.toNamedCfg imports block next :=
      pass_plain state next (by rw [terminatorEvent,terminator]) (by rw [arm,terminator])
    simp only [isPass]
    exact .go (by rw [terminator,successors]) (by rw [terminator]; rfl)
  | cbranch cond taken fallthrough =>
    have noEvent : terminatorEvent imports block = [] := by rw [terminatorEvent,terminator]
    have others := cfg.twoArmed block inside cond taken fallthrough terminator
    by_cases full : maxBranchDepth ≤ state.branchDecisions.length
    · refine .inl ⟨_,if_pos full,.deep block inside named ?_ full⟩
      rw [terminator,isConditional]
    · refine .inr ?_
      simp only [show ¬ maxBranchDepth ≤ (state.atTerminator cfg.toNamedCfg imports block).branchDecisions.length from full,
        if_false]
      have isTaken : arm block taken = [⟨block.addr,cond,true⟩] := by simp [arm,terminator]
      have isFallthrough : arm block fallthrough = [⟨block.addr,cond,false⟩] := by
        simp [arm,terminator,Ne.symm others]
      have passes : Passes cfg.toNamedCfg imports state block _ := .fork terminator (Nat.lt_of_not_le full)
      unfold WalkState.pass blockEvents at passes
      rw [noEvent,List.append_nil,isTaken,isFallthrough] at passes
      exact passes
  | call target args out fallthrough =>
    obtain ⟨addr,rfl⟩ := cfg.directTerminators block inside target args out fallthrough terminator
    refine .inr ?_
    have passes : Passes cfg.toNamedCfg imports state block (.go (state.pass cfg.toNamedCfg imports block fallthrough)) :=
      .go (by rw [terminator,successors]) (by rw [terminator]; rfl)
    unfold WalkState.pass blockEvents terminatorEvent arm at passes
    simp only [terminator,List.append_nil] at passes
    unfold WalkState.atTerminator
    simp only [classifyCall_direct,List.append_assoc]
    exact passes
  | ret value =>
    refine .inr (.finish (by rw [terminator,isEnd]) ?_ rfl)
    rw [blockEvents,terminatorEvent,terminator,List.append_nil]
    rfl
  | indirect dest =>
    refine .inr (.finish (by rw [terminator,isEnd]) ?_ rfl)
    rw [blockEvents,terminatorEvent,terminator,List.append_nil]
    rfl

theorem walkBlock_cases (cfg : DirectCfg) (imports : UInt64 → Option String) (state : WalkState) :
    (∃ why, walkBlock cfg.toNamedCfg imports state = .stop why ∧ Stuck cfg.toNamedCfg state) ∨
      ∃ block ∈ cfg.blocks, block.id = state.current ∧ state.current ∉ state.visited ∧
        Passes cfg.toNamedCfg imports state block (walkBlock cfg.toNamedCfg imports state) := by
  unfold walkBlock
  by_cases visited : state.visited.contains state.current = true
  · rw [if_pos visited]
    exact .inl ⟨_,rfl,.passed (List.contains_iff_mem.mp visited)⟩
  · rw [if_neg visited]
    have fresh : state.current ∉ state.visited := fun member => visited (List.contains_iff_mem.mpr member)
    cases found : cfg.blocks.find? (·.id == state.current) with
    | none =>
      refine .inl ⟨_,rfl,.missing fun block inside named => ?_⟩
      rw [find_block cfg inside named] at found
      cases found
    | some block =>
      have inside := List.mem_of_find?_eq_some found
      have named : block.id = state.current := by simpa using List.find?_some found
      simp only [walkStmts_events block.stmts (cfg.directStmts block inside)]
      rcases @walkTerminator_cases imports cfg block state inside named with stopped | passes
      · exact .inl stopped
      · exact .inr ⟨block,inside,named,fresh,passes⟩

end Blocks

section PathFrom

variable {start : BlockId} {visited : List BlockId} {nodes rest : List NamedBlock} {block : NamedBlock}

theorem pathFrom_end {cfg : NamedCfg} (inside : block ∈ cfg.blocks) (fresh : block.id ∉ visited)
    (isLast : isEnd block.terminator = true) : PathFrom cfg block.id visited [block] where
  inside other member := List.mem_singleton.mp member ▸ inside
  starts := rfl
  chained := .singleton block
  simple := List.nodup_singleton _
  fresh other member := List.mem_singleton.mp member ▸ fresh
  ends last isLastOne := by
    obtain rfl : block = last := by simpa using isLastOne
    exact isLast

theorem pathFrom_cons {cfg : NamedCfg} {next : BlockId} (inside : block ∈ cfg.blocks) (fresh : block.id ∉ visited)
    (isNext : next ∈ successors block.terminator) (path : PathFrom cfg next (block.id :: visited) rest) :
    PathFrom cfg block.id visited (block :: rest) := by
  obtain ⟨first,others,rfl⟩ : ∃ first others, rest = first :: others := by
    cases rest with
    | nil => exact absurd path.starts (by simp)
    | cons first others => exact ⟨first,others,rfl⟩
  have firstNamed : first.id = next := by simpa using path.starts
  refine ⟨?_,rfl,?_,?_,?_,?_⟩
  · intro other member
    rcases List.mem_cons.mp member with rfl | later
    · exact inside
    · exact path.inside other later
  · exact .cons_cons (by rw [firstNamed]; exact isNext) path.chained
  · rw [List.map_cons,List.nodup_cons]
    refine ⟨?_,path.simple⟩
    intro repeated
    obtain ⟨other,member,same⟩ := List.mem_map.mp repeated
    exact path.fresh other member (same ▸ List.mem_cons_self)
  · intro other member
    rcases List.mem_cons.mp member with rfl | later
    · exact fresh
    · exact fun before => path.fresh other later (List.mem_cons_of_mem _ before)
  · intro last isLast
    rw [List.getLast?_cons_cons] at isLast
    exact path.ends last isLast

theorem pathFrom_inv (cfg : DirectCfg) (inside : block ∈ cfg.blocks)
    (path : PathFrom cfg.toNamedCfg block.id visited nodes) :
    block.id ∉ visited ∧ ((nodes = [block] ∧ isEnd block.terminator = true) ∨
      ∃ next ∈ successors block.terminator, ∃ rest, nodes = block :: rest ∧
        PathFrom cfg.toNamedCfg next (block.id :: visited) rest) := by
  cases nodes with
  | nil => exact absurd path.starts (by simp)
  | cons first rest =>
    have named : first.id = block.id := by simpa using path.starts
    obtain rfl : first = block := List.inj_on_of_nodup_map cfg.unique (path.inside first List.mem_cons_self) inside named
    refine ⟨path.fresh first List.mem_cons_self,?_⟩
    cases rest with
    | nil => exact .inl ⟨rfl,path.ends first (by simp)⟩
    | cons second rest =>
      have chained := List.isChain_cons_cons.mp path.chained
      have simple := List.nodup_cons.mp path.simple
      refine .inr ⟨second.id,chained.1,second :: rest,rfl,?_⟩
      refine ⟨fun other member => path.inside other (List.mem_cons_of_mem _ member),rfl,chained.2,simple.2,?_,?_⟩
      · intro other member before
        rcases List.mem_cons.mp before with same | before
        · exact simple.1 (List.mem_map.mpr ⟨other,member,same⟩)
        · exact path.fresh other (List.mem_cons_of_mem _ member) before
      · intro last isLast
        exact path.ends last (by rw [List.getLast?_cons_cons]; exact isLast)

theorem arms_cons {cfg : NamedCfg} {next : BlockId} (path : PathFrom cfg next visited rest) :
    arms (block :: rest) = arm block next ++ arms rest := by
  cases rest with
  | nil => exact absurd path.starts (by simp)
  | cons first others =>
    have named : first.id = next := by simpa using path.starts
    rw [arms,named]

theorem conditionals_cons (block : NamedBlock) (rest : List NamedBlock) :
    conditionals (block :: rest) = conditionals rest + if isConditional block.terminator then 1 else 0 :=
  List.countP_cons

theorem arm_length (block : NamedBlock) (next : BlockId) :
    (arm block next).length = if isConditional block.terminator then 1 else 0 := by
  unfold arm isConditional
  cases block.terminator <;> rfl

theorem next_noEnd {next : BlockId} (isNext : next ∈ successors block.terminator) : ¬ isEnd block.terminator = true := by
  intro isLast
  cases terminator : block.terminator <;> rw [terminator] at isNext isLast <;> cases isLast <;> cases isNext

-- The arms that are taken tell a path from every other path.
theorem arms_injective (cfg : DirectCfg) :
    ∀ (nodes nodes' : List NamedBlock) (start : BlockId) (visited visited' : List BlockId),
      PathFrom cfg.toNamedCfg start visited nodes → PathFrom cfg.toNamedCfg start visited' nodes' →
      arms nodes = arms nodes' → nodes = nodes' := by
  intro nodes
  induction nodes with
  | nil =>
    intro nodes' start visited visited' path _ _
    exact absurd path.starts (by simp)
  | cons block rest ih =>
    intro nodes' start visited visited' path path' same
    obtain rfl : block.id = start := by simpa using path.starts
    have inside := path.inside block List.mem_cons_self
    rcases (pathFrom_inv cfg inside path).2 with ⟨isOnly,isLast⟩ | ⟨next,isNext,others,isCons,later⟩
    · rcases (pathFrom_inv cfg inside path').2 with ⟨isOnly',_⟩ | ⟨next',isNext',_⟩
      · rw [isOnly,isOnly']
      · exact absurd isLast (next_noEnd isNext')
    · obtain rfl : rest = others := List.tail_eq_of_cons_eq isCons
      rcases (pathFrom_inv cfg inside path').2 with ⟨_,isLast'⟩ | ⟨next',isNext',rest',rfl,later'⟩
      · exact absurd isLast' (next_noEnd isNext)
      · rw [arms_cons later,arms_cons later'] at same
        have sameLength : (arm block next).length = (arm block next').length := by rw [arm_length,arm_length]
        obtain ⟨sameArm,sameRest⟩ := List.append_inj same sameLength
        obtain rfl : next = next' := by
          cases terminator : block.terminator <;> rw [terminator] at isNext isNext' <;> simp [successors] at isNext isNext'
          case cbranch cond taken fallthrough =>
            have others := cfg.twoArmed block inside cond taken fallthrough terminator
            simp only [arm,terminator,List.cons.injEq,BranchDecision.mk.injEq,and_true,true_and] at sameArm
            rcases isNext with rfl | rfl <;> rcases isNext' with rfl | rfl <;> simp_all
          all_goals rw [isNext,isNext']
        rw [ih rest' next _ _ later later' sameRest]

end PathFrom

section Walks

variable {imports : UInt64 → Option String} {state : WalkState}

-- The ends of a walk are those of the paths from where it is, each path once.
structure Covers (cfg : NamedCfg) (imports : UInt64 → Option String) (state : WalkState) (ends : List WalkState)
    (paths : List (List NamedBlock)) : Prop where
  once : paths.Nodup
  exact : ∀ nodes, nodes ∈ paths ↔ PathFrom cfg state.current state.visited nodes ∧
    state.branchDecisions.length + conditionals nodes ≤ maxBranchDepth
  recorded : ends.map (fun last => (last.events,last.branchDecisions)) =
    paths.map fun nodes => (state.events ++ pathEvents (isPhi cfg) imports nodes,state.branchDecisions ++ arms nodes)

theorem covers_stuck (cfg : DirectCfg) (stuck : Stuck cfg.toNamedCfg state) : Covers cfg.toNamedCfg imports state [] [] := by
  refine ⟨List.nodup_nil,fun nodes => ⟨fun member => absurd member List.not_mem_nil,?_⟩,rfl⟩
  rintro ⟨path,shallow⟩
  exfalso
  cases nodes with
  | nil => exact absurd path.starts (by simp)
  | cons first rest =>
    have named : first.id = state.current := by simpa using path.starts
    have inside := path.inside first List.mem_cons_self
    cases stuck with
    | passed visited => exact path.fresh first List.mem_cons_self (named ▸ visited)
    | missing absent => exact absent first inside named
    | deep block blockInside blockNamed conditional full =>
      obtain rfl : first = block := List.inj_on_of_nodup_map cfg.unique inside blockInside (named.trans blockNamed.symm)
      rw [conditionals_cons,if_pos conditional] at shallow
      omega

theorem covers_finish (cfg : DirectCfg) {block : NamedBlock} {last : WalkState} (inside : block ∈ cfg.blocks)
    (named : block.id = state.current) (fresh : state.current ∉ state.visited)
    (isLast : isEnd block.terminator = true)
    (events : last.events = state.events ++ blockEvents (isPhi cfg.toNamedCfg) imports block)
    (decisions : last.branchDecisions = state.branchDecisions) (shallow : state.branchDecisions.length ≤ maxBranchDepth) :
    Covers cfg.toNamedCfg imports state [last] [[block]] := by
  have plain : isConditional block.terminator = false := by
    cases terminator : block.terminator <;> rw [terminator] at isLast <;> first | rfl | cases isLast
  refine ⟨List.nodup_singleton _,fun nodes => ?_,?_⟩
  · rw [List.mem_singleton]
    constructor
    · rintro rfl
      refine ⟨named ▸ pathFrom_end inside (named ▸ fresh) isLast,?_⟩
      rw [conditionals_cons,plain]
      exact shallow
    · rintro ⟨path,_⟩
      rw [← named] at path
      rcases (pathFrom_inv cfg inside path).2 with ⟨isOnly,_⟩ | ⟨next,isNext,_⟩
      · exact isOnly
      · exact absurd isLast (next_noEnd isNext)
  · simp [events,decisions,pathEvents,arms]

theorem path_turns (cfg : DirectCfg) {block : NamedBlock} {next : BlockId} {visited : List BlockId}
    {nodes : List NamedBlock} (inside : block ∈ cfg.blocks) (named : block.id = state.current)
    (isNext : next ∈ successors block.terminator) (path : PathFrom cfg.toNamedCfg state.current visited nodes) :
    ∃ other ∈ successors block.terminator, ∃ rest, nodes = block :: rest ∧
      PathFrom cfg.toNamedCfg other (state.current :: visited) rest := by
  rw [← named] at path ⊢
  rcases (pathFrom_inv cfg inside path).2 with ⟨_,isLast⟩ | turns
  · exact absurd isLast (next_noEnd isNext)
  · exact turns

theorem pass_exact (cfg : DirectCfg) {block : NamedBlock} {next : BlockId} {ends : List WalkState}
    {paths : List (List NamedBlock)} (inside : block ∈ cfg.blocks) (named : block.id = state.current)
    (fresh : state.current ∉ state.visited) (isNext : next ∈ successors block.terminator)
    (covers : Covers cfg.toNamedCfg imports (state.pass cfg.toNamedCfg imports block next) ends paths)
    (nodes : List NamedBlock) :
    nodes ∈ paths.map (block :: ·) ↔
      ∃ rest, nodes = block :: rest ∧ PathFrom cfg.toNamedCfg next (state.current :: state.visited) rest ∧
        PathFrom cfg.toNamedCfg state.current state.visited nodes ∧
        state.branchDecisions.length + conditionals nodes ≤ maxBranchDepth := by
  rw [List.mem_map]
  have depth : ∀ rest, (state.pass cfg.toNamedCfg imports block next).branchDecisions.length + conditionals rest =
      state.branchDecisions.length + conditionals (block :: rest) := by
    intro rest
    rw [conditionals_cons,WalkState.pass,List.length_append,arm_length]
    omega
  constructor
  · rintro ⟨rest,member,rfl⟩
    obtain ⟨path,shallow⟩ := (covers.exact rest).mp member
    rw [depth] at shallow
    refine ⟨rest,rfl,path,?_,shallow⟩
    rw [← named] at fresh ⊢
    refine pathFrom_cons inside fresh isNext ?_
    rw [named]
    exact path
  · rintro ⟨rest,rfl,path,_,shallow⟩
    refine ⟨rest,(covers.exact rest).mpr ⟨path,?_⟩,rfl⟩
    rw [depth]
    exact shallow

theorem pass_recorded {cfg : NamedCfg} {block : NamedBlock} {next : BlockId} {ends : List WalkState}
    {paths : List (List NamedBlock)} (covers : Covers cfg imports (state.pass cfg imports block next) ends paths) :
    ends.map (fun last => (last.events,last.branchDecisions)) = (paths.map (block :: ·)).map fun nodes =>
      (state.events ++ pathEvents (isPhi cfg) imports nodes,state.branchDecisions ++ arms nodes) := by
  rw [covers.recorded,List.map_map]
  refine List.map_congr_left fun rest member => ?_
  have path := ((covers.exact rest).mp member).1
  rw [Function.comp_apply,arms_cons path]
  unfold WalkState.pass pathEvents
  rw [List.flatMap_cons,List.append_assoc,List.append_assoc]

theorem covers_go (cfg : DirectCfg) {block : NamedBlock} {next : BlockId} {ends : List WalkState}
    {paths : List (List NamedBlock)} (inside : block ∈ cfg.blocks) (named : block.id = state.current)
    (fresh : state.current ∉ state.visited) (only : successors block.terminator = [next])
    (covers : Covers cfg.toNamedCfg imports (state.pass cfg.toNamedCfg imports block next) ends paths) :
    Covers cfg.toNamedCfg imports state ends (paths.map (block :: ·)) := by
  have isNext : next ∈ successors block.terminator := only ▸ List.mem_singleton_self next
  refine ⟨covers.once.map (List.cons_injective),fun nodes => ?_,pass_recorded covers⟩
  rw [pass_exact cfg inside named fresh isNext covers]
  constructor
  · rintro ⟨rest,_,_,path,shallow⟩
    exact ⟨path,shallow⟩
  · rintro ⟨path,shallow⟩
    obtain ⟨other,isOther,rest,isCons,later⟩ := path_turns cfg inside named isNext path
    rw [only,List.mem_singleton] at isOther
    exact ⟨rest,isCons,isOther ▸ later,path,shallow⟩

theorem covers_fork (cfg : DirectCfg) {block : NamedBlock} {cond : VarId} {taken fallthrough : BlockId}
    {left right : List WalkState} {leftPaths rightPaths : List (List NamedBlock)} (inside : block ∈ cfg.blocks)
    (named : block.id = state.current) (fresh : state.current ∉ state.visited)
    (branches : block.terminator = .cbranch cond taken fallthrough)
    (leftCovers : Covers cfg.toNamedCfg imports (state.pass cfg.toNamedCfg imports block taken) left leftPaths)
    (rightCovers : Covers cfg.toNamedCfg imports (state.pass cfg.toNamedCfg imports block fallthrough) right rightPaths) :
    Covers cfg.toNamedCfg imports state (left ++ right) (leftPaths.map (block :: ·) ++ rightPaths.map (block :: ·)) := by
  have areNext : successors block.terminator = [taken,fallthrough] := by rw [branches,successors]
  have isTaken : taken ∈ successors block.terminator := by simp [areNext]
  have isFallthrough : fallthrough ∈ successors block.terminator := by simp [areNext]
  have different := cfg.twoArmed block inside cond taken fallthrough branches
  refine ⟨?_,fun nodes => ?_,?_⟩
  · refine List.Nodup.append (leftCovers.once.map List.cons_injective) (rightCovers.once.map List.cons_injective) ?_
    intro nodes isLeft isRight
    obtain ⟨rest,rfl,leftPath,_⟩ := (pass_exact cfg inside named fresh isTaken leftCovers nodes).mp isLeft
    obtain ⟨rest',isCons,rightPath,_⟩ := (pass_exact cfg inside named fresh isFallthrough rightCovers _).mp isRight
    obtain rfl : rest = rest' := List.tail_eq_of_cons_eq isCons
    have same : some taken = some fallthrough := leftPath.starts.symm.trans rightPath.starts
    exact different (Option.some.inj same)
  · rw [List.mem_append,pass_exact cfg inside named fresh isTaken leftCovers,
      pass_exact cfg inside named fresh isFallthrough rightCovers]
    constructor
    · rintro (⟨rest,_,_,path,shallow⟩ | ⟨rest,_,_,path,shallow⟩)
      · exact ⟨path,shallow⟩
      · exact ⟨path,shallow⟩
    · rintro ⟨path,shallow⟩
      obtain ⟨other,isOther,rest,isCons,later⟩ := path_turns cfg inside named isTaken path
      rw [areNext,List.mem_cons,List.mem_singleton] at isOther
      rcases isOther with rfl | rfl
      · exact .inl ⟨rest,isCons,later,path,shallow⟩
      · exact .inr ⟨rest,isCons,later,path,shallow⟩
  · rw [List.map_append,List.map_append,pass_recorded leftCovers,pass_recorded rightCovers]

theorem walks_cover (cfg : DirectCfg) (imports : UInt64 → Option String)
    (yields : Yields (walkBlock cfg.toNamedCfg imports) tooDeep state ends)
    (shallow : state.branchDecisions.length ≤ maxBranchDepth) :
    ∃ paths, Covers cfg.toNamedCfg imports state ends paths := by
  induction yields with
  | @stop state why expanded =>
    rcases walkBlock_cases cfg imports state with ⟨_,_,stuck⟩ | ⟨block,_,_,_,passes⟩
    · exact ⟨[],covers_stuck cfg stuck⟩
    · rw [expanded] at passes
      cases passes
  | @finish state last expanded =>
    rcases walkBlock_cases cfg imports state with ⟨_,stopped,_⟩ | ⟨block,inside,named,fresh,passes⟩
    · rw [expanded] at stopped
      cases stopped
    · rw [expanded] at passes
      cases passes with
      | finish isLast events decisions => exact ⟨_,covers_finish cfg inside named fresh isLast events decisions shallow⟩
  | @go state next ends expanded _ ih =>
    rcases walkBlock_cases cfg imports state with ⟨_,stopped,_⟩ | ⟨block,inside,named,fresh,passes⟩
    · rw [expanded] at stopped
      cases stopped
    · rw [expanded] at passes
      cases passes with
      | go only unconditional =>
        obtain ⟨paths,covers⟩ := ih (by
          rw [WalkState.pass,List.length_append,arm_length,unconditional]
          exact shallow)
        exact ⟨_,covers_go cfg inside named fresh only covers⟩
  | @fork state now later left right expanded accepted _ _ leftHypothesis rightHypothesis =>
    rcases walkBlock_cases cfg imports state with ⟨_,stopped,_⟩ | ⟨block,inside,named,fresh,passes⟩
    · rw [expanded] at stopped
      cases stopped
    · rw [expanded] at passes
      cases passes with
      | fork branches room =>
        have deeper : ∀ next, (state.pass cfg.toNamedCfg imports block next).branchDecisions.length ≤ maxBranchDepth := by
          intro next
          rw [WalkState.pass,List.length_append,arm_length,branches]
          exact room
        obtain ⟨leftPaths,leftCovers⟩ := leftHypothesis (deeper _)
        obtain ⟨rightPaths,rightCovers⟩ := rightHypothesis (deeper _)
        exact ⟨_,covers_fork cfg inside named fresh branches leftCovers rightCovers⟩

-- A walk passes a block that it has not visited with every step.
def unvisited (cfg : NamedCfg) (state : WalkState) : Nat := cfg.blocks.countP fun block => block.id ∉ state.visited

theorem unvisited_pass (cfg : NamedCfg) (imports : UInt64 → Option String) {block : NamedBlock} (inside : block ∈ cfg.blocks)
    (named : block.id = state.current) (fresh : state.current ∉ state.visited) (next : BlockId) :
    unvisited cfg (state.pass cfg imports block next) < unvisited cfg state := by
  obtain ⟨before,after,split⟩ := List.append_of_mem inside
  have less : ∀ blocks : List NamedBlock,
      blocks.countP (fun other => other.id ∉ (state.pass cfg imports block next).visited) ≤
        blocks.countP fun other => other.id ∉ state.visited := by
    intro blocks
    refine List.countP_mono_left fun other _ isFresh => ?_
    simp only [WalkState.pass,List.mem_cons,not_or,decide_eq_true_eq] at isFresh ⊢
    exact isFresh.2
  have gone : decide (block.id ∉ (state.pass cfg imports block next).visited) = false := by simp [WalkState.pass,named]
  have counted : decide (block.id ∉ state.visited) = true := by simpa [named] using fresh
  have lessBefore := less before
  have lessAfter := less after
  unfold unvisited
  rw [split,List.countP_append,List.countP_append,List.countP_cons,List.countP_cons,gone,counted]
  simp only [Bool.false_eq_true,if_false,if_true]
  omega

theorem walks_yield (cfg : DirectCfg) (imports : UInt64 → Option String) (state : WalkState) :
    ∃ ends, Yields (walkBlock cfg.toNamedCfg imports) tooDeep state ends := by
  refine yields_exists (unvisited cfg.toNamedCfg) ?_ ?_ state
  · intro state next expanded
    rcases walkBlock_cases cfg imports state with ⟨_,stopped,_⟩ | ⟨block,inside,named,fresh,passes⟩
    · rw [expanded] at stopped
      cases stopped
    · rw [expanded] at passes
      cases passes with
      | go only unconditional => exact unvisited_pass cfg.toNamedCfg imports inside named fresh _
  · intro state now later expanded
    rcases walkBlock_cases cfg imports state with ⟨_,stopped,_⟩ | ⟨block,inside,named,fresh,passes⟩
    · rw [expanded] at stopped
      cases stopped
    · rw [expanded] at passes
      cases passes with
      | fork branches room =>
        refine ⟨unvisited_pass cfg.toNamedCfg imports inside named fresh _,
          unvisited_pass cfg.toNamedCfg imports inside named fresh _,if_neg ?_⟩
        rw [WalkState.pass,List.length_append,arm_length,branches]
        exact Nat.not_lt.mpr room

end Walks

section Pairs

variable {events rest : List TaintEvent} {decisions : List BranchDecision} {sources : List (Nat × SourceSpec)}

-- The sources before an event.
structure Sources (events : List TaintEvent) (i : Nat) (sources : List (Nat × SourceSpec)) : Prop where
  once : sources.Nodup
  exact : ∀ k spec, (k,spec) ∈ sources ↔ k < i ∧ SourceAt events k spec

theorem sources_skip {i : Nat} (known : Sources events i sources) (noSource : ∀ spec, ¬ SourceAt events i spec) :
    Sources events (i + 1) sources := by
  refine ⟨known.once,fun k spec => (known.exact k spec).trans ?_⟩
  constructor
  · rintro ⟨before,isSource⟩
    exact ⟨Nat.lt_succ_of_lt before,isSource⟩
  · rintro ⟨before,isSource⟩
    refine ⟨Nat.lt_of_le_of_ne (Nat.le_of_lt_succ before) ?_,isSource⟩
    rintro rfl
    exact noSource spec isSource

theorem sources_add {i : Nat} {spec : SourceSpec} (known : Sources events i sources) (isSource : SourceAt events i spec) :
    Sources events (i + 1) (sources ++ [(i,spec)]) := by
  constructor
  · refine known.once.append (List.nodup_singleton _) ?_
    intro found member isLast
    obtain rfl := List.mem_singleton.mp isLast
    exact absurd ((known.exact i spec).mp member).1 (Nat.lt_irrefl i)
  · intro k other
    rw [List.mem_append,List.mem_singleton,known.exact,Prod.mk.injEq]
    constructor
    · rintro (⟨before,isOther⟩ | ⟨rfl,rfl⟩)
      · exact ⟨Nat.lt_succ_of_lt before,isOther⟩
      · exact ⟨Nat.lt_succ_self _,isSource⟩
    · rintro ⟨before,isOther⟩
      rcases Nat.lt_succ_iff_lt_or_eq.mp before with before | rfl
      · exact .inl ⟨before,isOther⟩
      · obtain ⟨_,_,_,_,at_⟩ := isSource
        obtain ⟨_,_,_,_,at'⟩ := isOther
        rw [at_] at at'
        cases at'
        exact .inr ⟨rfl,rfl⟩

-- What is paired from an event on: the pairs whose sink is there or later.
structure PairedFrom (events : List TaintEvent) (decisions : List BranchDecision) (i : Nat) (paths : List TaintPath) :
    Prop where
  once : paths.Nodup
  exact : ∀ path, path ∈ paths ↔ Paired events decisions path ∧ i ≤ path.sinkEvent

theorem pairedFrom_skip {i : Nat} {paths : List TaintPath} (noSink : ∀ spec, ¬ SinkAt events i spec)
    (later : PairedFrom events decisions (i + 1) paths) : PairedFrom events decisions i paths := by
  refine ⟨later.once,fun path => (later.exact path).trans ?_⟩
  constructor
  · rintro ⟨isPair,after⟩
    exact ⟨isPair,Nat.le_of_succ_le after⟩
  · rintro ⟨isPair,after⟩
    refine ⟨isPair,Nat.lt_of_le_of_ne after ?_⟩
    rintro rfl
    exact noSink _ isPair.sink

theorem pairedFrom_sink {i : Nat} {paths : List TaintPath} {spec : SinkSpec} (known : Sources events i sources)
    (isSink : SinkAt events i spec) (later : PairedFrom events decisions (i + 1) paths) :
    PairedFrom events decisions i
      (sources.map (fun source => ⟨source.2,source.1,spec,i,events,decisions⟩) ++ paths) := by
  constructor
  · refine List.Nodup.append (known.once.map ?_) later.once ?_
    · intro source source' same
      have both := TaintPath.mk.inj same
      exact Prod.ext both.2.1 both.1
    · intro path member after
      obtain ⟨source,_,rfl⟩ := List.mem_map.mp member
      exact absurd ((later.exact _).mp after).2 (Nat.not_succ_le_self i)
  · intro path
    rw [List.mem_append,List.mem_map,later.exact]
    constructor
    · rintro (⟨source,member,rfl⟩ | ⟨isPair,after⟩)
      · obtain ⟨before,isSource⟩ := (known.exact source.1 source.2).mp member
        exact ⟨⟨rfl,rfl,isSource,isSink,before⟩,Nat.le_refl i⟩
      · exact ⟨isPair,Nat.le_of_succ_le after⟩
    · rintro ⟨isPair,after⟩
      rcases Nat.eq_or_lt_of_le after with here | after
      · refine .inl ⟨(path.sourceEvent,path.source),(known.exact _ _).mpr ⟨here ▸ isPair.later,isPair.source⟩,?_⟩
        obtain ⟨_,_,_,_,at_⟩ := isSink
        obtain ⟨_,_,_,_,at'⟩ := isPair.sink
        rw [← here,at_] at at'
        cases path
        cases at'
        cases isPair.sameEvents
        cases isPair.sameDecisions
        cases here
        rfl
      · exact .inr ⟨isPair,after⟩

theorem pairFrom_exact (decisions : List BranchDecision) : ∀ (rest done : List TaintEvent) (sources : List (Nat × SourceSpec)),
    Sources (done ++ rest) done.length sources →
    PairedFrom (done ++ rest) decisions done.length (pairFrom (done ++ rest) decisions done.length sources rest) := by
  intro rest
  induction rest with
  | nil =>
    intro done sources known
    refine ⟨List.nodup_nil,fun path => ⟨fun member => absurd member List.not_mem_nil,?_⟩⟩
    rintro ⟨isPair,after⟩
    obtain ⟨_,_,_,_,at_⟩ := isPair.sink
    rw [List.append_nil,List.getElem?_eq_none after] at at_
    cases at_
  | cons ev rest ih =>
    intro done sources known
    have here : (done ++ ev :: rest)[done.length]? = some ev := by simp
    have later := ih (done ++ [ev])
    simp only [List.append_assoc,List.singleton_append,List.length_append,List.length_singleton] at later
    obtain ⟨idx,kind⟩ := ev
    cases kind with
    | sourceCall spec args out chain =>
      refine pairedFrom_skip ?_ (later _ (sources_add known ⟨_,_,_,_,here⟩))
      rintro other ⟨_,_,_,_,at_⟩
      rw [here] at at_
      cases at_
    | sinkCall spec args out chain =>
      refine pairedFrom_sink known ⟨_,_,_,_,here⟩ (later _ (sources_skip known ?_))
      rintro other ⟨_,_,_,_,at_⟩
      rw [here] at at_
      cases at_
    | _ =>
      refine pairedFrom_skip ?_ (later _ (sources_skip known ?_)) <;>
      · rintro other ⟨_,_,_,_,at_⟩
        rw [here] at at_
        cases at_

theorem pairs_exact (events : List TaintEvent) (decisions : List BranchDecision) :
    PairedFrom events decisions 0 (pairFrom events decisions 0 [] events) := by
  refine pairFrom_exact decisions events [] [] ⟨List.nodup_nil,fun k spec => ?_⟩
  simp

end Pairs

-- The pairs of the ends of a walk are those of the paths it covers.
theorem covers_pairs {imports : UInt64 → Option String} {ends : List WalkState} {paths : List (List NamedBlock)} (cfg : DirectCfg)
    (covers : Covers cfg.toNamedCfg imports ⟨cfg.entry,[],[],[]⟩ ends paths) :
    Enumerates (isPhi cfg.toNamedCfg) imports cfg.toNamedCfg (ends.flatMap pairUp) := by
  have isPath : ∀ nodes, nodes ∈ paths ↔ AcyclicPath cfg.toNamedCfg nodes := by
    intro nodes
    rw [covers.exact]
    constructor
    · rintro ⟨path,shallow⟩
      exact ⟨path,by simpa using shallow⟩
    · rintro ⟨path,shallow⟩
      exact ⟨path,by simpa using shallow⟩
  have pairs : ends.flatMap pairUp = paths.flatMap fun nodes =>
      pairFrom (pathEvents (isPhi cfg.toNamedCfg) imports nodes) (arms nodes) 0 []
        (pathEvents (isPhi cfg.toNamedCfg) imports nodes) := by
    have recorded := congrArg (List.flatMap fun last => pairFrom last.1 last.2 0 [] last.1) covers.recorded
    simp only [List.flatMap_map,List.nil_append] at recorded
    exact recorded
  have tells : ∀ nodes nodes' path, AcyclicPath cfg.toNamedCfg nodes →
      Paired (pathEvents (isPhi cfg.toNamedCfg) imports nodes) (arms nodes) path → AcyclicPath cfg.toNamedCfg nodes' →
      Paired (pathEvents (isPhi cfg.toNamedCfg) imports nodes') (arms nodes') path → nodes = nodes' := by
    intro nodes nodes' path isAcyclic isPair isAcyclic' isPair'
    exact arms_injective cfg nodes nodes' _ _ _ isAcyclic.path isAcyclic'.path
      (isPair.sameDecisions.symm.trans isPair'.sameDecisions)
  have members : ∀ path, path ∈ ends.flatMap pairUp ↔
      ∃ nodes, AcyclicPath cfg.toNamedCfg nodes ∧ Paired (pathEvents (isPhi cfg.toNamedCfg) imports nodes) (arms nodes) path := by
    intro path
    rw [pairs,List.mem_flatMap]
    refine exists_congr fun nodes => ?_
    rw [isPath,(pairs_exact _ _).exact]
    simp
  refine ⟨?_,members,fun path _ nodes nodes' isAcyclic isPair => tells nodes nodes' path isAcyclic isPair⟩
  rw [pairs,List.nodup_flatMap]
  refine ⟨fun nodes _ => (pairs_exact _ _).once,?_⟩
  refine covers.once.pairwise_of_forall_ne fun nodes isMember nodes' isMember' different path found found' => ?_
  exact different (tells nodes nodes' path ((isPath nodes).mp isMember) ((pairs_exact _ _).exact path |>.mp found).1
    ((isPath nodes').mp isMember') ((pairs_exact _ _).exact path |>.mp found').1)

theorem finish_answers {imports : UInt64 → Option String} {cfg : NamedCfg} {skip : VarId → Bool}
    (final : Pending WalkState PathRejection) (few : (allPairs final).length ≤ maxPathsPerFn)
    (enumerated : Enumerates skip imports cfg (allPairs final)) : Answers skip imports cfg (finish final) := by
  have all : (allPairs final).take maxPathsPerFn = allPairs final := List.take_of_length_le few
  unfold finish
  rw [all]
  cases pairs : allPairs final with
  | nil =>
    rw [pairs] at enumerated
    exact enumerated
  | cons first rest =>
    rw [pairs] at enumerated
    exact ⟨List.cons_ne_nil _ _,enumerated⟩

-- The walks come to their end, and when no cap is hit what is returned are the pairs of the acyclic paths, whose events
-- are the statements of a path but the assignments of a phi.
theorem collectPaths_enumerates (cfg : DirectCfg) (imports : UInt64 → Option String) :
    ∃ enough final, (∀ fuel, walks cfg.toNamedCfg imports (enough + fuel) = some final) ∧
      (∀ fuel, collectPaths cfg.toNamedCfg imports (enough + fuel) = some (finish final)) ∧
      (NoCapHit final → Answers (isPhi cfg.toNamedCfg) imports cfg.toNamedCfg (finish final)) := by
  obtain ⟨ends,yields⟩ := walks_yield cfg imports ⟨cfg.entry,[],[],[]⟩
  obtain ⟨paths,covers⟩ := walks_cover cfg imports yields (Nat.zero_le _)
  obtain ⟨enough,final,runs,kept⟩ := search_ends yields rfl
  refine ⟨enough,final,runs,?_,?_⟩
  · intro fuel
    have run : walks cfg.toNamedCfg imports (enough + fuel) = some final := runs fuel
    rw [collectPaths,run,Option.map_some]
  · rintro ⟨noDrop,few⟩
    refine finish_answers final few ?_
    rw [allPairs,kept noDrop]
    exact covers_pairs cfg covers

-- A function that joins two values before it copies what it receives.
def joiningBlock : NamedBlock := ⟨⟨0x1000,[.assign 0,.call (.direct 1) [] none,.call (.direct 2) [] none],.ret none⟩,0⟩

def joining : DirectCfg where
  blocks := [joiningBlock]
  vars := [⟨⟨.const,0,8⟩,.phi [],none,8,false⟩]
  entry := 0
  unique := List.nodup_singleton _
  twoArmed := by simp [joiningBlock]
  directStmts := by
    intro block member target args out isCall
    obtain rfl := List.mem_singleton.mp member
    simp only [joiningBlock,List.mem_cons,Stmt.call.injEq,reduceCtorEq,false_or,List.not_mem_nil,or_false] at isCall
    rcases isCall with ⟨direct,_⟩ | ⟨direct,_⟩
    · exact ⟨1,direct⟩
    · exact ⟨2,direct⟩
  directTerminators := by simp [joiningBlock]

def joiningImports (addr : UInt64) : Option String :=
  if addr = 1 then some "recv" else if addr = 2 then some "strcpy" else none

-- The assignment of the phi is a statement of the path and none of its events.
theorem collectPaths_phi :
    ∃ final, walks joining.toNamedCfg joiningImports 4 = some final ∧
      collectPaths joining.toNamedCfg joiningImports 4 = some (finish final) ∧ NoCapHit final ∧
      ¬ Answers (fun _ => false) joiningImports joining.toNamedCfg (finish final) := by
  refine ⟨_,rfl,rfl,⟨rfl,by decide⟩,?_⟩
  rintro ⟨_,enumerated⟩
  obtain ⟨nodes,acyclic,isPair⟩ := (enumerated.exact _).mp List.mem_cons_self
  have inside : joiningBlock ∈ joining.blocks := List.mem_singleton_self _
  rcases (pathFrom_inv joining inside acyclic.path).2 with ⟨rfl,_⟩ | ⟨next,isNext,_⟩
  · have sameLength := congrArg List.length isPair.sameEvents
    exact absurd sameLength (by decide)
  · cases isNext

end Rsleigh.Decompile.TaintPaths
