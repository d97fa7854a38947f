import Rsleigh.Decompile.Edges

namespace Rsleigh.Decompile

open Pcode
open Decode (Instruction)

section Built

variable {recovery : Recovery} {instructions : List (Nat × Instruction)}

theorem buildBlock_grown (building : Building) (id : BlockId) (leader : Nat) :
    Grown recovery instructions building (buildBlock recovery instructions building id leader).2
      (buildBlock recovery instructions building id leader).1.terminator :=
  terminate_grown building _ _ _

-- The blocks of the leaders in their order, and what they have added.
structure Built (recovery : Recovery) (instructions : List (Nat × Instruction)) (starts : List Nat) (first : BlockId)
    (building : Building) (blocks : List BasicBlock) (building' : Building) : Prop where
  length : blocks.length = starts.length
  made : ∀ (index leader : Nat), starts[index]? = some leader →
    ∃ before, blocks[index]? = some (buildBlock recovery instructions before (first + index) leader).1
  added : ∃ new, building'.synthetic = building.synthetic ++ new ∧ ∀ block ∈ new,
    block.terminator.Within (firstSynthetic recovery instructions + building'.synthetic.length)
  within : ∀ block ∈ blocks,
    block.terminator.Within (firstSynthetic recovery instructions + building'.synthetic.length)

theorem buildBlocks_built : ∀ (starts : List Nat) (first : BlockId) (building : Building),
    Built recovery instructions starts first building (buildBlocks recovery instructions starts first building).1
      (buildBlocks recovery instructions starts first building).2 := by
  intro starts
  induction starts with
  | nil => exact fun first building => ⟨rfl,nofun,⟨[],(List.append_nil _).symm,nofun⟩,nofun⟩
  | cons leader rest ih =>
    intro first building
    unfold buildBlocks
    dsimp only
    have grown := @buildBlock_grown recovery instructions building first leader
    generalize made : (buildBlock recovery instructions building first leader).1 = block at grown ⊢
    generalize (buildBlock recovery instructions building first leader).2 = middle at *
    have built := ih (first + 1) middle
    generalize (buildBlocks recovery instructions rest (first + 1) middle).1 = blocks at *
    generalize (buildBlocks recovery instructions rest (first + 1) middle).2 = last at *
    obtain ⟨new,isNew,newWithin⟩ := grown.added
    obtain ⟨later,isLater,laterWithin⟩ := built.added
    have longer : firstSynthetic recovery instructions + middle.synthetic.length ≤
        firstSynthetic recovery instructions + last.synthetic.length := by
      rw [isLater,List.length_append]
      omega
    refine ⟨by rw [List.length_cons,List.length_cons,built.length],?_,⟨new ++ later,?_,?_⟩,?_⟩
    · intro index start isStart
      cases index with
      | zero =>
        cases isStart
        exact ⟨building,congrArg some made.symm⟩
      | succ index =>
        obtain ⟨before,isMade⟩ := built.made index start isStart
        refine ⟨before,isMade.trans ?_⟩
        rw [Nat.add_assoc,Nat.add_comm 1]
    · rw [isLater,isNew,List.append_assoc]
    · intro added isAdded
      rcases List.mem_append.mp isAdded with isNew | isLater
      · exact within_mono (newWithin added isNew) longer
      · exact laterWithin added isLater
    · intro other isOther
      rcases List.mem_cons.mp isOther with isFirst | isRest
      · rw [isFirst]
        exact within_mono grown.within longer
      · exact built.within other isRest

-- The graph: the blocks of the leaders, and then the synthetic ones.
structure BuiltCfg (recovery : Recovery) (instructions : List (Nat × Instruction)) : Prop where
  length : firstSynthetic recovery instructions ≤ (buildCfg recovery instructions).blocks.length
  ids : ∀ (index : Nat) (block : BasicBlock), (buildCfg recovery instructions).blocks[index]? = some block →
    block.id = index
  within : ∀ block ∈ (buildCfg recovery instructions).blocks,
    block.terminator.Within (buildCfg recovery instructions).blocks.length
  made : ∀ (index leader : Nat), (order recovery instructions)[index]? = some leader →
    ∃ before, (buildCfg recovery instructions).blocks[index]? =
      some (buildBlock recovery instructions before index leader).1

theorem buildCfg_built (notEmpty : instructions ≠ []) : BuiltCfg recovery instructions := by
  have built := @buildBlocks_built recovery instructions
    (order recovery instructions) 0 ⟨[],[]⟩
  have isCfg : (buildCfg recovery instructions).blocks =
      (buildBlocks recovery instructions (order recovery instructions) 0 ⟨[],[]⟩).1 ++
        (buildBlocks recovery instructions (order recovery instructions) 0 ⟨[],[]⟩).2.synthetic.mapIdx fun offset synthetic =>
          (⟨firstSynthetic recovery instructions + offset,synthetic.addr,synthetic.ops,synthetic.terminator⟩ : BasicBlock) := by
    unfold buildCfg
    rw [if_neg (fun isEmpty => notEmpty (List.isEmpty_iff.mp isEmpty))]
  generalize (buildBlocks recovery instructions (order recovery instructions) 0 ⟨[],[]⟩).1 = blocks at *
  generalize (buildBlocks recovery instructions (order recovery instructions) 0 ⟨[],[]⟩).2 = last at *
  have isLength : (buildCfg recovery instructions).blocks.length =
      firstSynthetic recovery instructions + last.synthetic.length := by
    rw [isCfg,List.length_append,List.length_mapIdx,built.length]
    rfl
  have isFirst : blocks.length = firstSynthetic recovery instructions := built.length
  have byLeader : ∀ (index leader : Nat), (order recovery instructions)[index]? = some leader →
      ∃ before, (buildCfg recovery instructions).blocks[index]? =
        some (buildBlock recovery instructions before index leader).1 := by
    intro index leader isLeader
    obtain ⟨before,isMade⟩ := built.made index leader isLeader
    refine ⟨before,?_⟩
    rw [isCfg,List.getElem?_append_left (List.getElem?_eq_some_iff.mp isMade).1,isMade,Nat.zero_add]
  refine ⟨by omega,?_,?_,byLeader⟩
  · intro index block isBlock
    by_cases before : index < blocks.length
    · obtain ⟨leader,isLeader⟩ : ∃ leader, (order recovery instructions)[index]? = some leader :=
        ⟨_,List.getElem?_eq_getElem (built.length ▸ before)⟩
      obtain ⟨building,isMade⟩ := byLeader index leader isLeader
      rw [isMade] at isBlock
      rw [← Option.some.inj isBlock]
      rfl
    · rw [isCfg,List.getElem?_append_right (Nat.le_of_not_lt before),List.getElem?_mapIdx] at isBlock
      obtain ⟨synthetic,_,isMade⟩ := Option.map_eq_some_iff.mp isBlock
      rw [← isMade]
      dsimp only
      rw [← isFirst]
      exact Nat.add_sub_of_le (Nat.le_of_not_lt before)
  · rw [isLength,isCfg]
    intro block isBlock
    rcases List.mem_append.mp isBlock with isReal | isSynthetic
    · exact built.within block isReal
    · obtain ⟨index,inRange,isMade⟩ := List.mem_mapIdx.mp isSynthetic
      obtain ⟨new,isNew,newWithin⟩ := built.added
      rw [← isMade]
      apply newWithin
      rw [List.nil_append] at isNew
      rw [← isNew]
      exact List.getElem_mem inRange

theorem built_addr (notEmpty : instructions ≠ []) {index : Nat} {block : BasicBlock}
    (isBlock : (buildCfg recovery instructions).blocks[index]? = some block)
    (isReal : index < firstSynthetic recovery instructions) :
    (order recovery instructions)[index]? = some block.addr ∧
      ∃ before, block = (buildBlock recovery instructions before index block.addr).1 := by
  obtain ⟨leader,isLeader⟩ : ∃ leader, (order recovery instructions)[index]? = some leader :=
    ⟨_,List.getElem?_eq_getElem isReal⟩
  obtain ⟨before,isMade⟩ := (buildCfg_built notEmpty).made index leader isLeader
  rw [isMade] at isBlock
  rw [← Option.some.inj isBlock]
  exact ⟨isLeader,before,rfl⟩

end Built

-- The graph represents the control flow of the instructions.
structure Represented (recovery : Recovery) (instructions : List (Nat × Instruction)) : Prop where
  ids : ∀ (index : Nat) (block : BasicBlock), (buildCfg recovery instructions).blocks[index]? = some block →
    block.id = index
  within : ∀ block ∈ (buildCfg recovery instructions).blocks,
    block.terminator.Within (buildCfg recovery instructions).blocks.length
  adjacent : ∀ (index : Nat) (block : BasicBlock), (buildCfg recovery instructions).blocks[index]? = some block →
    index < firstSynthetic recovery instructions → (members recovery instructions block.addr).IsChain Adjacent
  edges : ∀ (index : Nat) (block : BasicBlock), (buildCfg recovery instructions).blocks[index]? = some block →
    index < firstSynthetic recovery instructions → ∀ (addr : Nat) (inst : Instruction) (op : PcodeOp) (target : Nat),
    (addr,inst) ∈ members recovery instructions block.addr → op ∈ inst.ops → directTarget op = some target →
    target ∈ validAddrs instructions →
    ∃ (next : Nat) (other : BasicBlock), (buildCfg recovery instructions).blocks[next]? = some other ∧
      next < firstSynthetic recovery instructions ∧ other.addr = target ∧ next ∈ block.terminator.successors

-- The copy of the index of a switch has its place: an op before the jump, in the block.
def CopiedIn (recovery : Recovery) (instructions : List (Nat × Instruction)) (addr : Nat) (inst : Instruction)
    (before : Nat) : Prop :=
  before = addr ∧ 1 < inst.ops.length ∨
    before < addr ∧ (∃ other, (before,other) ∈ instructions ∧ other.ops ≠ []) ∧
      ∀ start ∈ validAddrs instructions, Starts recovery instructions start → start ≤ addr → start ≤ before

-- Where the last op of an instruction goes.
def Leaves (recovery : Recovery) (instructions : List (Nat × Instruction)) (addr : Nat) (inst : Instruction)
    (target : Nat) : Prop :=
  match inst.ops.getLast? with
  | none | some (.ret _) => False
  | some (.branch dest) => target = if dest.space = .ram then dest.offset.toNat else addr + inst.len
  | some (.cbranch dest _) => target = addr + inst.len ∨ dest.space = .ram ∧ target = dest.offset.toNat
  | some (.branchInd _) =>
    ∃ table, (tables recovery instructions).find? (fun table => table.jump = addr) = some table ∧
      (∀ case_ ∈ table.targets, case_ ∈ validAddrs instructions) ∧
      (∀ before, table.copyBefore = some before → CopiedIn recovery instructions addr inst before) ∧
      Tested table.targets target
  | some _ => target = addr + inst.len

-- The direct branches of an instruction go where its last op goes.
def BranchesLeave (recovery : Recovery) (instructions : List (Nat × Instruction)) : Prop :=
  ∀ (addr : Nat) (inst : Instruction), (addr,inst) ∈ instructions → Placed recovery instructions addr →
    Inside instructions addr → ∀ op ∈ inst.ops, ∀ target, directTarget op = some target →
      target ∈ validAddrs instructions → Leaves recovery instructions addr inst target

section Leaving

variable {recovery : Recovery} {instructions : List (Nat × Instruction)}

theorem splits_target {op : PcodeOp} {target : Nat} (isTarget : directTarget op = some target) : Splits op := by
  cases op with
  | branch dest => trivial
  | cbranch dest cond =>
    by_cases isRam : dest.space = .ram
    · exact isRam
    · have isNone : directTarget (.cbranch dest cond) = none := if_neg isRam
      rw [isNone] at isTarget
      cases isTarget
  | _ => cases isTarget

theorem mem_instOps {entries : List (Nat × Instruction)} {addr : Nat} :
    (∃ op ∈ instOps entries, op.1 = addr) ↔ ∃ inst, (addr,inst) ∈ entries ∧ inst.ops ≠ [] := by
  unfold instOps
  constructor
  · intro found
    obtain ⟨op,isOp,isAddr⟩ := found
    obtain ⟨⟨start,inst⟩,isInst,isOp⟩ := List.mem_flatMap.mp isOp
    obtain ⟨inner,isInner,isPair⟩ := List.mem_map.mp isOp
    rw [← isPair] at isAddr
    cases isAddr
    exact ⟨inst,isInst,List.ne_nil_of_mem isInner⟩
  · intro found
    obtain ⟨inst,isInst,notEmpty⟩ := found
    obtain ⟨op,isOp⟩ := List.exists_mem_of_ne_nil inst.ops notEmpty
    exact ⟨(addr,op),List.mem_flatMap.mpr ⟨(addr,inst),isInst,List.mem_map.mpr ⟨op,isOp,rfl⟩⟩,rfl⟩

-- The ops before the last one.
theorem mem_opsBefore {before : List (Nat × Instruction)} {addr place : Nat} {inst : Instruction}
    (notEmpty : inst.ops ≠ []) :
    (∃ op ∈ (instOps (before ++ [(addr,inst)])).dropLast, op.1 = place) ↔
      (∃ other, (place,other) ∈ before ∧ other.ops ≠ []) ∨ place = addr ∧ 1 < inst.ops.length := by
  have isSplit : instOps (before ++ [(addr,inst)]) = instOps before ++ inst.ops.map fun op => (addr,op) := by
    unfold instOps
    rw [List.flatMap_append,List.flatMap_singleton]
  have mapEmpty : (inst.ops.map fun op => (addr,op)) ≠ [] := fun isNil => notEmpty (List.map_eq_nil_iff.mp isNil)
  rw [isSplit,List.dropLast_append_of_ne_nil mapEmpty,← mem_instOps]
  constructor
  · intro found
    obtain ⟨op,isOp,isPlace⟩ := found
    rcases List.mem_append.mp isOp with isBefore | isHere
    · exact Or.inl ⟨op,isBefore,isPlace⟩
    · rw [← List.map_dropLast] at isHere
      obtain ⟨inner,isInner,isPair⟩ := List.mem_map.mp isHere
      rw [← isPair] at isPlace
      refine Or.inr ⟨isPlace.symm,?_⟩
      have isSome : 0 < inst.ops.dropLast.length := List.length_pos_of_mem isInner
      rw [List.length_dropLast] at isSome
      omega
  · intro found
    rcases found with ⟨op,isOp,isPlace⟩ | ⟨isHere,more⟩
    · exact ⟨op,List.mem_append_left _ isOp,isPlace⟩
    · have isSome : inst.ops.dropLast ≠ [] := by
        intro isNil
        have isLength := congrArg List.length isNil
        rw [List.length_dropLast,List.length_nil] at isLength
        omega
      obtain ⟨op,isOp⟩ := List.exists_mem_of_ne_nil _ isSome
      refine ⟨(addr,op),List.mem_append_right _ ?_,isHere.symm⟩
      rw [← List.map_dropLast]
      exact List.mem_map.mpr ⟨op,isOp,rfl⟩

theorem usableTable_some {at_ : Nat} {ops : List Op} {table : JumpTable} (notEmpty : instructions ≠ []) :
    usableTable recovery instructions at_ ops = some table ↔
      (tables recovery instructions).find? (fun table => table.jump = at_) = some table ∧
        (∀ case_ ∈ table.targets, case_ ∈ validAddrs instructions) ∧
        ∀ before, table.copyBefore = some before → ∃ op ∈ ops, op.1 = before := by
  unfold usableTable
  rw [Option.filter_eq_some_iff,Option.filter_eq_some_iff,and_assoc]
  apply and_congr_right
  intro isTable
  have inTables := List.mem_of_find?_eq_some isTable
  apply and_congr
  · rw [List.all_eq_true]
    apply forall_congr'
    intro case_
    apply imp_congr_right
    intro isCase
    rw [leaderToBlock_isSome notEmpty,mem_leaders]
    exact and_iff_right (.case inTables isCase)
  · cases table.copyBefore with
    | none => simp
    | some before => simp

-- In a block that the instruction ends, the last op is the instruction's.
theorem lastLeaves_iff {leader addr target : Nat} {inst : Instruction} {before : List (Nat × Instruction)}
    (distinct : (validAddrs instructions).Nodup) (isLeader : leader ∈ leaders recovery instructions)
    (isSplit : members recovery instructions leader = before ++ [(addr,inst)]) (notEmpty : inst.ops ≠ []) :
    LastLeaves recovery instructions addr (addr + inst.len) (instOps (members recovery instructions leader)) target ↔
      Leaves recovery instructions addr inst target := by
  have isMember : (addr,inst) ∈ members recovery instructions leader := by
    rw [isSplit]
    exact List.mem_append_right _ List.mem_cons_self
  obtain ⟨isInst,within,below⟩ := mem_members.mp isMember
  have isLast : (instOps (members recovery instructions leader)).getLast? =
      inst.ops.getLast?.map fun op => (addr,op) := by
    unfold instOps
    rw [isSplit,List.flatMap_append,List.flatMap_singleton,List.getLast?_append_of_ne_nil,List.getLast?_map]
    exact fun isNil => notEmpty (List.map_eq_nil_iff.mp isNil)
  have isCopied : ∀ place, (∃ op ∈ (instOps (members recovery instructions leader)).dropLast, op.1 = place) ↔
      CopiedIn recovery instructions addr inst place := by
    intro place
    rw [isSplit,mem_opsBefore notEmpty]
    unfold CopiedIn
    rw [or_comm]
    apply or_congr_right
    have strict := @members_strict recovery _ distinct leader
    rw [isSplit] at strict
    have isBefore := fun other is => (List.pairwise_append.mp strict).2.2 other is (addr,inst) List.mem_cons_self
    constructor
    · intro found
      obtain ⟨other,isOther,isSome⟩ := found
      obtain ⟨otherInst,otherWithin,_⟩ := mem_members.mp (isSplit ▸ List.mem_append_left _ isOther :
        (place,other) ∈ members recovery instructions leader)
      refine ⟨isBefore (place,other) isOther,⟨other,otherInst,isSome⟩,?_⟩
      intro start valid starts isWithin
      exact Nat.le_trans ((lt_nextLeader.mp below).2 start (mem_leaders.mpr ⟨starts,valid⟩) isWithin) otherWithin
    · intro found
      obtain ⟨less,⟨other,otherInst,isSome⟩,noStart⟩ := found
      obtain ⟨starts,valid⟩ := mem_leaders.mp isLeader
      have otherMember : (place,other) ∈ members recovery instructions leader :=
        mem_members.mpr ⟨otherInst,noStart leader valid starts within,Nat.lt_trans less below⟩
      rw [isSplit] at otherMember
      rcases List.mem_append.mp otherMember with isOther | isHere
      · exact ⟨other,isOther,isSome⟩
      · cases List.mem_singleton.mp isHere
        exact absurd less (Nat.lt_irrefl _)
  unfold LastLeaves Leaves
  rw [isLast]
  cases isOp : inst.ops.getLast? with
  | none => exact Iff.rfl
  | some op =>
    cases op with
    | branchInd dest =>
      dsimp only [Option.map_some]
      apply exists_congr
      intro table
      rw [usableTable_some (List.ne_nil_of_mem isInst),and_assoc,and_assoc]
      apply and_congr_right
      intro _
      apply and_congr_right
      intro _
      apply and_congr_left
      intro _
      exact forall_congr' fun place => imp_congr_right fun _ => isCopied place
    | _ => exact Iff.rfl

end Leaving

section Represented

variable {recovery : Recovery} {instructions : List (Nat × Instruction)}

theorem built_edge {index leader addr target : Nat} {inst : Instruction} {before : List (Nat × Instruction)}
    {building : Building} {block : BlockId} (distinct : (validAddrs instructions).Nodup)
    (isLeader : leader ∈ leaders recovery instructions)
    (isSplit : members recovery instructions leader = before ++ [(addr,inst)]) (notEmpty : inst.ops ≠ [])
    (isTarget : leaderToBlock recovery instructions target = some block) :
    block ∈ (buildBlock recovery instructions building index leader).1.terminator.successors ↔
      Leaves recovery instructions addr inst target := by
  have isLast : lastInst recovery instructions leader = (addr,inst.len) := by
    unfold lastInst
    rw [isSplit,List.getLast?_append_of_ne_nil _ (List.cons_ne_nil _ _)]
    rfl
  unfold buildBlock
  rw [isLast]
  exact (terminate_edge building addr (addr + inst.len) _ isTarget).trans
    (lastLeaves_iff distinct isLeader isSplit notEmpty)

theorem valid_target {addr target : Nat} {inst : Instruction} {op : PcodeOp} (isInst : (addr,inst) ∈ instructions)
    (isOp : op ∈ inst.ops) (isTarget : directTarget op = some target) (valid : target ∈ validAddrs instructions) :
    ∃ block, leaderToBlock recovery instructions target = some block :=
  Option.isSome_iff_exists.mp ((leaderToBlock_isSome (List.ne_nil_of_mem isInst)).mpr
    (mem_leaders.mpr ⟨.target isInst isOp isTarget,valid⟩))

theorem represented_chained (represented : Represented recovery instructions) :
    ∀ leader ∈ leaders recovery instructions, (members recovery instructions leader).IsChain Adjacent := by
  intro leader isLeader
  have isEmpty : instructions ≠ [] := by
    intro isEmpty
    subst isEmpty
    cases (mem_leaders.mp isLeader).2
  obtain ⟨index,isIndex⟩ := List.getElem?_of_mem ((mem_order isEmpty).mpr isLeader)
  obtain ⟨building,isMade⟩ := (buildCfg_built isEmpty).made index leader isIndex
  exact represented.adjacent index _ isMade (List.getElem?_eq_some_iff.mp isIndex).1

theorem represented_leaves (distinct : (validAddrs instructions).Nodup)
    (represented : Represented recovery instructions) : BranchesLeave recovery instructions := by
  intro addr inst isInst placed inside op isOp target isTarget valid
  have isEmpty : instructions ≠ [] := List.ne_nil_of_mem isInst
  obtain ⟨leader,isLeader,within,greatest⟩ := exists_leader placed
  have isMember : (addr,inst) ∈ members recovery instructions leader :=
    mem_members.mpr ⟨isInst,within,lt_nextLeader.mpr ⟨inside,greatest⟩⟩
  obtain ⟨before,isSplit⟩ := splits_last distinct (represented_chained represented leader isLeader) isMember isOp
    (splits_target isTarget)
  obtain ⟨index,isIndex⟩ := List.getElem?_of_mem ((mem_order isEmpty).mpr isLeader)
  obtain ⟨building,isMade⟩ := (buildCfg_built isEmpty).made index leader isIndex
  obtain ⟨next,other,isOther,isReal,isAddr,isSuccessor⟩ := represented.edges index _ isMade
    (List.getElem?_eq_some_iff.mp isIndex).1 addr inst op target isMember isOp isTarget valid
  have isBlock : leaderToBlock recovery instructions target = some next := by
    rw [← isAddr]
    exact leaderToBlock_some.mpr (built_addr isEmpty isOther isReal).1
  exact (built_edge distinct isLeader isSplit (List.ne_nil_of_mem isOp) isBlock).mp isSuccessor

theorem represented_of (notEmpty : instructions ≠ []) (distinct : (validAddrs instructions).Nodup)
    (gapless : Gapless recovery instructions) (leave : BranchesLeave recovery instructions) :
    Represented recovery instructions := by
  have built : BuiltCfg recovery instructions := buildCfg_built notEmpty
  have chained := (members_adjacent distinct).mpr gapless
  have isStart : ∀ (index : Nat) (block : BasicBlock), (buildCfg recovery instructions).blocks[index]? = some block →
      index < firstSynthetic recovery instructions → block.addr ∈ leaders recovery instructions :=
    fun index block isBlock isReal =>
      (mem_order notEmpty).mp (List.mem_of_getElem? (built_addr notEmpty isBlock isReal).1)
  refine ⟨built.ids,built.within,fun index block isBlock isReal => chained _ (isStart index block isBlock isReal),?_⟩
  intro index block isBlock isReal addr inst op target isMember isOp isTarget valid
  have isLeader := isStart index block isBlock isReal
  obtain ⟨isInst,within,below⟩ := mem_members.mp isMember
  obtain ⟨before,isSplit⟩ := splits_last distinct (chained _ isLeader) isMember isOp (splits_target isTarget)
  obtain ⟨next,isNext⟩ := @valid_target recovery _ _ _ _ _ isInst isOp isTarget valid
  obtain ⟨building,isMade⟩ := built.made next target (leaderToBlock_some.mp isNext)
  obtain ⟨starts,isValid⟩ := mem_leaders.mp isLeader
  have leaves := leave addr inst isInst ⟨block.addr,isValid,starts,within⟩ (lt_nextLeader.mp below).1 op isOp target
    isTarget valid
  refine ⟨next,_,isMade,leaderToBlock_lt isNext,rfl,?_⟩
  obtain ⟨_,_,isBuilt⟩ := built_addr notEmpty isBlock isReal
  rw [isBuilt]
  exact (built_edge distinct isLeader isSplit (List.ne_nil_of_mem isOp) isNext).mpr leaves

-- The graph represents the instructions where no block has a gap, and where the branches in an instruction go
-- where its last op goes.
theorem buildCfg_represents (recovery : Recovery) (instructions : List (Nat × Instruction))
    (distinct : (validAddrs instructions).Nodup) :
    Represented recovery instructions ↔ Gapless recovery instructions ∧ BranchesLeave recovery instructions := by
  by_cases isEmpty : instructions = []
  · subst isEmpty
    exact ⟨fun _ => ⟨nofun,nofun⟩,fun _ => ⟨nofun,nofun,nofun,nofun⟩⟩
  · constructor
    · intro represented
      exact ⟨(members_adjacent distinct).mp (represented_chained represented),represented_leaves distinct represented⟩
    · intro conditions
      exact represented_of isEmpty distinct conditions.1 conditions.2

end Represented

section Examples

-- Nothing is recovered.
def noRecovery : Recovery where
  find _ := []
  resolveCallindTarget _ dest _ _ := .indirect dest

def copyInst (len : Nat) : Instruction where
  len := len
  disassembly := ""
  ops := [.copy (.register 0 8) (.register 8 8)]
  constructor := none

-- An instruction, and another one after a gap.
def gapped : List (Nat × Instruction) :=
  [(0x10,copyInst 2),(0x20,copyInst 2)]

-- A loop within an instruction, with an exit to the next one.
def repeated : List (Nat × Instruction) :=
  [(0x10,{ copyInst 2 with ops := [.cbranch (.ram 0x12 8) (.register 8 1),.branch (.ram 0x10 8)] }),
    (0x12,{ copyInst 1 with ops := [.ret (.register 0 8)] })]

-- An instruction, and the next one.
def contiguous : List (Nat × Instruction) :=
  [(0x10,copyInst 2),(0x12,copyInst 2)]

theorem buildCfg_represents_contiguous :
    Represented noRecovery contiguous ↔ Gapless noRecovery contiguous ∧ BranchesLeave noRecovery contiguous :=
  buildCfg_represents noRecovery contiguous (by decide)

-- The copy after the gap is in the block of the copy before it, and the loop has no edge out of it.
theorem buildCfg_misrepresents : ¬Represented noRecovery gapped ∧ ¬Represented noRecovery repeated := by
  constructor
  · intro represented
    have gapless := (members_adjacent (by decide)).mp (represented_chained represented)
    have adjacent := gapless (0x10,copyInst 2) List.mem_cons_self (0x20,copyInst 2)
      (List.mem_cons_of_mem _ List.mem_cons_self) (by decide) (by decide)
      ⟨0x10,List.mem_cons_self,.entry,Nat.le_refl _⟩
      ⟨0x20,copyInst 2,List.mem_cons_of_mem _ List.mem_cons_self,by decide⟩
    have noStart : ¬Starts noRecovery gapped 0x20 := by
      rw [← mem_rawLeaders]
      decide
    exact absurd (adjacent noStart) (by unfold Adjacent; decide)
  · intro represented
    have leaves := represented_leaves (by decide) represented 0x10 _ List.mem_cons_self
      ⟨0x10,List.mem_cons_self,.entry,Nat.le_refl _⟩ ⟨0x10,_,List.mem_cons_self,by decide⟩ _ List.mem_cons_self 0x12 rfl
      (by decide)
    have isBack : 0x12 = if (Varnode.ram 0x10 8).space = .ram then (Varnode.ram 0x10 8).offset.toNat else 0x12 := leaves
    exact absurd isBack (by decide)

end Examples

end Rsleigh.Decompile
