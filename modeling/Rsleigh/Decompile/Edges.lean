import Rsleigh.Decompile.Leaders

namespace Rsleigh.Decompile

open Pcode
open Decode (Instruction)

def Terminator.Within (terminator : Terminator) (count : Nat) : Prop :=
  ∀ next : Nat, next ∈ terminator.successors → next < count

theorem within_mono {terminator : Terminator} {count count' : Nat} (within : terminator.Within count)
    (le : count ≤ count') : terminator.Within count' :=
  fun next isNext => Nat.lt_of_lt_of_le (within next isNext) le

-- Of the blocks that a switch dispatches to, its own block tests the first one. With two of them it tests both.
def Tested (cases_ : List α) (case_ : α) : Prop :=
  cases_.head? = some case_ ∨ cases_.length = 2 ∧ cases_[1]? = some case_

section Switch

variable {ops : List Op} {synthetic : List Synthetic} {first at_ : Nat} {index : Varnode} {value : Int}

theorem switchTests_within {last : Nat} (isLast : last < first) : ∀ {cases_ : List Nat} {k : Nat}
    {synthetic : List Synthetic}, (∀ case_ ∈ cases_, case_ < first) →
    ∃ new, switchTests first at_ index value last k cases_ synthetic = synthetic ++ new ∧ new.length = cases_.length ∧
      ∀ added ∈ new, added.terminator.Within (first + (synthetic.length + new.length)) := by
  intro cases_
  induction cases_ with
  | nil => exact fun _ => ⟨[],(List.append_nil _).symm,rfl,nofun⟩
  | cons case_ rest ih =>
    intro k synthetic areBlocks
    unfold switchTests
    dsimp only
    generalize isTest : (⟨at_,[(switchTest at_ index value k).2],.cbranch (switchTest at_ index value k).1 case_
      (if rest.isEmpty then last else first + synthetic.length + 1)⟩ : Synthetic) = test
    obtain ⟨new,isNew,sameLength,areWithin⟩ := @ih (k + 1) (synthetic ++ [test])
      (fun other isOther => areBlocks other (List.mem_cons_of_mem _ isOther))
    refine ⟨test :: new,?_,?_,?_⟩
    · rw [isNew,List.append_assoc]
      rfl
    · rw [List.length_cons,List.length_cons,sameLength]
    · rw [List.length_append,List.length_singleton] at areWithin
      intro added isAdded
      rcases List.mem_cons.mp isAdded with isFirst | later
      · subst isFirst isTest
        intro next isNext
        have isCase := areBlocks case_ List.mem_cons_self
        rw [List.length_cons]
        unfold Terminator.successors at isNext
        rcases List.mem_cons.mp isNext with taken | fall
        · omega
        · rw [List.mem_singleton] at fall
          split at fall
          · omega
          · rename_i notLast
            have isMore : 0 < rest.length := List.length_pos_iff.mpr (fun isNil => notLast (by rw [isNil]; rfl))
            omega
      · apply within_mono (areWithin added later)
        rw [List.length_cons]
        omega

theorem switchChain_within {cases_ : List Nat} (areBlocks : ∀ case_ ∈ cases_, case_ < first) :
    ∃ new, (switchChain ops synthetic first at_ index value cases_).2.1 = synthetic ++ new ∧
      (∀ added ∈ new, added.terminator.Within (first + (synthetic.length + new.length))) ∧
      (switchChain ops synthetic first at_ index value cases_).2.2.Within (first + (synthetic.length + new.length)) := by
  unfold switchChain
  cases isLast : cases_.getLast? with
  | none => exact ⟨[],(List.append_nil _).symm,nofun,nofun⟩
  | some last =>
    have lastBlock := areBlocks last (List.mem_of_getLast? isLast)
    cases isTested : cases_.dropLast with
    | nil =>
      refine ⟨[],(List.append_nil _).symm,nofun,?_⟩
      intro next isNext
      rw [List.mem_singleton.mp isNext]
      omega
    | cons case_ rest =>
      have tested : ∀ other ∈ case_ :: rest, other < first := fun other isOther =>
        areBlocks other (List.mem_of_mem_dropLast (isTested ▸ isOther))
      obtain ⟨new,isNew,sameLength,areWithin⟩ := @switchTests_within first at_ index value last lastBlock rest 1 synthetic
        (fun other isOther => tested other (List.mem_cons_of_mem _ isOther))
      refine ⟨new,isNew,areWithin,?_⟩
      intro next isNext
      have isCase := tested case_ List.mem_cons_self
      unfold Terminator.successors at isNext
      rcases List.mem_cons.mp isNext with taken | fall
      · omega
      · rw [List.mem_singleton] at fall
        split at fall
        · omega
        · rename_i notLast
          have isMore : 0 < rest.length := List.length_pos_iff.mpr (fun isNil => notLast (by rw [isNil]; rfl))
          omega

theorem switchChain_edge {cases_ : List Nat} {block : Nat} (isBlock : block < first) :
    block ∈ (switchChain ops synthetic first at_ index value cases_).2.2.successors ↔ Tested cases_ block := by
  unfold Tested
  match cases_ with
  | [] => simp [switchChain,Terminator.successors]
  | [last] => simp [switchChain,Terminator.successors,eq_comm]
  | [case_,last] => simp [switchChain,Terminator.successors,eq_comm]
  | case_ :: second :: third :: later =>
    have notSynthetic : block ≠ first + synthetic.length := by omega
    cases isLast : (third :: later).getLast? with
    | none => exact absurd (List.getLast?_eq_none_iff.mp isLast) (List.cons_ne_nil _ _)
    | some last =>
      have never : block = first + synthetic.length → block = case_ := fun is => absurd is notSynthetic
      simpa [switchChain,Terminator.successors,isLast,eq_comm] using never

end Switch

section Terminators

variable {recovery : Recovery} {instructions : List (Nat × Instruction)}

-- What one terminator adds stays among the blocks, and it goes to blocks that are there then.
structure Grown (recovery : Recovery) (instructions : List (Nat × Instruction)) (building building' : Building)
    (terminator : Terminator) : Prop where
  added : ∃ new, building'.synthetic = building.synthetic ++ new ∧ ∀ block ∈ new,
    block.terminator.Within (firstSynthetic recovery instructions + building'.synthetic.length)
  within : terminator.Within (firstSynthetic recovery instructions + building'.synthetic.length)

theorem grown_same {building building' : Building} {terminator : Terminator}
    (same : building'.synthetic = building.synthetic)
    (within : terminator.Within (firstSynthetic recovery instructions)) :
    Grown recovery instructions building building' terminator where
  added := ⟨[],same.trans (List.append_nil _).symm,nofun⟩
  within := within_mono within (Nat.le_add_right _ _)

theorem grown_note {building building' : Building} {terminator : Terminator} {severity : Severity} {kind : DiagKind}
    {addr : Nat} {detail : String}
    (grown : Grown recovery instructions (building.note severity kind addr detail) building' terminator) :
    Grown recovery instructions building building' terminator where
  added := grown.added
  within := grown.within

theorem within_nil {terminator : Terminator} (none : terminator.successors = []) (count : Nat) :
    terminator.Within count := by
  intro next isNext
  rw [none] at isNext
  cases isNext

theorem within_one {terminator : Terminator} {block count : Nat} (one : terminator.successors = [block])
    (less : block < count) : terminator.Within count := by
  intro next isNext
  rw [one] at isNext
  rw [List.mem_singleton.mp isNext]
  exact less

theorem tailCall_grown (building : Building) (at_ : Nat) (target : CallTarget) :
    Grown recovery instructions building (tailCall recovery instructions building at_ target).2
      (tailCall recovery instructions building at_ target).1 := by
  unfold tailCall Building.push
  refine ⟨⟨_,rfl,?_⟩,?_⟩
  · intro block isBlock
    rw [List.mem_singleton.mp isBlock]
    exact within_nil rfl _
  · apply within_one rfl
    rw [List.length_append,List.length_singleton]
    omega

theorem tailCall_edge (building : Building) (at_ : Nat) (target : CallTarget) {block : Nat}
    (isBlock : block < firstSynthetic recovery instructions) :
    block ∉ (tailCall recovery instructions building at_ target).1.successors := by
  unfold tailCall
  intro isNext
  have := List.mem_singleton.mp isNext
  omega

theorem branchTo_grown (building : Building) (at_ : Nat) (dest : Varnode) :
    Grown recovery instructions building (branchTo recovery instructions building at_ dest).2
      (branchTo recovery instructions building at_ dest).1 := by
  unfold branchTo
  dsimp only
  cases found : leaderToBlock recovery instructions dest.offset.toNat with
  | some block => exact grown_same rfl (within_one rfl (leaderToBlock_lt found))
  | none =>
    dsimp only
    split
    · exact grown_note (tailCall_grown _ at_ _)
    · exact grown_same rfl (within_nil rfl _)

theorem branchTo_edge (building : Building) (at_ : Nat) (dest : Varnode) {target : Nat} {block : BlockId}
    (isTarget : leaderToBlock recovery instructions target = some block) :
    block ∈ (branchTo recovery instructions building at_ dest).1.successors ↔ target = dest.offset.toNat := by
  unfold branchTo
  dsimp only
  constructor
  · intro isNext
    cases found : leaderToBlock recovery instructions dest.offset.toNat with
    | some other =>
      rw [found] at isNext
      rw [← List.mem_singleton.mp isNext] at found
      exact leaderToBlock_inj isTarget found
    | none =>
      rw [found] at isNext
      dsimp only at isNext
      split at isNext
      · exact absurd isNext (tailCall_edge _ at_ _ (leaderToBlock_lt isTarget))
      · cases isNext
  · intro same
    rw [← same,isTarget]
    exact List.mem_singleton.mpr rfl

theorem conditionalTail_grown (building : Building) (at_ : Nat) (target : CallTarget) (cond : Varnode) {fall : Nat}
    (fallBlock : fall < firstSynthetic recovery instructions) :
    Grown recovery instructions building ((building.push at_ []
        (.call target (firstSynthetic recovery instructions + building.synthetic.length + 1))).push at_ [] .ret)
      (.cbranch cond (firstSynthetic recovery instructions + building.synthetic.length) fall) := by
  unfold Building.push
  refine ⟨⟨_,List.append_assoc _ _ _,?_⟩,?_⟩
  · intro block isBlock
    rcases List.mem_cons.mp isBlock with isCall | isRet
    · subst isCall
      apply within_one rfl
      rw [List.length_append,List.length_append,List.length_singleton,Nat.add_assoc]
      exact Nat.add_lt_add_left (Nat.lt_succ_self _) _
    · rw [List.mem_singleton.mp isRet]
      exact within_nil rfl _
  · intro other isNext
    rw [List.length_append,List.length_append,List.length_singleton]
    rcases List.mem_cons.mp isNext with isTaken | isFall
    · rw [isTaken]
      omega
    · rw [List.mem_singleton.mp isFall]
      omega

theorem cbranchTo_grown (building : Building) (at_ next : Nat) (dest cond : Varnode) :
    Grown recovery instructions building (cbranchTo recovery instructions building at_ next dest cond).2
      (cbranchTo recovery instructions building at_ next dest cond).1 := by
  unfold cbranchTo
  dsimp only
  cases foundTaken : leaderToBlock recovery instructions dest.offset.toNat with
  | some taken =>
    cases foundFall : leaderToBlock recovery instructions next with
    | some fall =>
      apply grown_same rfl
      intro other isNext
      rcases List.mem_cons.mp isNext with isTaken | isFall
      · rw [isTaken]
        exact leaderToBlock_lt foundTaken
      · rw [List.mem_singleton.mp isFall]
        exact leaderToBlock_lt foundFall
    | none => exact grown_same rfl (within_one rfl (leaderToBlock_lt foundTaken))
  | none =>
    cases foundFall : leaderToBlock recovery instructions next with
    | none => exact grown_same rfl (within_nil rfl _)
    | some fall =>
      have fallBlock := leaderToBlock_lt foundFall
      cases covered : isCovered instructions dest.offset.toNat with
      | true => exact grown_same rfl (within_one rfl fallBlock)
      | false =>
        exact grown_note (conditionalTail_grown _ at_ _ cond fallBlock)

theorem cbranchTo_edge (building : Building) (at_ next : Nat) (dest cond : Varnode) {target : Nat} {block : BlockId}
    (isTarget : leaderToBlock recovery instructions target = some block) :
    block ∈ (cbranchTo recovery instructions building at_ next dest cond).1.successors ↔
      target = next ∨ target = dest.offset.toNat := by
  have notSynthetic := leaderToBlock_lt isTarget
  unfold cbranchTo
  dsimp only
  constructor
  · intro isNext
    cases foundTaken : leaderToBlock recovery instructions dest.offset.toNat with
    | some taken =>
      cases foundFall : leaderToBlock recovery instructions next with
      | some fall =>
        rw [foundTaken,foundFall] at isNext
        rcases List.mem_cons.mp isNext with isTaken | isFall
        · rw [← isTaken] at foundTaken
          exact Or.inr (leaderToBlock_inj isTarget foundTaken)
        · rw [← List.mem_singleton.mp isFall] at foundFall
          exact Or.inl (leaderToBlock_inj isTarget foundFall)
      | none =>
        rw [foundTaken,foundFall] at isNext
        rw [← List.mem_singleton.mp isNext] at foundTaken
        exact Or.inr (leaderToBlock_inj isTarget foundTaken)
    | none =>
      cases foundFall : leaderToBlock recovery instructions next with
      | none =>
        rw [foundTaken,foundFall] at isNext
        cases isNext
      | some fall =>
        rw [foundTaken,foundFall] at isNext
        cases covered : isCovered instructions dest.offset.toNat with
        | true =>
          rw [covered] at isNext
          rw [← List.mem_singleton.mp isNext] at foundFall
          exact Or.inl (leaderToBlock_inj isTarget foundFall)
        | false =>
          rw [covered] at isNext
          rcases List.mem_cons.mp isNext with isTaken | isFall
          · rw [isTaken] at notSynthetic
            exact absurd notSynthetic (Nat.not_lt.mpr (Nat.le_add_right _ _))
          · rw [← List.mem_singleton.mp isFall] at foundFall
            exact Or.inl (leaderToBlock_inj isTarget foundFall)
  · intro goes
    rcases goes with isFall | isTaken
    · rw [← isFall,isTarget]
      cases foundTaken : leaderToBlock recovery instructions dest.offset.toNat with
      | some taken => exact List.mem_cons_of_mem _ (List.mem_singleton.mpr rfl)
      | none =>
        cases covered : isCovered instructions dest.offset.toNat with
        | true => exact List.mem_singleton.mpr rfl
        | false => exact List.mem_cons_of_mem _ (List.mem_singleton.mpr rfl)
    · rw [← isTaken,isTarget]
      cases foundFall : leaderToBlock recovery instructions next with
      | some fall => exact List.mem_cons_self
      | none => exact List.mem_singleton.mpr rfl

theorem callTo_grown (building : Building) (at_ next : Nat) (target : CallTarget) :
    Grown recovery instructions building (callTo recovery instructions building at_ next target).2
      (callTo recovery instructions building at_ next target).1 := by
  unfold callTo
  cases found : leaderToBlock recovery instructions next with
  | some block => exact grown_same rfl (within_one rfl (leaderToBlock_lt found))
  | none =>
    unfold Building.push
    refine ⟨⟨_,rfl,?_⟩,?_⟩
    · intro block isBlock
      rw [List.mem_singleton.mp isBlock]
      exact within_nil rfl _
    · apply within_one rfl
      rw [List.length_append,List.length_singleton]
      omega

theorem callTo_edge (building : Building) (at_ next : Nat) (callee : CallTarget) {target : Nat} {block : BlockId}
    (isTarget : leaderToBlock recovery instructions target = some block) :
    block ∈ (callTo recovery instructions building at_ next callee).1.successors ↔ target = next := by
  unfold callTo
  constructor
  · intro isNext
    cases found : leaderToBlock recovery instructions next with
    | some other =>
      rw [found] at isNext
      rw [← List.mem_singleton.mp isNext] at found
      exact leaderToBlock_inj isTarget found
    | none =>
      rw [found] at isNext
      have notSynthetic := leaderToBlock_lt isTarget
      rw [List.mem_singleton.mp isNext] at notSynthetic
      exact absurd notSynthetic (Nat.not_lt.mpr (Nat.le_add_right _ _))
  · intro same
    rw [← same,isTarget]
    exact List.mem_singleton.mpr rfl

theorem fallsThrough_within (next : Nat) :
    (fallsThrough recovery instructions next).Within (firstSynthetic recovery instructions) := by
  unfold fallsThrough
  cases found : leaderToBlock recovery instructions next with
  | some block => exact within_one rfl (leaderToBlock_lt found)
  | none => exact within_nil rfl _

theorem fallsThrough_edge (next : Nat) {target : Nat} {block : BlockId}
    (isTarget : leaderToBlock recovery instructions target = some block) :
    block ∈ (fallsThrough recovery instructions next).successors ↔ target = next := by
  unfold fallsThrough
  constructor
  · intro isNext
    cases found : leaderToBlock recovery instructions next with
    | some other =>
      rw [found] at isNext
      rw [← List.mem_singleton.mp isNext] at found
      exact leaderToBlock_inj isTarget found
    | none =>
      rw [found] at isNext
      cases isNext
  · intro same
    rw [← same,isTarget]
    exact List.mem_singleton.mpr rfl

theorem usableTable_cases {at_ : Nat} {ops : List Op} {table : JumpTable}
    (usable : usableTable recovery instructions at_ ops = some table) :
    ∀ target ∈ table.targets, ∃ block, leaderToBlock recovery instructions target = some block := by
  obtain ⟨found,_⟩ := Option.filter_eq_some_iff.mp usable
  obtain ⟨_,areCases⟩ := Option.filter_eq_some_iff.mp found
  exact fun target isTarget => Option.isSome_iff_exists.mp (List.all_eq_true.mp areCases target isTarget)

theorem tested_map {targets : List Nat} {target : Nat} {block : BlockId}
    (isTarget : leaderToBlock recovery instructions target = some block)
    (areCases : ∀ target ∈ targets, ∃ block, leaderToBlock recovery instructions target = some block) :
    Tested (targets.map fun target => (leaderToBlock recovery instructions target).getD 0) block ↔
      Tested targets target := by
  have same : ∀ other, other ∈ targets → ((leaderToBlock recovery instructions other).getD 0 = block ↔ other = target) := by
    intro other isOther
    obtain ⟨otherBlock,found⟩ := areCases other isOther
    rw [found,Option.getD_some]
    constructor
    · intro isBlock
      subst isBlock
      exact leaderToBlock_inj found isTarget
    · intro isOther
      subst isOther
      rw [isTarget] at found
      exact (Option.some.inj found).symm
  unfold Tested
  match targets with
  | [] => simp
  | [first] => simp [same first List.mem_cons_self]
  | [first,second] => simp [same first List.mem_cons_self,same second (List.mem_cons_of_mem _ List.mem_cons_self)]
  | first :: second :: third :: later => simp [same first List.mem_cons_self]

theorem jumpThrough_grown (building : Building) (at_ : Nat) (dest : Varnode) (ops : List Op) :
    Grown recovery instructions building (jumpThrough recovery instructions building at_ dest ops).2.2
      (jumpThrough recovery instructions building at_ dest ops).2.1 := by
  unfold jumpThrough
  cases usable : usableTable recovery instructions at_ ops with
  | some table =>
    dsimp only
    have areBlocks : ∀ case_ ∈ table.targets.map fun target => (leaderToBlock recovery instructions target).getD 0,
        case_ < firstSynthetic recovery instructions := by
      intro case_ isCase
      obtain ⟨target,isTarget,isBlock⟩ := List.mem_map.mp isCase
      obtain ⟨block,found⟩ := usableTable_cases usable target isTarget
      rw [← isBlock,found]
      exact leaderToBlock_lt found
    obtain ⟨new,isNew,areWithin,within⟩ := switchChain_within areBlocks
    refine ⟨⟨new,isNew,?_⟩,?_⟩
    · dsimp only
      rw [isNew,List.length_append]
      exact areWithin
    · dsimp only
      rw [isNew,List.length_append]
      exact within
  | none =>
    dsimp only
    split
    · exact grown_same rfl (within_nil rfl _)
    · rcases indirectJumpTailTarget ops dest at_ with ⟨target,ops'⟩
      cases target with
      | some target => exact grown_note (tailCall_grown _ at_ target)
      | none => exact grown_same rfl (within_nil rfl _)

theorem jumpThrough_edge (building : Building) (at_ : Nat) (dest : Varnode) (ops : List Op) {target : Nat}
    {block : BlockId} (isTarget : leaderToBlock recovery instructions target = some block) :
    block ∈ (jumpThrough recovery instructions building at_ dest ops).2.1.successors ↔
      ∃ table, usableTable recovery instructions at_ ops = some table ∧ Tested table.targets target := by
  unfold jumpThrough
  cases usable : usableTable recovery instructions at_ ops with
  | some table =>
    dsimp only
    rw [switchChain_edge (leaderToBlock_lt isTarget),tested_map isTarget (usableTable_cases usable)]
    constructor
    · exact fun tested => ⟨table,rfl,tested⟩
    · intro found
      obtain ⟨_,isTable,tested⟩ := found
      rw [Option.some.inj isTable]
      exact tested
  | none =>
    constructor
    · intro isNext
      dsimp only at isNext
      split at isNext
      · cases isNext
      · rcases isTail : indirectJumpTailTarget ops dest at_ with ⟨callee,ops'⟩
        rw [isTail] at isNext
        cases callee with
        | some callee => exact absurd isNext (tailCall_edge _ at_ callee (leaderToBlock_lt isTarget))
        | none => cases isNext
    · intro found
      obtain ⟨_,isTable,_⟩ := found
      cases isTable

theorem callThrough_grown (building : Building) (at_ next : Nat) (dest : Varnode) (ops : List Op) :
    Grown recovery instructions building (callThrough recovery instructions building at_ next dest ops).2.2
      (callThrough recovery instructions building at_ next dest ops).2.1 := by
  unfold callThrough
  cases userOpCallTarget ops dest with
  | some userOp => exact grown_same rfl (fallsThrough_within next)
  | none =>
    dsimp only
    split
    · exact grown_note (callTo_grown _ at_ next _)
    · exact callTo_grown building at_ next _

theorem callThrough_edge (building : Building) (at_ next : Nat) (dest : Varnode) (ops : List Op) {target : Nat}
    {block : BlockId} (isTarget : leaderToBlock recovery instructions target = some block) :
    block ∈ (callThrough recovery instructions building at_ next dest ops).2.1.successors ↔ target = next := by
  unfold callThrough
  cases userOpCallTarget ops dest with
  | some userOp => exact fallsThrough_edge next isTarget
  | none => exact callTo_edge _ at_ next _ isTarget

theorem terminate_grown (building : Building) (at_ next : Nat) (ops : List Op) :
    Grown recovery instructions building (terminate recovery instructions building at_ next ops).2.2
      (terminate recovery instructions building at_ next ops).2.1 := by
  unfold terminate
  split
  · exact grown_same rfl (within_nil rfl _)
  · split
    · exact grown_same rfl (within_nil rfl _)
    · split
      · exact branchTo_grown building at_ _
      · exact grown_same rfl (fallsThrough_within next)
    · split
      · exact cbranchTo_grown building at_ next _ _
      · exact grown_same rfl (fallsThrough_within next)
    · exact jumpThrough_grown building at_ _ _
    · exact callTo_grown building at_ next _
    · exact callThrough_grown building at_ next _ _
    · exact grown_same rfl (fallsThrough_within next)

-- Where the last op of a block goes, among the addresses of instructions.
def LastLeaves (recovery : Recovery) (instructions : List (Nat × Instruction)) (at_ next : Nat) (ops : List Op)
    (target : Nat) : Prop :=
  match ops.getLast? with
  | none | some (_,.ret _) => False
  | some (_,.branch dest) => target = if dest.space = .ram then dest.offset.toNat else next
  | some (_,.cbranch dest _) => target = next ∨ dest.space = .ram ∧ target = dest.offset.toNat
  | some (_,.branchInd _) =>
    ∃ table, usableTable recovery instructions at_ ops.dropLast = some table ∧ Tested table.targets target
  | some _ => target = next

theorem terminate_edge (building : Building) (at_ next : Nat) (ops : List Op) {target : Nat} {block : BlockId}
    (isTarget : leaderToBlock recovery instructions target = some block) :
    block ∈ (terminate recovery instructions building at_ next ops).2.1.successors ↔
      LastLeaves recovery instructions at_ next ops target := by
  unfold terminate LastLeaves
  rcases ops.getLast? with _ | ⟨addr,op⟩
  · exact List.mem_nil_iff _
  · cases op with
    | ret dest => exact List.mem_nil_iff _
    | branch dest =>
      dsimp only
      by_cases isRam : dest.space = .ram
      · rw [if_pos isRam,if_pos isRam]
        exact branchTo_edge building at_ dest isTarget
      · rw [if_neg isRam,if_neg isRam]
        exact fallsThrough_edge next isTarget
    | cbranch dest cond =>
      dsimp only
      by_cases isRam : dest.space = .ram
      · rw [if_pos isRam,and_iff_right isRam]
        exact cbranchTo_edge building at_ next dest cond isTarget
      · rw [if_neg isRam,or_iff_left (fun both => isRam both.1)]
        exact fallsThrough_edge next isTarget
    | branchInd dest => exact jumpThrough_edge building at_ dest ops.dropLast isTarget
    | call dest => exact callTo_edge building at_ next _ isTarget
    | callInd dest => exact callThrough_edge building at_ next dest ops isTarget
    | copy _ _ | load _ _ _ | store _ _ _ | unary _ _ _ | binary _ _ _ _ | subpiece _ _ _ | callOther _ _ _ =>
      exact fallsThrough_edge next isTarget

end Terminators

end Rsleigh.Decompile
