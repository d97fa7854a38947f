import Rsleigh.Decompile.BuildCfg
import Rsleigh.Lib.Sorted

namespace Rsleigh.Decompile

open Pcode
open Decode (Instruction)

-- Where a direct branch goes.
def directTarget : PcodeOp → Option Nat
  | .branch dest | .cbranch dest _ => if dest.space = .ram then some dest.offset.toNat else none
  | _ => none

-- After the op the next instruction starts a block.
def Splits : PcodeOp → Prop
  | .branch _ | .branchInd _ | .call _ | .callInd _ | .ret _ => True
  | .cbranch dest _ => dest.space = .ram
  | _ => False

-- An instruction there starts a block.
inductive Starts (recovery : Recovery) (instructions : List (Nat × Instruction)) : Nat → Prop where
  | entry : Starts recovery instructions (entryAddr instructions)
  | target {addr target : Nat} {inst : Instruction} {op : PcodeOp} : (addr,inst) ∈ instructions → op ∈ inst.ops →
      directTarget op = some target → Starts recovery instructions target
  | next {addr : Nat} {inst : Instruction} {op : PcodeOp} : (addr,inst) ∈ instructions → op ∈ inst.ops →
      Splits op → Starts recovery instructions (addr + inst.len)
  | case {table : JumpTable} {target : Nat} : table ∈ tables recovery instructions → target ∈ table.targets →
      Starts recovery instructions target

theorem mem_opLeaders {op : PcodeOp} {next addr : Nat} :
    addr ∈ opLeaders next op ↔ directTarget op = some addr ∨ Splits op ∧ addr = next := by
  unfold opLeaders directTarget Splits
  cases op with
  | branch dest =>
    by_cases isRam : dest.space = .ram
    · simp [isRam,eq_comm]
    · simp [isRam]
  | cbranch dest cond =>
    by_cases isRam : dest.space = .ram
    · simp [isRam,eq_comm]
    · simp [isRam]
  | branchInd _ | call _ | callInd _ | ret _ => simp
  | copy _ _ | load _ _ _ | store _ _ _ | unary _ _ _ | binary _ _ _ _ | subpiece _ _ _ | callOther _ _ _ => simp

theorem mem_dedupSorted {addr : Nat} : ∀ {numbers : List Nat}, addr ∈ dedupSorted numbers ↔ addr ∈ numbers := by
  intro numbers
  induction numbers with
  | nil => exact Iff.rfl
  | cons first rest ih =>
    unfold dedupSorted
    rw [List.mem_cons,← ih]
    cases isRest : dedupSorted rest with
    | nil => simp
    | cons second later =>
      dsimp only
      split
      · rename_i same
        subst same
        rw [List.mem_cons]
        exact ⟨Or.inr,fun is => is.elim Or.inl id⟩
      · exact List.mem_cons

theorem dedupSorted_strict : ∀ {numbers : List Nat}, numbers.Pairwise (· ≤ ·) → Sorted.Strict id (dedupSorted numbers) := by
  intro numbers
  induction numbers with
  | nil => exact fun _ => List.Pairwise.nil
  | cons first rest ih =>
    intro sorted
    obtain ⟨isFirst,restSorted⟩ := List.pairwise_cons.mp sorted
    have strict := ih restSorted
    have above : ∀ other ∈ dedupSorted rest, first ≤ other := fun other is => isFirst other (mem_dedupSorted.mp is)
    unfold dedupSorted
    cases isRest : dedupSorted rest with
    | nil => exact List.pairwise_singleton _ _
    | cons second later =>
      rw [isRest] at strict above
      dsimp only
      split
      · exact strict
      · rename_i different
        apply List.pairwise_cons.mpr
        refine ⟨?_,strict⟩
        have less : first < second := Nat.lt_of_le_of_ne (above second List.mem_cons_self) different
        intro other isOther
        rcases List.mem_cons.mp isOther with same | isLater
        · subst same
          exact less
        · exact Nat.lt_trans less ((List.pairwise_cons.mp strict).1 other isLater)

section Leaders

variable {recovery : Recovery} {instructions : List (Nat × Instruction)}

theorem mem_rawLeaders {addr : Nat} : addr ∈ rawLeaders recovery instructions ↔ Starts recovery instructions addr := by
  unfold rawLeaders
  rw [List.mem_append,List.mem_cons,List.mem_flatMap,List.mem_flatMap]
  constructor
  · intro isLeader
    rcases isLeader with (isEntry | ⟨⟨start,inst⟩,isInst,isOp⟩) | ⟨table,isTable,isTarget⟩
    · rw [isEntry]
      exact .entry
    · obtain ⟨op,isOp,isLeader⟩ := List.mem_flatMap.mp isOp
      rcases mem_opLeaders.mp isLeader with isTarget | ⟨splits,isNext⟩
      · exact .target isInst isOp isTarget
      · rw [isNext]
        exact .next isInst isOp splits
    · exact .case isTable isTarget
  · intro starts
    cases starts with
    | entry => exact Or.inl (Or.inl rfl)
    | target isInst isOp isTarget =>
      exact Or.inl (Or.inr ⟨_,isInst,List.mem_flatMap.mpr ⟨_,isOp,mem_opLeaders.mpr (Or.inl isTarget)⟩⟩)
    | next isInst isOp splits =>
      exact Or.inl (Or.inr ⟨_,isInst,List.mem_flatMap.mpr ⟨_,isOp,mem_opLeaders.mpr (Or.inr ⟨splits,rfl⟩)⟩⟩)
    | case isTable isTarget => exact Or.inr ⟨_,isTable,isTarget⟩

theorem mem_leaders {addr : Nat} :
    addr ∈ leaders recovery instructions ↔ Starts recovery instructions addr ∧ addr ∈ validAddrs instructions := by
  unfold leaders
  rw [List.mem_filter,mem_dedupSorted,List.mem_mergeSort,mem_rawLeaders,decide_eq_true_eq]

theorem leaders_strict : Sorted.Strict id (leaders recovery instructions) := by
  unfold leaders
  apply List.Pairwise.filter
  apply dedupSorted_strict
  apply List.Pairwise.imp _ (List.pairwise_mergeSort _ _ _)
  · exact of_decide_eq_true
  · intro a b c first second
    exact decide_eq_true (Nat.le_trans (of_decide_eq_true first) (of_decide_eq_true second))
  · intro a b
    rw [Bool.or_eq_true,decide_eq_true_eq,decide_eq_true_eq]
    exact Nat.le_total a b

theorem leaders_nodup : (leaders recovery instructions).Nodup :=
  leaders_strict.imp Nat.ne_of_lt

theorem entry_valid (notEmpty : instructions ≠ []) : entryAddr instructions ∈ validAddrs instructions := by
  unfold entryAddr validAddrs
  cases instructions with
  | nil => exact absurd rfl notEmpty
  | cons first rest => exact List.mem_cons_self

theorem mem_order (notEmpty : instructions ≠ []) {addr : Nat} :
    addr ∈ order recovery instructions ↔ addr ∈ leaders recovery instructions := by
  unfold order
  rw [List.mem_cons,List.mem_filter]
  constructor
  · intro isMember
    rcases isMember with isEntry | isLeader
    · rw [isEntry]
      exact mem_leaders.mpr ⟨.entry,entry_valid notEmpty⟩
    · exact isLeader.1
  · intro isLeader
    by_cases isEntry : addr = entryAddr instructions
    · exact Or.inl isEntry
    · exact Or.inr ⟨isLeader,decide_eq_true isEntry⟩

theorem order_nodup : (order recovery instructions).Nodup := by
  apply List.nodup_cons.mpr
  refine ⟨?_,leaders_nodup.filter _⟩
  intro isLeader
  exact of_decide_eq_true (List.mem_filter.mp isLeader).2 rfl

theorem leaderToBlock_some {addr : Nat} {block : BlockId} :
    leaderToBlock recovery instructions addr = some block ↔ (order recovery instructions)[block]? = some addr := by
  unfold leaderToBlock
  rw [List.idxOf?_eq_some_iff,List.getElem?_eq_some_iff]
  constructor
  · intro found
    obtain ⟨inRange,isAddr,_⟩ := found
    exact ⟨inRange,isAddr⟩
  · intro found
    obtain ⟨inRange,isAddr⟩ := found
    refine ⟨inRange,isAddr,?_⟩
    intro other before same
    have distinct := List.pairwise_iff_getElem.mp order_nodup other block (Nat.lt_trans before inRange) inRange before
    exact distinct (same.trans isAddr.symm)

theorem leaderToBlock_isSome (notEmpty : instructions ≠ []) {addr : Nat} :
    (leaderToBlock recovery instructions addr).isSome ↔ addr ∈ leaders recovery instructions := by
  unfold leaderToBlock
  rw [List.isSome_idxOf?,mem_order notEmpty]

theorem leaderToBlock_lt {addr : Nat} {block : BlockId} (found : leaderToBlock recovery instructions addr = some block) :
    block < firstSynthetic recovery instructions :=
  (List.getElem?_eq_some_iff.mp (leaderToBlock_some.mp found)).1

theorem leaderToBlock_inj {addr other : Nat} {block : BlockId}
    (found : leaderToBlock recovery instructions addr = some block)
    (found' : leaderToBlock recovery instructions other = some block) : addr = other := by
  have isAddr := leaderToBlock_some.mp found
  rw [leaderToBlock_some.mp found'] at isAddr
  exact (Option.some.inj isAddr).symm

end Leaders

section Members

variable {recovery : Recovery} {instructions : List (Nat × Instruction)}

-- The address is below the end of an instruction.
def Inside (instructions : List (Nat × Instruction)) (addr : Nat) : Prop :=
  ∃ other inst, (other,inst) ∈ instructions ∧ addr < other + inst.len

-- Some block starts at the address or below.
def Placed (recovery : Recovery) (instructions : List (Nat × Instruction)) (addr : Nat) : Prop :=
  ∃ start ∈ validAddrs instructions, Starts recovery instructions start ∧ start ≤ addr

theorem lt_foldl_max {addr : Nat} : ∀ {ends : List Nat} {first : Nat},
    addr < ends.foldl max first ↔ addr < first ∨ ∃ stop ∈ ends, addr < stop := by
  intro ends
  induction ends with
  | nil => simp
  | cons stop rest ih =>
    intro first
    rw [List.foldl_cons,ih,lt_max_iff,or_assoc]
    simp

theorem lt_funcEnd {addr : Nat} : addr < funcEnd instructions ↔ Inside instructions addr := by
  unfold funcEnd Inside
  rw [lt_foldl_max]
  simp

theorem mem_members {leader addr : Nat} {inst : Instruction} :
    (addr,inst) ∈ members recovery instructions leader ↔
      (addr,inst) ∈ instructions ∧ leader ≤ addr ∧ addr < nextLeader recovery instructions leader := by
  unfold members
  rw [List.mem_mergeSort,List.mem_filter,decide_eq_true_eq]

theorem lt_nextLeader {leader addr : Nat} :
    addr < nextLeader recovery instructions leader ↔
      Inside instructions addr ∧ ∀ other ∈ leaders recovery instructions, other ≤ addr → other ≤ leader := by
  unfold nextLeader
  cases found : ((leaders recovery instructions).dropWhile (· ≤ leader)).head? with
  | none =>
    rw [Option.getD_none,lt_funcEnd]
    exact ⟨fun inside => ⟨inside,fun other isOther _ => Sorted.next_none found other isOther⟩,fun both => both.1⟩
  | some next =>
    obtain ⟨isNext,above,least⟩ := Sorted.next_some leaders_strict found
    rw [Option.getD_some]
    constructor
    · intro before
      refine ⟨?_,?_⟩
      · obtain ⟨⟨start,inst⟩,isInst,isStart⟩ := List.mem_map.mp (mem_leaders.mp isNext).2
        refine ⟨start,inst,isInst,?_⟩
        have isStart : start = next := isStart
        omega
      · intro other isOther isWithin
        by_contra higher
        have := least other isOther (Nat.lt_of_not_le higher)
        omega
    · intro both
      by_contra notBefore
      have := both.2 next isNext (Nat.le_of_not_lt notBefore)
      omega

theorem exists_leader {addr : Nat} (placed : Placed recovery instructions addr) :
    ∃ leader ∈ leaders recovery instructions, leader ≤ addr ∧
      ∀ other ∈ leaders recovery instructions, other ≤ addr → other ≤ leader := by
  apply Sorted.exists_last
  obtain ⟨start,valid,starts,within⟩ := placed
  exact ⟨start,mem_leaders.mpr ⟨starts,valid⟩,within⟩

theorem valid_of_mem {addr : Nat} {inst : Instruction} (isInst : (addr,inst) ∈ instructions) :
    addr ∈ validAddrs instructions :=
  List.mem_map.mpr ⟨(addr,inst),isInst,rfl⟩

theorem members_strict (distinct : (validAddrs instructions).Nodup) (leader : Nat) :
    Sorted.Strict Prod.fst (members recovery instructions leader) := by
  have sorted : (members recovery instructions leader).Pairwise fun a b => a.1 ≤ b.1 := by
    unfold members
    apply List.Pairwise.imp _ (List.pairwise_mergeSort _ _ _)
    · exact of_decide_eq_true
    · intro a b c first second
      exact decide_eq_true (Nat.le_trans (of_decide_eq_true first) (of_decide_eq_true second))
    · intro a b
      rw [Bool.or_eq_true,decide_eq_true_eq,decide_eq_true_eq]
      exact Nat.le_total a.1 b.1
  have different : (members recovery instructions leader).Pairwise fun a b => a.1 ≠ b.1 := by
    unfold members
    apply (List.mergeSort_perm _ _).pairwise_iff (fun {a b} apart => apart.symm) |>.mpr
    exact (List.pairwise_map.mp distinct).filter _
  exact (sorted.and different).imp fun both => Nat.lt_of_le_of_ne both.1 both.2

-- The second instruction is at the end of the first.
def Adjacent (first second : Nat × Instruction) : Prop :=
  first.1 + first.2.len = second.1

-- Neither a gap nor an end is in a block: where an instruction starts no block, the one below reaches it.
def Gapless (recovery : Recovery) (instructions : List (Nat × Instruction)) : Prop :=
  ∀ first ∈ instructions, ∀ second ∈ instructions, first.1 < second.1 →
    (∀ other ∈ instructions, ¬(first.1 < other.1 ∧ other.1 < second.1)) → Placed recovery instructions first.1 →
      Inside instructions second.1 → ¬Starts recovery instructions second.1 → Adjacent first second

theorem members_adjacent (distinct : (validAddrs instructions).Nodup) :
    (∀ leader ∈ leaders recovery instructions, (members recovery instructions leader).IsChain Adjacent) ↔
      Gapless recovery instructions := by
  constructor
  · intro chained first isFirst second isSecond less nothing placed inside noStart
    obtain ⟨leader,isLeader,within,greatest⟩ := exists_leader placed
    have above : ∀ other ∈ leaders recovery instructions, other ≤ second.1 → other ≤ leader := by
      intro other isOther isWithin
      apply greatest other isOther
      by_contra higher
      obtain ⟨starts,valid⟩ := mem_leaders.mp isOther
      obtain ⟨inst,isInst,isAddr⟩ := List.mem_map.mp valid
      have notBetween := nothing inst isInst
      have isSecond : other = second.1 := by omega
      subst isSecond
      exact noStart starts
    have firstMember : first ∈ members recovery instructions leader := by
      refine mem_members.mpr ⟨isFirst,within,lt_nextLeader.mpr ⟨?_,greatest⟩⟩
      obtain ⟨other,inst,isInst,below⟩ := inside
      exact ⟨other,inst,isInst,Nat.lt_trans less below⟩
    have secondMember : second ∈ members recovery instructions leader :=
      mem_members.mpr ⟨isSecond,Nat.le_trans within (Nat.le_of_lt less),lt_nextLeader.mpr ⟨inside,above⟩⟩
    apply (Sorted.isChain_iff_between (members_strict distinct leader)).mp (chained leader isLeader) first firstMember
      second secondMember less
    intro other isOther
    exact nothing other (mem_members.mp isOther).1
  · intro gapless leader isLeader
    apply (Sorted.isChain_iff_between (members_strict distinct leader)).mpr
    intro first isFirst second isSecond less nothing
    obtain ⟨firstInst,firstWithin,_⟩ := mem_members.mp isFirst
    obtain ⟨secondInst,secondWithin,secondBelow⟩ := mem_members.mp isSecond
    obtain ⟨inside,above⟩ := lt_nextLeader.mp secondBelow
    obtain ⟨starts,valid⟩ := mem_leaders.mp isLeader
    apply gapless first firstInst second secondInst less _ ⟨leader,valid,starts,firstWithin⟩ inside
    · intro startsSecond
      have := above second.1 (mem_leaders.mpr ⟨startsSecond,valid_of_mem secondInst⟩) (Nat.le_refl _)
      omega
    · intro other isOther between
      apply nothing other _ between
      exact mem_members.mpr ⟨isOther,Nat.le_trans firstWithin (Nat.le_of_lt between.1),Nat.lt_trans between.2 secondBelow⟩

theorem splits_last (distinct : (validAddrs instructions).Nodup) {leader : Nat}
    (chained : (members recovery instructions leader).IsChain Adjacent) {addr : Nat} {inst : Instruction}
    (isMember : (addr,inst) ∈ members recovery instructions leader) {op : PcodeOp} (isOp : op ∈ inst.ops)
    (splits : Splits op) : ∃ before, members recovery instructions leader = before ++ [(addr,inst)] := by
  obtain ⟨before,after,isSplit⟩ := List.append_of_mem isMember
  cases after with
  | nil => exact ⟨before,isSplit⟩
  | cons second rest =>
    have adjacent : Adjacent (addr,inst) second := by
      rw [isSplit] at chained
      exact (List.isChain_cons_cons.mp (List.isChain_append.mp chained).2.1).1
    have strict := @members_strict recovery _ distinct leader
    rw [isSplit] at strict
    have less := (List.pairwise_cons.mp (List.pairwise_append.mp strict).2.1).1 second List.mem_cons_self
    have secondMember : second ∈ members recovery instructions leader := by
      rw [isSplit]
      exact List.mem_append_right _ (List.mem_cons_of_mem _ List.mem_cons_self)
    obtain ⟨isInst,within,_⟩ := mem_members.mp isMember
    obtain ⟨secondInst,_,secondBelow⟩ := mem_members.mp secondMember
    have starts : Starts recovery instructions second.1 := by
      rw [← adjacent]
      exact .next isInst isOp splits
    have := (lt_nextLeader.mp secondBelow).2 second.1 (mem_leaders.mpr ⟨starts,valid_of_mem secondInst⟩) (Nat.le_refl _)
    dsimp only at less
    omega

end Members

end Rsleigh.Decompile
