import Rsleigh.Decompile.Represented

namespace Rsleigh.Decompile

open Pcode
open Decode (Instruction)

section PopIf

variable {strip : PcodeOp → Bool} {ops : List Op}

theorem popIf_concat (init : List Op) (op : Op) :
    popIf strip (init ++ [op]) = if strip op.2 then init else init ++ [op] := by
  obtain ⟨addr,op⟩ := op
  unfold popIf
  rw [List.getLast?_concat,List.dropLast_concat]

theorem popIf_isPrefix : popIf strip ops <+: ops := by
  rcases List.eq_nil_or_concat' ops with rfl | ⟨init,op,rfl⟩
  · exact List.prefix_refl []
  · rw [popIf_concat]
    split
    · exact List.prefix_append init _
    · exact List.prefix_refl _

theorem popIf_keeps_iff {needed : Nat → Prop} :
    (∀ place, needed place → place < ops.length → place < (popIf strip ops).length) ↔
      ∀ init op, ops = init ++ [op] → strip op.2 = true → ¬needed init.length := by
  constructor
  · rintro keeps init op rfl isStripped isNeeded
    have kept := keeps init.length isNeeded (by simp)
    rw [popIf_concat,if_pos isStripped] at kept
    exact Nat.lt_irrefl _ kept
  · intro spares place isNeeded inside
    rcases List.eq_nil_or_concat' ops with rfl | ⟨init,op,rfl⟩
    · exact inside
    · rw [popIf_concat]
      split
      · rename_i isStripped
        have notLast : place ≠ init.length := fun same => spares init op rfl isStripped (same ▸ isNeeded)
        rw [List.length_append,List.length_singleton] at inside
        omega
      · exact inside

end PopIf

-- The three ops of a call that are looked for, from the last one back.
def isPush : PcodeOp → Bool
  | .store _ ptr _ => isEsp ptr ∨ ptr.space = .unique
  | _ => false

def isDecrement : PcodeOp → Bool
  | .binary .intSub out _ _ => isEsp out
  | _ => false

def isPiece : PcodeOp → Bool
  | .subpiece _ _ _ => true
  | _ => false

-- The two ops of a return.
def isIncrement : PcodeOp → Bool
  | .binary .intAdd out _ _ => isEsp out
  | _ => false

def isPop : PcodeOp → Bool
  | .load out _ _ => out.space = .register ∧ out.offset = 256
  | _ => false

theorem stripCallPushOps_eq (ops : List Op) :
    stripCallPushOps ops = popIf isPiece (popIf isDecrement (popIf isPush ops)) := rfl

theorem stripReturnPopOps_eq (ops : List Op) : stripReturnPopOps ops = popIf isPop (popIf isIncrement ops) := rfl

-- Everything but the computation of a temporary.
def HasEffect (op : PcodeOp) : Prop :=
  ∀ out, getOutput op = some out → out.space ≠ .unique

-- In every run that reaches the end of the ops, the varnode has the return address.
def HoldsReturn (next : Nat) (ops : List Op) (varnode : Varnode) : Prop :=
  ∀ env s, (exec env (ops.map Prod.snd) s).left = false →
    (exec env (ops.map Prod.snd) s).read env varnode = next % 256 ^ varnode.size.toNat

-- The call or return has the ops from `own` on. All effects before it are protected, and its own stores but the push
-- of the return address.
def Protected (own next : Nat) (ops : List Op) (place : Nat) : Prop :=
  ∃ op, ops[place]? = some op ∧ (place < own ∧ HasEffect op.2 ∨
    own ≤ place ∧ ∃ space ptr val, op.2 = .store space ptr val ∧ ¬HoldsReturn next (ops.take place) val)

-- The ops that the pops find are of the call, a Store with the return address as its value.
structure CallStripsOwn (own next : Nat) (ops : List Op) : Prop where
  push : ∀ init addr space ptr val, ops = init ++ [(addr,.store space ptr val)] → isEsp ptr ∨ ptr.space = .unique →
    own ≤ init.length ∧ HoldsReturn next init val
  decrement : ∀ init op, popIf isPush ops = init ++ [op] → isDecrement op.2 = true → own ≤ init.length
  piece : ∀ init op, popIf isDecrement (popIf isPush ops) = init ++ [op] → isPiece op.2 = true → HasEffect op.2 →
    own ≤ init.length

structure ReturnStripsOwn (own : Nat) (ops : List Op) : Prop where
  increment : ∀ init op, ops = init ++ [op] → isIncrement op.2 = true → own ≤ init.length
  pop : ∀ init op, popIf isIncrement ops = init ++ [op] → isPop op.2 = true → own ≤ init.length

section Body

variable {own next : Nat} {body ops : List Op}

theorem protected_lt {place : Nat} (isProtected : Protected own next ops place) : place < ops.length := by
  obtain ⟨op,isOp,_⟩ := isProtected
  exact (List.getElem?_eq_some_iff.mp isOp).1

theorem protected_found {found init : List Op} {op : Op} (kept : found <+: ops) (isFound : found = init ++ [op]) :
    Protected own next ops init.length ↔ init.length < own ∧ HasEffect op.2 ∨
      own ≤ init.length ∧ ∃ space ptr val, op.2 = .store space ptr val ∧ ¬HoldsReturn next init val := by
  obtain ⟨later,rfl⟩ := kept
  subst isFound
  have isOp : (init ++ [op] ++ later)[init.length]? = some op := by simp
  have before : (init ++ [op] ++ later).take init.length = init := by simp
  unfold Protected
  rw [isOp,before]
  constructor
  · rintro ⟨other,same,reason⟩
    cases same
    exact reason
  · exact fun reason => ⟨op,rfl,reason⟩

theorem effect_of_store {space : AddressSpaceId} {ptr val : Varnode} : HasEffect (.store space ptr val) := nofun

theorem effect_of_register {op : PcodeOp} {out : Varnode} (isOutput : getOutput op = some out)
    (inRegister : out.space = .register) : HasEffect op := by
  intro other isOther
  rw [isOutput] at isOther
  cases isOther
  simp [inRegister]

theorem spared_register {found init : List Op} {op : Op} (kept : found <+: ops) (isFound : found = init ++ [op])
    (noStore : ∀ space ptr val, op.2 ≠ .store space ptr val) (effect : HasEffect op.2) :
    ¬Protected own next ops init.length ↔ own ≤ init.length := by
  rw [protected_found kept isFound]
  constructor
  · intro spared
    by_contra before
    exact spared (Or.inl ⟨Nat.lt_of_not_le before,effect⟩)
  · rintro inside (⟨before,_⟩ | ⟨_,space,ptr,val,isStore,_⟩)
    · omega
    · exact noStore space ptr val isStore

theorem spared_last {last : Op} (inside : own ≤ body.length) (noStore : ∀ space ptr val, last.2 ≠ .store space ptr val) :
    ¬Protected own next (body ++ [last]) body.length := by
  rw [protected_found (List.prefix_refl _) rfl]
  rintro (⟨before,_⟩ | ⟨_,space,ptr,val,isStore,_⟩)
  · omega
  · exact noStore space ptr val isStore

theorem push_spared_iff :
    (∀ init op, ops = init ++ [op] → isPush op.2 = true → ¬Protected own next ops init.length) ↔
      ∀ init addr space ptr val, ops = init ++ [(addr,.store space ptr val)] → isEsp ptr ∨ ptr.space = .unique →
        own ≤ init.length ∧ HoldsReturn next init val := by
  constructor
  · intro spares init addr space ptr val isFound isPushed
    have spared := spares init _ isFound (by simpa [isPush] using isPushed)
    rw [protected_found (List.prefix_refl _) isFound] at spared
    by_contra overreach
    by_cases inside : own ≤ init.length
    · exact spared (Or.inr ⟨inside,space,ptr,val,rfl,fun holds => overreach ⟨inside,holds⟩⟩)
    · exact spared (Or.inl ⟨Nat.lt_of_not_le inside,effect_of_store⟩)
  · rintro own_push init ⟨addr,op⟩ isFound isPushed
    rw [protected_found (List.prefix_refl _) isFound]
    cases op with
    | store space ptr val =>
      obtain ⟨inside,holds⟩ := own_push init addr space ptr val isFound (by simpa [isPush] using isPushed)
      rintro (⟨before,_⟩ | ⟨_,_,_,_,isStore,differs⟩)
      · omega
      · cases isStore
        exact differs holds
    | _ => cases isPushed

theorem decrement_register {op : PcodeOp} (isDecremented : isDecrement op = true) :
    HasEffect op ∧ ∀ space ptr val, op ≠ .store space ptr val := by
  cases op with
  | binary kind out left right =>
    cases kind with
    | intSub =>
      have isRegister : out.space = .register := by
        simp only [isDecrement,isEsp,decide_eq_true_eq] at isDecremented
        exact isDecremented.1
      exact ⟨effect_of_register rfl isRegister,nofun⟩
    | _ => cases isDecremented
  | _ => cases isDecremented

theorem increment_register {op : PcodeOp} (isIncremented : isIncrement op = true) :
    HasEffect op ∧ ∀ space ptr val, op ≠ .store space ptr val := by
  cases op with
  | binary kind out left right =>
    cases kind with
    | intAdd =>
      have isRegister : out.space = .register := by
        simp only [isIncrement,isEsp,decide_eq_true_eq] at isIncremented
        exact isIncremented.1
      exact ⟨effect_of_register rfl isRegister,nofun⟩
    | _ => cases isIncremented
  | _ => cases isIncremented

theorem pop_register {op : PcodeOp} (isPopped : isPop op = true) :
    HasEffect op ∧ ∀ space ptr val, op ≠ .store space ptr val := by
  cases op with
  | load out space ptr =>
    simp only [isPop,decide_eq_true_eq] at isPopped
    exact ⟨effect_of_register rfl isPopped.1,nofun⟩
  | _ => cases isPopped

theorem piece_spared_iff {found : List Op} (kept : found <+: ops) :
    (∀ init op, found = init ++ [op] → isPiece op.2 = true → ¬Protected own next ops init.length) ↔
      ∀ init op, found = init ++ [op] → isPiece op.2 = true → HasEffect op.2 → own ≤ init.length := by
  constructor
  · intro spares init op isFound isTaken effect
    by_contra before
    exact spares init op isFound isTaken ((protected_found kept isFound).mpr (Or.inl ⟨Nat.lt_of_not_le before,effect⟩))
  · intro own_piece init op isFound isTaken isProtected
    rcases (protected_found kept isFound).mp isProtected with ⟨before,effect⟩ | ⟨_,space,ptr,val,isStore,_⟩
    · have inside := own_piece init op isFound isTaken effect
      omega
    · rw [isStore] at isTaken
      cases isTaken

theorem stripCallPushOps_keeps_iff :
    (∀ place, Protected own next ops place → place < (stripCallPushOps ops).length) ↔ CallStripsOwn own next ops := by
  have first : popIf isPush ops <+: ops := popIf_isPrefix
  have second : popIf isDecrement (popIf isPush ops) <+: popIf isPush ops := popIf_isPrefix
  have third : popIf isPiece (popIf isDecrement (popIf isPush ops)) <+: popIf isDecrement (popIf isPush ops) := popIf_isPrefix
  rw [stripCallPushOps_eq]
  constructor
  · intro keeps
    have atPush := popIf_keeps_iff.mp (fun place isProtected _ =>
      Nat.lt_of_lt_of_le (keeps place isProtected) (third.length_le.trans second.length_le))
    have atDecrement := popIf_keeps_iff.mp (fun place isProtected _ =>
      Nat.lt_of_lt_of_le (keeps place isProtected) third.length_le)
    have atPiece := popIf_keeps_iff.mp (fun place isProtected _ => keeps place isProtected)
    refine ⟨push_spared_iff.mp atPush,?_,(piece_spared_iff (second.trans first)).mp atPiece⟩
    intro init op isFound isStripped
    obtain ⟨effect,noStore⟩ := decrement_register isStripped
    exact (spared_register first isFound noStore effect).mp (atDecrement init op isFound isStripped)
  · intro strips place isProtected
    have atPush := popIf_keeps_iff.mpr (push_spared_iff.mpr strips.push) place isProtected (protected_lt isProtected)
    have atDecrement := popIf_keeps_iff.mpr (fun init op isFound isStripped => by
      obtain ⟨effect,noStore⟩ := decrement_register isStripped
      exact (spared_register first isFound noStore effect).mpr (strips.decrement init op isFound isStripped))
      place isProtected atPush
    exact popIf_keeps_iff.mpr ((piece_spared_iff (second.trans first)).mpr strips.piece) place isProtected atDecrement

theorem stripReturnPopOps_keeps_iff :
    (∀ place, Protected own next ops place → place < (stripReturnPopOps ops).length) ↔ ReturnStripsOwn own ops := by
  have first : popIf isIncrement ops <+: ops := popIf_isPrefix
  have second : popIf isPop (popIf isIncrement ops) <+: popIf isIncrement ops := popIf_isPrefix
  rw [stripReturnPopOps_eq]
  constructor
  · intro keeps
    have atIncrement := popIf_keeps_iff.mp (fun place isProtected _ =>
      Nat.lt_of_lt_of_le (keeps place isProtected) second.length_le)
    have atPop := popIf_keeps_iff.mp (fun place isProtected _ => keeps place isProtected)
    refine ⟨?_,?_⟩
    · intro init op isFound isStripped
      obtain ⟨effect,noStore⟩ := increment_register isStripped
      exact (spared_register (List.prefix_refl _) isFound noStore effect).mp (atIncrement init op isFound isStripped)
    · intro init op isFound isStripped
      obtain ⟨effect,noStore⟩ := pop_register isStripped
      exact (spared_register first isFound noStore effect).mp (atPop init op isFound isStripped)
  · intro strips place isProtected
    have atIncrement := popIf_keeps_iff.mpr (fun init op isFound isStripped => by
      obtain ⟨effect,noStore⟩ := increment_register isStripped
      exact (spared_register (List.prefix_refl _) isFound noStore effect).mpr (strips.increment init op isFound isStripped))
      place isProtected (protected_lt isProtected)
    exact popIf_keeps_iff.mpr (fun init op isFound isStripped => by
      obtain ⟨effect,noStore⟩ := pop_register isStripped
      exact (spared_register first isFound noStore effect).mpr (strips.pop init op isFound isStripped))
      place isProtected atIncrement

end Body

-- The last op of a block, of the instruction that ends at `next` and has the ops from `own` on.
def EndsWith (entries : List (Nat × Instruction)) (own next : Nat) (last : PcodeOp) : Prop :=
  ∃ earlier addr inst later, entries = earlier ++ (addr,inst) :: later ∧ instOps later = [] ∧
    inst.ops.getLast? = some last ∧ own = (instOps earlier).length ∧ next = addr + inst.len

-- A call, or a return: what is stripped before it. A call of a user operation is none.
def isStripped (ops : List Op) : PcodeOp → Bool
  | .call _ | .ret _ => true
  | .callInd dest => (userOpCallTarget ops dest).isNone
  | _ => false

def strippedBody (body : List Op) : PcodeOp → List Op
  | .ret _ => stripReturnPopOps body
  | _ => stripCallPushOps body

def StripsOwn (own next : Nat) (body : List Op) : PcodeOp → Prop
  | .ret _ => ReturnStripsOwn own body
  | _ => CallStripsOwn own next body

section Graph

variable {recovery : Recovery} {instructions : List (Nat × Instruction)}

theorem instOps_append (first second : List (Nat × Instruction)) :
    instOps (first ++ second) = instOps first ++ instOps second := List.flatMap_append

theorem endsWith_split {entries : List (Nat × Instruction)} {own next : Nat} {last : PcodeOp}
    (ends : EndsWith entries own next last) :
    ∃ body addr, instOps entries = body ++ [(addr,last)] ∧ own ≤ body.length := by
  obtain ⟨earlier,addr,inst,later,rfl,nothing,isLast,rfl,_⟩ := ends
  obtain ⟨before,isOps⟩ : ∃ before, inst.ops = before ++ [last] := by
    rcases List.eq_nil_or_concat' inst.ops with none | ⟨before,op,isOps⟩
    · simp [none] at isLast
    · rw [isOps,List.getLast?_concat] at isLast
      exact ⟨before,Option.some.inj isLast ▸ isOps⟩
  refine ⟨instOps earlier ++ before.map fun op => (addr,op),addr,?_,by simp⟩
  rw [instOps_append,show (addr,inst) :: later = [(addr,inst)] ++ later from rfl,instOps_append,nothing]
  simp [instOps,isOps]

theorem protected_body {own next : Nat} {body : List Op} {last : Op} (inside : own ≤ body.length)
    (noStore : ∀ space ptr val, last.2 ≠ .store space ptr val) {place : Nat} :
    Protected own next (body ++ [last]) place ↔ Protected own next body place := by
  constructor
  · intro isProtected
    rcases Nat.lt_or_ge place body.length with before | after
    · obtain ⟨op,isOp,reason⟩ := isProtected
      rw [List.getElem?_append_left before] at isOp
      rw [List.take_append_of_le_length (Nat.le_of_lt before)] at reason
      exact ⟨op,isOp,reason⟩
    · have bound := protected_lt isProtected
      rw [List.length_append,List.length_singleton] at bound
      obtain rfl : place = body.length := by omega
      exact absurd isProtected ((spared_last inside noStore))
  · rintro ⟨op,isOp,reason⟩
    have before := (List.getElem?_eq_some_iff.mp isOp).1
    refine ⟨op,by rw [List.getElem?_append_left before,isOp],?_⟩
    rwa [List.take_append_of_le_length (Nat.le_of_lt before)]

theorem terminate_ops {building : Building} {at_ next : Nat} {body : List Op} {addr : Nat} {last : PcodeOp}
    (strips : isStripped (body ++ [(addr,last)]) last = true) :
    (terminate recovery instructions building at_ next (body ++ [(addr,last)])).1 =
      strippedBody body last := by
  unfold terminate
  rw [List.getLast?_concat]
  cases last with
  | ret dest => simp [strippedBody]
  | call dest => simp [strippedBody]
  | callInd dest =>
    have none : userOpCallTarget (body ++ [(addr,.callInd dest)]) dest = none := by
      simpa [isStripped] using strips
    simp [callThrough,none,strippedBody]
  | _ => cases strips

theorem strips_iff {building : Building} {id : BlockId} {leader own next : Nat} {last : PcodeOp}
    (ends : EndsWith (members recovery instructions leader) own next last)
    (strips : isStripped (instOps (members recovery instructions leader)) last = true) :
    (∀ place, Protected own next (instOps (members recovery instructions leader)) place →
      (buildBlock recovery instructions building id leader).1.ops[place]? =
        (instOps (members recovery instructions leader))[place]?) ↔
      StripsOwn own next (instOps (members recovery instructions leader)).dropLast last := by
  obtain ⟨body,addr,isOps,inside⟩ := endsWith_split ends
  have noStore : ∀ space ptr val, last ≠ .store space ptr val := by
    rintro space ptr val rfl
    cases strips
  have isBlock : (buildBlock recovery instructions building id leader).1.ops = strippedBody body last := by
    unfold buildBlock
    dsimp only
    rw [isOps] at strips ⊢
    exact terminate_ops strips
  rw [isOps,isBlock,List.dropLast_concat]
  have kept : ∀ result : List Op, result <+: body →
      ((∀ place, Protected own next (body ++ [(addr,last)]) place → result[place]? = (body ++ [(addr,last)])[place]?) ↔
        ∀ place, Protected own next body place → place < result.length) := by
    intro result isPrefix
    refine forall_congr' fun place => ?_
    rw [protected_body inside noStore]
    refine imp_congr_right fun isProtected => ?_
    have within := protected_lt isProtected
    rw [List.getElem?_append_left within,List.getElem?_eq_getElem within]
    constructor
    · exact fun same => (List.getElem?_eq_some_iff.mp same).1
    · intro before
      obtain ⟨later,rfl⟩ := isPrefix
      rw [List.getElem?_eq_getElem before,List.getElem_append_left before]
  cases last with
  | ret dest =>
    exact (kept _ (popIf_isPrefix.trans popIf_isPrefix)).trans stripReturnPopOps_keeps_iff
  | call dest =>
    exact (kept _ (popIf_isPrefix.trans (popIf_isPrefix.trans popIf_isPrefix))).trans stripCallPushOps_keeps_iff
  | callInd dest =>
    exact (kept _ (popIf_isPrefix.trans (popIf_isPrefix.trans popIf_isPrefix))).trans stripCallPushOps_keeps_iff
  | _ => cases strips

-- The blocks of the graph still have every protected op at its place.
def KeepsEffects (recovery : Recovery) (instructions : List (Nat × Instruction)) : Prop :=
  ∀ (index : Nat) (block : BasicBlock), (buildCfg recovery instructions).blocks[index]? = some block →
    index < firstSynthetic recovery instructions →
    ∀ own next last, EndsWith (members recovery instructions block.addr) own next last →
      isStripped (instOps (members recovery instructions block.addr)) last = true →
      ∀ place, Protected own next (instOps (members recovery instructions block.addr)) place →
        block.ops[place]? = (instOps (members recovery instructions block.addr))[place]?

theorem buildCfg_keeps_iff (recovery : Recovery) (instructions : List (Nat × Instruction)) :
    KeepsEffects recovery instructions ↔
      ∀ leader ∈ order recovery instructions, ∀ own next last,
        EndsWith (members recovery instructions leader) own next last →
        isStripped (instOps (members recovery instructions leader)) last = true →
        StripsOwn own next (instOps (members recovery instructions leader)).dropLast last := by
  by_cases isEmpty : instructions = []
  · subst isEmpty
    constructor
    · rintro _ leader _ own next last ⟨earlier,addr,inst,later,none,_⟩
      have nothing : members recovery [] leader = [] := by simp [members]
      rw [nothing] at none
      simp at none
    · intro _ index block isBlock
      have nothing : (buildCfg recovery []).blocks = [] := rfl
      rw [nothing] at isBlock
      cases isBlock
  · constructor
    · intro keeps leader isStart own next last ends strips
      obtain ⟨index,isLeader⟩ := List.getElem?_of_mem isStart
      obtain ⟨building,isMade⟩ := (buildCfg_built isEmpty).made index leader isLeader
      have isReal : index < firstSynthetic recovery instructions := (List.getElem?_eq_some_iff.mp isLeader).1
      exact (strips_iff ends strips).mp (keeps index _ isMade isReal own next last ends strips)
    · intro strips index block isBlock isReal own next last ends isCall
      obtain ⟨isLeader,building,isMade⟩ := built_addr isEmpty isBlock isReal
      have keeps := (@strips_iff recovery instructions building index block.addr own next last ends isCall).mpr
        (strips block.addr (List.mem_of_getElem? isLeader) own next last ends isCall)
      rwa [← isMade] at keeps

end Graph

section Examples

-- An argument is stored through a temporary, and the next instruction is a call that pushes nothing.
def storedArgument : List (Nat × Instruction) :=
  [(0x1000,{ copyInst 4 with ops := [.copy (.unique 0x100 4) (.register 0x54 4),.store .ram (.unique 0x100 4) (.register 0x20 4)] }),
    (0x1004,{ copyInst 4 with ops := [.call (.ram 0x2000 4)] })]

theorem members_storedArgument : members noRecovery storedArgument 0x1000 = storedArgument := by
  have raw : rawLeaders noRecovery storedArgument = [0x1000,0x1008] := by decide
  have starts : leaders noRecovery storedArgument = [0x1000] := by
    unfold leaders
    rw [raw,List.mergeSort_of_pairwise (by decide)]
    decide
  have stop : nextLeader noRecovery storedArgument 0x1000 = 0x1008 := by
    unfold nextLeader
    rw [starts]
    decide
  unfold members
  rw [stop]
  exact List.mergeSort_of_pairwise (by decide)

-- The argument is gone.
theorem buildCfg_loses_argument : ¬KeepsEffects noRecovery storedArgument := by
  rw [buildCfg_keeps_iff]
  intro strips
  have isCall : EndsWith (members noRecovery storedArgument 0x1000) 2 0x1008 (.call (.ram 0x2000 4)) := by
    rw [members_storedArgument]
    exact ⟨[storedArgument[0]],0x1004,_,[],rfl,rfl,rfl,rfl,rfl⟩
  have own := strips 0x1000 List.mem_cons_self 2 0x1008 _ isCall rfl
  rw [members_storedArgument] at own
  have overreach := (CallStripsOwn.push own [(0x1000,.copy (.unique 0x100 4) (.register 0x54 4))] 0x1000 .ram
    (.unique 0x100 4) (.register 0x20 4) rfl (Or.inr rfl)).1
  exact absurd overreach (by decide)

end Examples

end Rsleigh.Decompile
