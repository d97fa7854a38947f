import Rsleigh.Agent.CompareBody

namespace Rsleigh.Agent.Compare

open Pcode Exploration

-- Decoded instructions with increasing addresses that do not overlap. Gaps are allowed.
structure Decoding where
  instructions : List Decoded
  ordered : instructions.Pairwise fun first second =>
    first.address < second.address ∧ first.address + first.inst.len ≤ second.address

-- Where control can be after the op at a place. A call comes back.
def Instruction.successors (inst : Instruction) (place : Nat) : List Nat :=
  match inst.ops[place]? with
  | none => []
  | some (.branch dest) => if dest.space = .const then [inst.target place] else []
  | some (.cbranch dest _) => (place + 1) :: if dest.space = .const then [inst.target place] else []
  | some (.branchInd _) | some (.ret _) => []
  | some _ => [place + 1]

-- A path through the ops comes to this place.
def Instruction.Live (inst : Instruction) (place : Nat) : Prop :=
  Relation.ReflTransGen (fun before after => after ∈ inst.successors before) 0 place

def Instruction.EndPath (inst : Instruction) : Prop := ∃ place, inst.ops.length ≤ place ∧ inst.Live place

def Instruction.Branches (inst : Instruction) (address : Nat) : Prop :=
  ∃ place op, inst.Live place ∧ inst.ops[place]? = some op ∧ ramTarget op = some address

-- The same as the flags have it: every op counts.
def Instruction.Named (inst : Instruction) (address : Nat) : Prop := ∃ op ∈ inst.ops, ramTarget op = some address

section Steps

variable (decoding : Decoding) (branches : Instruction → Nat → Prop) (falls : Instruction → Prop)

def Decoding.at (i : Nat) (decoded : Decoded) : Prop := decoding.instructions[i]? = some decoded

def Decoding.Step (i j : Nat) : Prop :=
  ∃ a b, decoding.at i a ∧ decoding.at j b ∧
    (branches a.inst b.address ∨ falls a.inst ∧ j = i + 1 ∧ b.address = a.address + a.inst.len)

def Decoding.Reached (i : Nat) : Prop :=
  0 < decoding.instructions.length ∧ Relation.ReflTransGen (decoding.Step branches falls) 0 i

end Steps

section Reached

variable (decoding : Decoding)

def Decoding.PathReached : Nat → Prop := decoding.Reached Instruction.Branches Instruction.EndPath

def Decoding.FlagReached : Nat → Prop := decoding.Reached Instruction.Named fun inst => inst.flagged = true

variable {decoding}

theorem index_some_iff (address j : Nat) :
    index decoding.instructions address = some j ↔ ∃ decoded, decoding.at j decoded ∧ decoded.address = address := by
  unfold index Decoding.at
  rw [List.findIdx?_eq_some_iff_getElem]
  constructor
  · rintro ⟨inside,same,_⟩
    exact ⟨_,List.getElem?_eq_getElem inside,of_decide_eq_true same⟩
  · rintro ⟨decoded,isDecoded,rfl⟩
    obtain ⟨inside,rfl⟩ := List.getElem?_eq_some_iff.mp isDecoded
    refine ⟨inside,decide_eq_true rfl,fun earlier before => ?_⟩
    have less := (List.pairwise_iff_getElem.mp decoding.ordered earlier j (by omega) inside before).1
    simpa using Nat.ne_of_lt less

theorem index_none_iff (address : Nat) :
    (index decoding.instructions address).isNone = true ↔ ∀ decoded ∈ decoding.instructions, decoded.address ≠ address := by
  unfold index
  rw [Option.isNone_iff_eq_none,List.findIdx?_eq_none_iff]
  simp

theorem at_inside {i : Nat} {decoded : Decoded} (isDecoded : decoding.at i decoded) : i < decoding.instructions.length :=
  (List.getElem?_eq_some_iff.mp isDecoded).1

theorem contiguous_iff (i : Nat) (decoded : Decoded) :
    contiguous decoding.instructions i decoded = true ↔
      ∃ next, decoding.at (i + 1) next ∧ next.address = decoded.address + decoded.inst.len := by
  unfold contiguous Decoding.at
  simp [Option.any_eq_true]

theorem gap_iff (i : Nat) (decoded : Decoded) :
    gap decoding.instructions i decoded = true ↔
      ∃ next, decoding.at (i + 1) next ∧ next.address ≠ decoded.address + decoded.inst.len := by
  unfold gap Decoding.at
  simp [Option.any_eq_true]

-- The loop's steps are those of the flags.
theorem pushed_iff (i j : Nat) :
    Exploration.Step (fun i => decide (i < decoding.instructions.length)) (pushed decoding.instructions) i j ↔
      decoding.Step Instruction.Named (fun inst => inst.flagged = true) i j := by
  unfold Exploration.Step Decoding.Step pushed
  constructor
  · rintro ⟨inside,after,isNext⟩
    obtain ⟨a,isA⟩ : ∃ a, decoding.instructions[i]? = some a := ⟨_,List.getElem?_eq_getElem (of_decide_eq_true inside)⟩
    obtain ⟨b,isB⟩ : ∃ b, decoding.instructions[j]? = some b := ⟨_,List.getElem?_eq_getElem (of_decide_eq_true after)⟩
    rw [isA] at isNext
    refine ⟨a,b,isA,isB,?_⟩
    rcases List.mem_append.mp isNext with isFall | isBranch
    · split at isFall
      · rename_i both
        obtain ⟨flagged,next⟩ := Bool.and_eq_true_iff.mp both
        obtain rfl := List.mem_singleton.mp isFall
        obtain ⟨other,isOther,same⟩ := (contiguous_iff i a).mp next
        cases isOther.symm.trans isB
        exact .inr ⟨flagged,rfl,same⟩
      · exact absurd isFall List.not_mem_nil
    · obtain ⟨address,isAddress,isIndex⟩ := List.mem_filterMap.mp (List.mem_reverse.mp isBranch)
      obtain ⟨op,isOp,isTarget⟩ := List.mem_filterMap.mp isAddress
      obtain ⟨other,isOther,rfl⟩ := (index_some_iff address j).mp isIndex
      cases isOther.symm.trans isB
      exact .inl ⟨op,isOp,isTarget⟩
  · rintro ⟨a,b,isA,isB,way⟩
    refine ⟨decide_eq_true (at_inside isA),decide_eq_true (at_inside isB),?_⟩
    have isA : decoding.instructions[i]? = some a := isA
    rw [isA]
    rcases way with ⟨op,isOp,isTarget⟩ | ⟨flagged,rfl,same⟩
    · refine List.mem_append_right _ (List.mem_reverse.mpr (List.mem_filterMap.mpr ⟨b.address,?_,?_⟩))
      · exact List.mem_filterMap.mpr ⟨op,isOp,isTarget⟩
      · exact (index_some_iff b.address j).mpr ⟨b,isB,rfl⟩
    · refine List.mem_append_left _ ?_
      rw [flagged,(contiguous_iff i a).mpr ⟨b,isB,same⟩]
      exact List.mem_cons_self

theorem flagReached_iff (i : Nat) : Led decoding.instructions i ↔ decoding.FlagReached i := by
  have same : Exploration.Step (fun i => decide (i < decoding.instructions.length)) (pushed decoding.instructions) =
      decoding.Step Instruction.Named (fun inst => inst.flagged = true) := by
    funext i j
    exact propext (pushed_iff i j)
  unfold Led Exploration.Reached Decoding.FlagReached Decoding.Reached
  rw [same,decide_eq_true_iff]

theorem reached_at {branches : Instruction → Nat → Prop} {falls : Instruction → Prop} {i : Nat}
    (reached : decoding.Reached branches falls i) : ∃ decoded, decoding.at i decoded := by
  obtain ⟨some_,steps⟩ := reached
  cases steps with
  | refl => exact ⟨_,List.getElem?_eq_getElem some_⟩
  | tail _ isStep =>
    obtain ⟨_,b,_,isB,_⟩ := isStep
    exact ⟨b,isB⟩

end Reached

-- What the result of `body` is to say.
structure Meets (decoding : Decoding) (limit : Nat) (result : Body) : Prop where
  covers : ∀ i, decoding.PathReached i → i ∈ result.indices
  complete : result.reachabilityComplete = true → ∀ i decoded, decoding.PathReached i → decoding.at i decoded →
    decoded.inst.ops.any isBranchInd = false ∧
    (∀ address, decoded.inst.Branches address → start decoding.instructions ≤ address → address < limit →
      ∃ other ∈ decoding.instructions, other.address = address) ∧
    (decoded.inst.EndPath → ∀ next, decoding.at (i + 1) next → next.address = decoded.address + decoded.inst.len)
  falls : result.fallsOffEnd = true ↔
    ∃ i decoded, i + 1 = decoding.instructions.length ∧ decoding.at i decoded ∧ decoding.PathReached i ∧ decoded.inst.EndPath

-- A reachable instruction with a path to its end of which the flags say that control does not come there.
def Decoding.Missed (decoding : Decoding) (i : Nat) (decoded : Decoded) : Prop :=
  decoding.PathReached i ∧ decoding.at i decoded ∧ decoded.inst.EndPath ∧ decoded.inst.flagged = false

-- Such an instruction is not the last, and what it falls into is known in another way: the next instruction is
-- reached along the flags, or the gap stands beside another reason to take the body for incomplete. Where the
-- flags let control leave the last instruction, a path does.
structure Judged (decoding : Decoding) (limit : Nat) : Prop where
  missed : ∀ i decoded, decoding.Missed i decoded → ∃ next, decoding.at (i + 1) next ∧
    (next.address = decoded.address + decoded.inst.len → decoding.FlagReached (i + 1)) ∧
    (next.address ≠ decoded.address + decoded.inst.len →
      ∃ j, decoding.FlagReached j ∧ marked decoding.instructions limit j = true)
  last : ∀ i decoded, i + 1 = decoding.instructions.length → decoding.at i decoded → decoding.FlagReached i →
    decoded.inst.flagged = true → decoding.PathReached i ∧ decoded.inst.EndPath

section Judged

variable {decoding : Decoding} {limit : Nat}

theorem branches_named {inst : Instruction} {address : Nat} (branches : inst.Branches address) : inst.Named address := by
  obtain ⟨place,op,_,isOp,isTarget⟩ := branches
  exact ⟨op,List.mem_of_getElem? isOp,isTarget⟩

theorem path_flag (missed : ∀ i decoded, decoding.Missed i decoded → ∃ next, decoding.at (i + 1) next ∧
    (next.address = decoded.address + decoded.inst.len → decoding.FlagReached (i + 1))) {i : Nat}
    (reached : decoding.PathReached i) : decoding.FlagReached i := by
  obtain ⟨some_,steps⟩ := reached
  induction steps with
  | refl => exact ⟨some_,Relation.ReflTransGen.refl⟩
  | @tail i j before isStep ih =>
    obtain ⟨a,b,isA,isB,way⟩ := isStep
    rcases way with branches | ⟨endPath,rfl,same⟩
    · exact ⟨some_,ih.2.tail ⟨a,b,isA,isB,.inl (branches_named branches)⟩⟩
    · cases isFlagged : a.inst.flagged with
      | true => exact ⟨some_,ih.2.tail ⟨a,b,isA,isB,.inr ⟨isFlagged,rfl,same⟩⟩⟩
      | false =>
        obtain ⟨next,isNext,known⟩ := missed i a ⟨⟨some_,before⟩,isA,endPath,isFlagged⟩
        cases isNext.symm.trans isB
        exact known same

theorem marked_at {i : Nat} {decoded : Decoded} (isDecoded : decoding.at i decoded)
    (unmarked : marked decoding.instructions limit i = false) :
    decoded.inst.ops.any isBranchInd = false ∧
    (∀ address, decoded.inst.Named address → start decoding.instructions ≤ address → address < limit →
      ∃ other ∈ decoding.instructions, other.address = address) ∧
    (decoded.inst.flagged = true → ∀ next, decoding.at (i + 1) next → next.address = decoded.address + decoded.inst.len) := by
  have isDecoded : decoding.instructions[i]? = some decoded := isDecoded
  unfold marked at unmarked
  rw [isDecoded,Option.any_some,Bool.or_eq_false_iff,Bool.or_eq_false_iff] at unmarked
  obtain ⟨⟨noInd,noTarget⟩,noGap⟩ := unmarked
  refine ⟨noInd,?_,?_⟩
  · rintro address ⟨op,isOp,isTarget⟩ least most
    have known := List.any_eq_false.mp noTarget address (List.mem_filterMap.mpr ⟨op,isOp,isTarget⟩)
    by_contra unknown
    refine known ?_
    unfold undecoded
    have isNone := (@index_none_iff decoding address).mpr fun other member same => unknown ⟨other,member,same⟩
    rw [isNone,decide_eq_true least,decide_eq_true most]
    rfl
  · intro flagged next isNext
    by_contra other
    rw [flagged,(gap_iff i decoded).mpr ⟨next,isNext,other⟩] at noGap
    cases noGap

theorem fallsOff_iff (i : Nat) : fallsOff decoding.instructions i = true ↔
    ∃ decoded, i + 1 = decoding.instructions.length ∧ decoding.at i decoded ∧ decoded.inst.flagged = true := by
  unfold fallsOff Decoding.at
  constructor
  · intro falls
    obtain ⟨decoded,isDecoded,both⟩ := (Option.any_eq_true ..).mp falls
    obtain ⟨flagged,isNone⟩ := Bool.and_eq_true_iff.mp both
    have least := List.getElem?_eq_none_iff.mp (Option.isNone_iff_eq_none.mp isNone)
    have inside := (List.getElem?_eq_some_iff.mp isDecoded).1
    exact ⟨decoded,by omega,isDecoded,flagged⟩
  · rintro ⟨decoded,isLast,isDecoded,flagged⟩
    rw [isDecoded,Option.any_some,flagged,List.getElem?_eq_none (by omega)]
    rfl

end Judged

-- A conditional branch and then a return: no path comes to the end of the instruction.
def conditionalReturn : Decoding where
  instructions := [⟨0x1000,4,[.cbranch (.ram 0x2000 8) (.register 0 1),.ret (.register 8 8)],fun place => place + 1⟩]
  ordered := List.pairwise_singleton _ _

-- A goto over a return to the next instruction.
def gotoEnd : Decoding where
  instructions := [⟨0x1000,4,[.branch (.constant 1 8),.ret (.register 8 8)],fun _ => 2⟩,⟨0x1004,4,[],fun place => place + 1⟩]
  ordered := List.pairwise_pair.mpr ⟨by decide,by decide⟩

end Rsleigh.Agent.Compare
