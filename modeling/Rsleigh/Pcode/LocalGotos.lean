import Mathlib
import Rsleigh.Lib.Search
import Rsleigh.Pcode.Optimize

namespace Rsleigh.Pcode

-- A Branch or CBranch inside the instruction: its destination is a constant.
def isLocalGoto : PcodeOp → Bool
  | .branch dest | .cbranch dest _ => dest.space == .const
  | _ => false

-- Control can go on with the next op.
def fallsThrough : PcodeOp → Bool
  | .branch _ | .branchInd _ | .call _ | .callInd _ | .ret _ => false
  | _ => true

section Paths

variable (ops : List PcodeOp) (target : Nat → Nat) (v : Varnode)

-- Where control can be after the op at a position; a local goto at `place` goes to `target place`.
def successors (place : Nat) : List Nat :=
  match ops[place]? with
  | some op => (if fallsThrough op then [place + 1] else []) ++ if isLocalGoto op then [target place] else []
  | none => []

def readsAt (place : Nat) : Bool := (ops[place]?).any (readsVarnode · v)

-- The ways on from a position on which the varnode is not written there.
def onward (place : Nat) : List Nat :=
  if (ops[place]?).any (writesTo · v) then [] else successors ops target place

-- Some path from this position reads the varnode before it writes it.
def ReadsFrom : Nat → Prop := Search.Leads (readsAt ops v) (onward ops target v)

-- No path from op `index` reads the varnode before it is written again.
def Unread (index : Nat) : Prop := ∀ next ∈ successors ops target index, ¬ ReadsFrom ops target v next

-- Liveness as a dataflow analysis finds it: one round for each op is enough.
def live (place : Nat) : Bool := Search.leadsWithin (readsAt ops v) (onward ops target v) ops.length place

-- The local gotos that control comes to from `place` in a straight line, before it writes the varnode or has
-- to leave the line, all go where the varnode is dead.
def gotosDead (place : Nat) : List PcodeOp → Bool
  | [] => true
  | op :: rest =>
    (!isLocalGoto op || !live ops target v (target place)) &&
      (!fallsThrough op || writesTo op v || gotosDead (place + 1) rest)

end Paths

section Liveness

variable {ops : List PcodeOp} {target : Nat → Nat} {v : Varnode} {place : Nat}

theorem onward_none (isNone : ops[place]? = none) : onward ops target v place = [] := by
  unfold onward successors
  rw [isNone]
  rfl

theorem readsFrom_inside (reads : ReadsFrom ops target v place) : place < ops.length := by
  apply Nat.lt_of_not_le
  intro outside
  have isNone : ops[place]? = none := List.getElem?_eq_none outside
  cases reads with
  | here isRead =>
    unfold readsAt at isRead
    rw [isNone] at isRead
    cases isRead
  | step isNext _ =>
    rw [onward_none isNone] at isNext
    cases isNext

theorem readsFrom_live : ReadsFrom ops target v place ↔ live ops target v place = true := by
  have found := @Search.leads_iff _ (readsAt ops v) (onward ops target v) (Finset.range ops.length)
    (fun place reads => Finset.mem_range.mpr (readsFrom_inside reads)) place
  rw [Finset.card_range] at found
  exact found

theorem readsFrom_step {op : PcodeOp} (isOp : ops[place]? = some op) : ReadsFrom ops target v place ↔
    v ∈ reads op ∨ writesTo op v = false ∧ (fallsThrough op = true ∧ ReadsFrom ops target v (place + 1) ∨
      isLocalGoto op = true ∧ ReadsFrom ops target v (target place)) := by
  have isNext : ∀ after, after ∈ onward ops target v place ↔ writesTo op v = false ∧
      (fallsThrough op = true ∧ after = place + 1 ∨ isLocalGoto op = true ∧ after = target place) := by
    intro after
    unfold onward successors
    simp only [isOp,Option.any_some]
    cases writesTo op v <;> cases fallsThrough op <;> cases isLocalGoto op <;> simp
  have isRead : readsAt ops v place = true ↔ v ∈ reads op := by
    unfold readsAt readsVarnode countReads
    simp only [isOp,Option.any_some,decide_eq_true_eq]
    exact List.count_pos_iff
  constructor
  · intro found
    cases found with
    | here goal => exact Or.inl (isRead.mp goal)
    | step member later =>
      obtain ⟨unwritten,falls | jumps⟩ := (isNext _).mp member
      · exact Or.inr ⟨unwritten,Or.inl ⟨falls.1,falls.2 ▸ later⟩⟩
      · exact Or.inr ⟨unwritten,Or.inr ⟨jumps.1,jumps.2 ▸ later⟩⟩
  · intro found
    rcases found with here | ⟨unwritten,⟨falls,later⟩ | ⟨jumps,later⟩⟩
    · exact Search.Leads.here (isRead.mpr here)
    · exact Search.Leads.step ((isNext _).mpr ⟨unwritten,Or.inl ⟨falls,rfl⟩⟩) later
    · exact Search.Leads.step ((isNext _).mpr ⟨unwritten,Or.inr ⟨jumps,rfl⟩⟩) later

theorem writesTo_falls {op : PcodeOp} (writes : writesTo op v = true) :
    fallsThrough op = true ∧ isLocalGoto op = false := by
  cases op <;> first | exact ⟨rfl,rfl⟩ | cases writes

-- In a straight line nothing reads the varnode, so a path that reads it leaves the line by a local goto.
theorem gotosDead_iff : ∀ (rest : List PcodeOp) (place : Nat), ops.drop place = rest → DeadIn v rest →
    (¬ ReadsFrom ops target v place ↔ gotosDead ops target v place rest = true) := by
  intro rest
  induction rest with
  | nil =>
    intro place isRest _
    have outside : ops.length ≤ place := List.drop_eq_nil_iff.mp isRest
    exact ⟨fun _ => rfl,fun _ reads => Nat.not_le_of_lt (readsFrom_inside reads) outside⟩
  | cons op rest ih =>
    intro place isRest dead
    have isOp : ops[place]? = some op := by
      rw [← List.head?_drop,isRest]
      rfl
    have isLater : ops.drop (place + 1) = rest := by
      rw [← List.tail_drop,isRest]
      rfl
    obtain ⟨unread,closes⟩ := dead
    rw [readsFrom_step isOp]
    unfold gotosDead
    cases writes : writesTo op v with
    | true =>
      obtain ⟨_,notGoto⟩ := writesTo_falls writes
      simp [unread,notGoto]
    | false =>
      have open_ : DeadIn v rest := closes.resolve_left fun isWrite => by
        rw [writesTo_iff.mpr isWrite] at writes
        cases writes
      have later := ih (place + 1) isLater open_
      rw [readsFrom_live,Bool.not_eq_true,← Bool.not_eq_true'] at later
      have same : gotosDead ops target v (place + 1) rest = !live ops target v (place + 1) :=
        Bool.eq_iff_iff.mpr later.symm
      cases jumps : isLocalGoto op <;> cases falls : fallsThrough op <;>
        simp [unread,same,readsFrom_live,and_comm]

theorem output_falls {op : PcodeOp} (output : getOutput op = some v) :
    fallsThrough op = true ∧ isLocalGoto op = false := by
  cases op <;> first | exact ⟨rfl,rfl⟩ | cases output

end Liveness

theorem isDead_deadIn {ops : List PcodeOp} {index : Nat} {op : PcodeOp} {out : Varnode}
    (dropped : isDead (infoAt ops index) = true) (isOp : ops[index]? = some op) (output : getOutput op = some out) :
    DeadIn out (ops.drop (index + 1)) := by
  obtain ⟨info,found,dead⟩ := (Option.any_eq_true _ _).mp dropped
  obtain ⟨before,op',after,out',isSplit,isIndex,output',_,isInfo⟩ := scanBack_info found
  have same : op' = op := by
    rw [isSplit,← isIndex,List.getElem?_append_right (Nat.le_refl _),Nat.sub_self] at isOp
    exact Option.some.inj isOp
  subst same
  have sameOut : out' = out := Option.some.inj (output'.symm.trans output)
  subst sameOut
  have isAfter : ops.drop (index + 1) = after := by
    rw [isSplit,← isIndex,← List.drop_drop,List.drop_left]
    rfl
  rw [isAfter]
  rw [isInfo] at dead
  rcases Bool.or_eq_true_iff.mp dead with unread | overwritten
  · exact futureReads_zero (beq_iff_eq.mp unread)
  · exact nextAccess_write (beq_iff_eq.mp overwritten)

-- Deleting an op that the analysis calls dead is right exactly when the local gotos on its line agree.
theorem isDead_unread_iff {ops : List PcodeOp} (target : Nat → Nat) {index : Nat} {out : Varnode}
    (dropped : isDead (infoAt ops index) = true) (output : (ops[index]?).bind getOutput = some out) :
    Unread ops target out index ↔ gotosDead ops target out (index + 1) (ops.drop (index + 1)) = true := by
  obtain ⟨op,isOp,output⟩ := Option.bind_eq_some_iff.mp output
  obtain ⟨falls,notGoto⟩ := output_falls output
  have only : successors ops target index = [index + 1] := by
    unfold successors
    simp [isOp,falls,notGoto]
  unfold Unread
  rw [only,List.forall_mem_singleton]
  exact gotosDead_iff _ _ rfl (isDead_deadIn dropped isOp output)

-- A temporary written twice, and a loop back to the second write.
def rewritten : List PcodeOp :=
  [.copy (.unique 16 4) (.register 0 4),.copy (.unique 16 4) (.register 4 4),
    .copy (.register 8 4) (.unique 16 4),.cbranch (.constant 0 8) (.register 12 1)]

theorem isDead_unread_iff_loop : Unread rewritten (fun _ => 1) (.unique 16 4) 0 :=
  (isDead_unread_iff (fun _ => 1) (by decide +kernel) (by decide)).mpr (by decide +kernel)

-- Two arms that write one temporary and meet behind it: the write of the first arm is called overwritten.
def joinedArms : List PcodeOp :=
  [.cbranch (.constant 0 8) (.register 0 1),.copy (.unique 16 4) (.register 4 4),.branch (.constant 1 8),
    .copy (.unique 16 4) (.register 8 4),.copy (.register 12 4) (.unique 16 4)]

theorem joinedArms_read : ¬ ∀ (ops : List PcodeOp) (target : Nat → Nat) (index : Nat) (out : Varnode),
    isDead (infoAt ops index) = true → (ops[index]?).bind getOutput = some out → Unread ops target out index := by
  intro claim
  have unread := claim joinedArms (fun place => if place = 0 then 3 else 4) 1 (.unique 16 4) (by decide +kernel)
    (by decide)
  apply unread 2 (by decide)
  apply readsFrom_live.mpr
  decide +kernel

end Rsleigh.Pcode
