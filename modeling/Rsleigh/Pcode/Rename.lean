import Mathlib
import Rsleigh.Pcode.Machine

namespace Rsleigh.Pcode

-- Every varnode of an op, written or read, renamed.
def mapVarnodes (f : Varnode → Varnode) : PcodeOp → PcodeOp
  | .copy out input => .copy (f out) (f input)
  | .load out space ptr => .load (f out) space (f ptr)
  | .store space ptr val => .store space (f ptr) (f val)
  | .branch dest => .branch (f dest)
  | .cbranch dest cond => .cbranch (f dest) (f cond)
  | .branchInd dest => .branchInd (f dest)
  | .call dest => .call (f dest)
  | .callInd dest => .callInd (f dest)
  | .ret dest => .ret (f dest)
  | .unary op out input => .unary op (f out) (f input)
  | .binary op out left right => .binary op (f out) (f left) (f right)
  | .subpiece out input lsb => .subpiece (f out) (f input) lsb
  | .callOther out funcId inputs => .callOther (out.map f) funcId (inputs.map f)

-- The destination of an indirect jump or call.
def indirectDest : PcodeOp → Option Varnode
  | .branchInd dest => some dest
  | .callInd dest => some dest
  | _ => none

-- A Ram destination that names the unique with its offset, which the list writes.
def NamesUnique (ops : List PcodeOp) (dest : Varnode) : Prop :=
  dest.space = .ram ∧ ∃ op ∈ ops, ∃ out, writes op = some out ∧ out.space = .unique ∧ out.offset = dest.offset

open Classical in
-- Every occurrence of a unique moves by the offset: as an operand, as an output, and as the name of a destination.
noncomputable def renameOp (ops : List PcodeOp) (offset : UInt64) (op : PcodeOp) : PcodeOp :=
  match indirectDest op with
  | some dest =>
    if NamesUnique ops dest then mapVarnodes (fun v => { v with offset := v.offset + offset }) op
    else mapVarnodes (offsetUnique offset) op
  | none => mapVarnodes (offsetUnique offset) op

-- No occurrence of a unique is out of the reach of `get_output_mut` and `visit_reads_mut`.
structure InReach (ops : List PcodeOp) (op : PcodeOp) : Prop where
  output : getOutput op = none → ∀ out, writes op = some out → out.space ≠ .unique
  dest : ∀ dest, indirectDest op = some dest → ¬NamesUnique ops dest

theorem offset_cancel {offset added : UInt64} : offset + added = offset ↔ added = 0 := by
  constructor
  · intro same
    have moved := congrArg (fun value => value - offset) same
    simpa using moved
  · intro zero
    simp [zero]

theorem offsetUnique_zero (v : Varnode) : offsetUnique 0 v = v := by
  unfold offsetUnique
  split <;> simp

theorem mapVarnodes_id (op : PcodeOp) : mapVarnodes (fun v => v) op = op := by
  cases op <;> simp [mapVarnodes]

theorem offsetUniqueVarnodes_eq {offset : UInt64} {op : PcodeOp}
    (output : getOutput op = none → ∀ out, writes op = some out → out.space ≠ .unique) :
    offsetUniqueVarnodes op offset = mapVarnodes (offsetUnique offset) op := by
  cases op with
  | callOther out funcId inputs =>
    cases out with
    | none => rfl
    | some out =>
      have kept : offsetUnique offset out = out := by simp [offsetUnique,output rfl out rfl]
      simp [offsetUniqueVarnodes,mapOutput,mapReads,mapVarnodes,kept]
  | _ => rfl

theorem offset_zero (op : PcodeOp) : offsetUniqueVarnodes op 0 = op := by
  have same : offsetUnique 0 = id := funext offsetUnique_zero
  have output : mapOutput id op = op := by cases op <;> rfl
  unfold offsetUniqueVarnodes
  rw [same,output,mapReads_id]

theorem renameOp_zero (ops : List PcodeOp) (op : PcodeOp) : renameOp ops 0 op = op := by
  have same : offsetUnique 0 = fun v => v := funext offsetUnique_zero
  have named : (fun v : Varnode => { v with offset := v.offset + 0 }) = fun v => v := by
    funext v
    simp
  unfold renameOp
  split
  · split
    · rw [named,mapVarnodes_id]
    · rw [same,mapVarnodes_id]
  · rw [same,mapVarnodes_id]

-- An op is renamed consistently exactly when none of its uniques is out of reach.
theorem renames_iff {ops : List PcodeOp} {offset : UInt64} {op : PcodeOp} :
    offsetUniqueVarnodes op offset = renameOp ops offset op ↔ offset = 0 ∨ InReach ops op := by
  constructor
  · intro same
    by_cases zero : offset = 0
    · exact Or.inl zero
    refine Or.inr ⟨?_,?_⟩
    · intro noOutput out isOut isUnique
      cases op with
      | callOther given funcId inputs =>
        cases isOut
        have moved : (offsetUnique offset out) = out := by
          simpa [offsetUniqueVarnodes,mapOutput,mapReads,renameOp,indirectDest,mapVarnodes] using same.symm
        have added : out.offset + offset = out.offset := by
          simpa [offsetUnique,isUnique] using congrArg Varnode.offset moved
        exact zero (offset_cancel.mp added)
      | copy => cases noOutput
      | load => cases noOutput
      | unary => cases noOutput
      | binary => cases noOutput
      | subpiece => cases noOutput
      | store => cases isOut
      | branch => cases isOut
      | cbranch => cases isOut
      | branchInd => cases isOut
      | call => cases isOut
      | callInd => cases isOut
      | ret => cases isOut
    · intro dest isDest named
      have inRam := named.1
      have kept : offsetUnique offset dest = dest := by simp [offsetUnique,inRam]
      unfold renameOp at same
      simp only [isDest,named,if_true] at same
      have moved : dest = { dest with offset := dest.offset + offset } := by
        cases op with
        | branchInd given =>
          cases isDest
          simpa [offsetUniqueVarnodes,mapOutput,mapReads,mapVarnodes,kept] using same
        | callInd given =>
          cases isDest
          simpa [offsetUniqueVarnodes,mapOutput,mapReads,mapVarnodes,kept] using same
        | copy => cases isDest
        | load => cases isDest
        | store => cases isDest
        | branch => cases isDest
        | cbranch => cases isDest
        | call => cases isDest
        | ret => cases isDest
        | unary => cases isDest
        | binary => cases isDest
        | subpiece => cases isDest
        | callOther => cases isDest
      exact zero (offset_cancel.mp (congrArg Varnode.offset moved).symm)
  · rintro (rfl | reach)
    · rw [offset_zero,renameOp_zero]
    · rw [offsetUniqueVarnodes_eq reach.output]
      unfold renameOp
      split
      · rename_i dest isDest
        rw [if_neg (reach.dest dest isDest)]
      · rfl

section Execution

variable (offset : UInt64)

-- The byte of a unique moves with it.
def moveCell : Cell ≃ Cell where
  toFun c := if c.1 = .unique then (c.1, c.2 + offset) else c
  invFun c := if c.1 = .unique then (c.1, c.2 - offset) else c
  left_inv c := by
    obtain ⟨space,address⟩ := c
    cases space <;> simp
  right_inv c := by
    obtain ⟨space,address⟩ := c
    cases space <;> simp

def Machine.move (s : Machine) : Machine :=
  { s with mem := s.mem ∘ (moveCell offset).symm }

variable {offset}

theorem cells_move (env : Env) (v : Varnode) : (offsetUnique offset v).cells env = (v.cells env).map (moveCell offset) := by
  have ascending : (List.range v.size.toNat).map (fun i =>
      ((offsetUnique offset v).space,(offsetUnique offset v).offset + UInt64.ofNat i)) =
      ((List.range v.size.toNat).map fun i => (v.space,v.offset + UInt64.ofNat i)).map (moveCell offset) := by
    rw [List.map_map]
    refine List.map_congr_left fun i _ => ?_
    by_cases isUnique : v.space = .unique
    · simp only [offsetUnique,isUnique,if_true,moveCell,Function.comp_apply,Equiv.coe_fn_mk]
      rw [UInt64.add_assoc,UInt64.add_assoc,UInt64.add_comm offset]
    · simp [offsetUnique,isUnique,moveCell]
  have size : (offsetUnique offset v).size = v.size := by
    unfold offsetUnique
    split <;> rfl
  unfold Varnode.cells
  simp only [size]
  rw [ascending]
  split
  · rw [List.map_reverse]
  · rfl

theorem read_move (env : Env) (s : Machine) (v : Varnode) : (s.move offset).read env (offsetUnique offset v) = s.read env v := by
  unfold Machine.read readMem
  have isConst : (offsetUnique offset v).space = v.space := by
    unfold offsetUnique
    split <;> rfl
  by_cases const : v.space = .const
  · have kept : offsetUnique offset v = v := by simp [offsetUnique,const]
    rw [kept,if_pos const,if_pos const]
  · rw [isConst,if_neg const,if_neg const,cells_move]
    exact ByteStore.load_rename (moveCell offset) s.mem (v.cells env)

theorem reads_move (env : Env) (s : Machine) (inputs : List Varnode) :
    (inputs.map (offsetUnique offset)).map ((s.move offset).read env) = inputs.map (s.read env) := by
  simp [List.map_map,Function.comp_def,read_move]

-- An op that reaches into the unique space through a pointer.
def pointsToUnique : PcodeOp → Bool
  | .load _ space _ => space == .unique
  | .store space _ _ => space == .unique
  | _ => false

theorem size_offsetUnique (v : Varnode) : (offsetUnique offset v).size = v.size := by
  unfold offsetUnique
  split <;> rfl

theorem pointee_move (env : Env) (s : Machine) {space : AddressSpaceId} (elsewhere : space ≠ .unique) (ptr : Varnode)
    (size : UInt32) :
    pointee env (s.move offset) space (offsetUnique offset ptr) size = offsetUnique offset (pointee env s space ptr size) := by
  unfold pointee
  rw [read_move]
  simp [offsetUnique,elsewhere]

theorem compute_move (env : Env) (s : Machine) {op : PcodeOp} (direct : pointsToUnique op = false) :
    compute env (s.move offset) (mapVarnodes (offsetUnique offset) op) = compute env s op := by
  cases op with
  | load out space ptr =>
    have elsewhere : space ≠ .unique := by simpa [pointsToUnique] using direct
    simp [mapVarnodes,compute,size_offsetUnique,pointee_move env s elsewhere,read_move]
  | callOther out funcId inputs =>
    cases out with
    | none => rfl
    | some out =>
      simp only [mapVarnodes,Option.map_some,compute,reads_move,size_offsetUnique]
      rfl
  | copy => simp [mapVarnodes,compute,read_move]
  | store => rfl
  | branch => rfl
  | cbranch => rfl
  | branchInd => rfl
  | call => rfl
  | callInd => rfl
  | ret => rfl
  | unary => simp [mapVarnodes,compute,read_move,size_offsetUnique]
  | binary => simp [mapVarnodes,compute,read_move,size_offsetUnique]
  | subpiece => simp [mapVarnodes,compute,read_move]

theorem written_move (env : Env) (s : Machine) {op : PcodeOp} (direct : pointsToUnique op = false) :
    written env (s.move offset) (mapVarnodes (offsetUnique offset) op) = (written env s op).map (offsetUnique offset) := by
  cases op with
  | store space ptr val =>
    have elsewhere : space ≠ .unique := by simpa [pointsToUnique] using direct
    simp [mapVarnodes,written,pointee_move env s elsewhere,size_offsetUnique]
  | _ => rfl

theorem writtenValue_move (env : Env) (s : Machine) {op : PcodeOp} (direct : pointsToUnique op = false) :
    writtenValue env (s.move offset) (mapVarnodes (offsetUnique offset) op) = writtenValue env s op := by
  cases op with
  | store => simp [mapVarnodes,writtenValue,read_move]
  | _ => exact @compute_move offset env s _ direct

theorem emitted_move (env : Env) (s : Machine) (op : PcodeOp) :
    emitted env (s.move offset) (mapVarnodes (offsetUnique offset) op) = emitted env s op := by
  cases op with
  | store => simp [mapVarnodes,emitted,read_move,size_offsetUnique]
  | callOther => simp [mapVarnodes,emitted,Function.comp_def,read_move]
  | _ => rfl

theorem leaves_move (env : Env) (s : Machine) (op : PcodeOp) :
    leaves env (s.move offset) (mapVarnodes (offsetUnique offset) op) = leaves env s op := by
  cases op with
  | cbranch => simp [mapVarnodes,leaves,read_move]
  | _ => rfl

theorem step_move (env : Env) (s : Machine) {op : PcodeOp} (direct : pointsToUnique op = false) :
    step env (s.move offset) (mapVarnodes (offsetUnique offset) op) = (step env s op).move offset := by
  unfold step
  by_cases stopped : s.left
  · have also : (s.move offset).left = true := stopped
    rw [if_pos stopped,if_pos also]
  · have also : ¬(s.move offset).left = true := stopped
    rw [if_neg stopped,if_neg also,written_move env s direct,writtenValue_move env s direct,emitted_move,leaves_move]
    cases isWritten : written env s op with
    | none => rfl
    | some out =>
      simp only [Option.map_some,cells_move,Machine.move,ByteStore.store_rename]

-- Where an op takes control: to a place that it names, or to an address that it reads.
inductive Target where
  | place (dest : Varnode)
  | address (value : Nat)

def Target.move (offset : UInt64) : Target → Target
  | .place dest => .place (offsetUnique offset dest)
  | .address value => .address value

open Classical in
noncomputable def target (env : Env) (ops : List PcodeOp) (s : Machine) : PcodeOp → Option Target
  | .branch dest => some (.place dest)
  | .call dest => some (.place dest)
  | .cbranch dest _ => some (.place dest)
  | .ret dest => some (.address (s.read env dest))
  | .branchInd dest =>
    some (.address (s.read env (if NamesUnique ops dest then { dest with space := .unique } else dest)))
  | .callInd dest =>
    some (.address (s.read env (if NamesUnique ops dest then { dest with space := .unique } else dest)))
  | _ => none

-- The target of the first op that leaves.
noncomputable def transfer (env : Env) (ops : List PcodeOp) : List PcodeOp → Machine → Option Target
  | [], _ => none
  | op :: rest, s =>
    if s.left then none
    else if leaves env s op then target env ops s op
    else transfer env ops rest (step env s op)

theorem target_move (env : Env) {ops moved : List PcodeOp} (s : Machine) {op : PcodeOp}
    (unnamed : ∀ dest, indirectDest op = some dest → ¬NamesUnique ops dest ∧ ¬NamesUnique moved dest) :
    target env moved (s.move offset) (mapVarnodes (offsetUnique offset) op) =
      (target env ops s op).map (Target.move offset) := by
  have notNamed : ∀ dest, indirectDest op = some dest → ¬NamesUnique moved (offsetUnique offset dest) := by
    intro dest isDest named
    have kept : offsetUnique offset dest = dest := by
      by_cases isUnique : dest.space = .unique
      · have inRam := named.1
        simp [offsetUnique,isUnique] at inRam
      · simp [offsetUnique,isUnique]
    exact (unnamed dest isDest).2 (kept ▸ named)
  cases op with
  | branchInd dest =>
    simp [mapVarnodes,target,(unnamed dest rfl).1,notNamed dest rfl,read_move,Target.move]
  | callInd dest =>
    simp [mapVarnodes,target,(unnamed dest rfl).1,notNamed dest rfl,read_move,Target.move]
  | ret => simp [mapVarnodes,target,read_move,Target.move]
  | _ => rfl

end Execution

-- What an execution observes of the list: the state it leaves, and where it goes.
structure Commutes (ops moved : List PcodeOp) (offset : UInt64) : Prop where
  state : ∀ env s, exec env moved (s.move offset) = (exec env ops s).move offset
  control : ∀ env s, transfer env moved moved (s.move offset) = (transfer env ops ops s).map (Target.move offset)

-- The unique space is only used by name, before the move and after it.
structure ByName (ops moved : List PcodeOp) : Prop where
  direct : ∀ op ∈ ops, pointsToUnique op = false
  unnamed : ∀ op ∈ ops, ∀ dest, indirectDest op = some dest → ¬NamesUnique moved dest

theorem exec_move (env : Env) {ops : List PcodeOp} {offset : UInt64} (direct : ∀ op ∈ ops, pointsToUnique op = false)
    (s : Machine) :
    exec env (ops.map (mapVarnodes (offsetUnique offset))) (s.move offset) = (exec env ops s).move offset := by
  induction ops generalizing s with
  | nil => rfl
  | cons op rest ih =>
    rw [List.map_cons,exec_cons,exec_cons,step_move env s (direct op List.mem_cons_self)]
    exact ih (fun other member => direct other (List.mem_cons_of_mem _ member)) _

theorem transfer_move (env : Env) {ops moved all : List PcodeOp} {offset : UInt64}
    (direct : ∀ op ∈ ops, pointsToUnique op = false)
    (unnamed : ∀ op ∈ ops, ∀ dest, indirectDest op = some dest → ¬NamesUnique all dest ∧ ¬NamesUnique moved dest)
    (s : Machine) : transfer env moved (ops.map (mapVarnodes (offsetUnique offset))) (s.move offset) =
      (transfer env all ops s).map (Target.move offset) := by
  induction ops generalizing s with
  | nil => rfl
  | cons op rest ih =>
    have later := ih (fun other member => direct other (List.mem_cons_of_mem _ member))
      (fun other member => unnamed other (List.mem_cons_of_mem _ member))
    rw [List.map_cons,transfer,transfer]
    have left : (s.move offset).left = s.left := rfl
    rw [left,leaves_move,step_move env s (direct op List.mem_cons_self)]
    split
    · rfl
    · split
      · exact target_move env s (unnamed op List.mem_cons_self)
      · exact later _

theorem move_zero (s : Machine) : s.move 0 = s := by
  have same : s.mem ∘ (moveCell 0).symm = s.mem := by
    funext ⟨space,address⟩
    cases space <;> simp [moveCell]
  unfold Machine.move
  rw [same]

theorem target_zero (found : Target) : found.move 0 = found := by
  cases found <;> simp [Target.move,offsetUnique_zero]

theorem commutes_zero (ops : List PcodeOp) : Commutes ops ops 0 where
  state env s := by rw [move_zero,move_zero]
  control env s := by
    have same : Target.move 0 = id := funext target_zero
    simp [move_zero,same]

-- The list as `gen_lift` gives it to the enclosing constructor.
def offsetUniques (ops : List PcodeOp) (offset : UInt64) : List PcodeOp :=
  ops.map (offsetUniqueVarnodes · offset)

theorem commutes_of_reach {ops : List PcodeOp} {offset : UInt64} (reach : ∀ op ∈ ops, InReach ops op)
    (byName : ByName ops (offsetUniques ops offset)) : Commutes ops (offsetUniques ops offset) offset := by
  have renamed : offsetUniques ops offset = ops.map (mapVarnodes (offsetUnique offset)) :=
    List.map_congr_left fun op member => offsetUniqueVarnodes_eq (reach op member).output
  have unnamed : ∀ op ∈ ops, ∀ dest, indirectDest op = some dest →
      ¬NamesUnique ops dest ∧ ¬NamesUnique (offsetUniques ops offset) dest :=
    fun op member dest isDest => ⟨(reach op member).dest dest isDest,byName.unnamed op member dest isDest⟩
  constructor
  · intro env s
    rw [renamed]
    exact exec_move env byName.direct s
  · intro env s
    have moves := @transfer_move env ops (offsetUniques ops offset) ops offset byName.direct unnamed s
    rwa [← renamed] at moves

-- Every occurrence of a unique moves, exactly when none is out of reach of the two traversals; the list that
-- has moved then runs as the original does.
theorem offset_renames_iff (ops : List PcodeOp) (offset : UInt64) :
    ((∀ op ∈ ops, offsetUniqueVarnodes op offset = renameOp ops offset op) ↔
      offset = 0 ∨ ∀ op ∈ ops, InReach ops op) ∧
    (offset = 0 ∨ ((∀ op ∈ ops, InReach ops op) ∧ ByName ops (offsetUniques ops offset)) →
      Commutes ops (offsetUniques ops offset) offset) := by
  refine ⟨⟨?_,?_⟩,?_⟩
  · intro renames
    by_cases zero : offset = 0
    · exact Or.inl zero
    · refine Or.inr fun op member => ?_
      exact (renames_iff.mp (renames op member)).resolve_left zero
  · rintro (zero | reach) op member
    · exact renames_iff.mpr (Or.inl zero)
    · exact renames_iff.mpr (Or.inr (reach op member))
  · rintro (rfl | ⟨reach,byName⟩)
    · have same : offsetUniques ops 0 = ops := by simp [offsetUniques,offset_zero]
      rw [same]
      exact commutes_zero ops
    · exact commutes_of_reach reach byName

-- A user operation gives a temporary, and the copy after it uses it.
def userTemporary : List PcodeOp :=
  [.callOther (some (.unique 0x100 4)) 7 [],.copy (.register 0 4) (.unique 0x100 4)]

-- The definition stays where it was and the use moves away from it, so the register gets another value.
theorem user_temporary_separates :
    offsetUniques userTemporary 0x10000 =
      [.callOther (some (.unique 0x100 4)) 7 [],.copy (.register 0 4) (.unique 0x10100 4)] ∧
    (∃ op ∈ userTemporary, offsetUniqueVarnodes op 0x10000 ≠ renameOp userTemporary 0x10000 op) ∧
    ¬Commutes userTemporary (offsetUniques userTemporary 0x10000) 0x10000 := by
  refine ⟨by decide,?_,?_⟩
  · refine ⟨_,List.mem_cons_self,?_⟩
    intro same
    obtain zero | reach := renames_iff.mp same
    · exact absurd zero (by decide)
    · exact reach.output rfl _ rfl rfl
  · intro commutes
    have same := commutes.state ⟨false,fun _ _ _ => id,fun _ _ _ x _ => x,fun _ _ _ _ => 1⟩ emptyMachine
    have byte := congrArg (fun s => s.mem (.register,0)) same
    revert byte
    decide

end Rsleigh.Pcode
