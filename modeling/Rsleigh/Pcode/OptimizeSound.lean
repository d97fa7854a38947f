import Rsleigh.Pcode.Refine

namespace Rsleigh.Pcode

theorem joins_replaceReads (sound : Sound ops) (member : use ∈ ops) (owner : op ∈ ops) (holds : input ∈ reads op)
    (size : input.size = out.size) : Joins ops (replaceReads use out input) where
  sized := by
    rw [replaceReads,wellSized_mapReads]
    · exact sound.sized use member
    · intro v _
      split
      · rename_i same
        rw [same,size]
      · rfl
  output w output := by
    rw [replaceReads,writes_mapReads] at output
    exact sound.outputs use member w output
  temporaries v inside shared := by
    rw [varnodes,replaceReads,reads_mapReads,writes_mapReads] at inside
    rcases List.mem_append.mp inside with read | written
    · obtain ⟨r,found,rfl⟩ := List.mem_map.mp read
      split
      · exact ⟨op,owner,List.mem_append_left _ holds⟩
      · exact ⟨use,member,List.mem_append_left _ found⟩
    · exact ⟨use,member,List.mem_append_right _ written⟩
  load := by
    rw [replaceReads,loadSpace_mapReads]
    exact sound.load use member
  store := by
    rw [replaceReads,storeSpace_mapReads]
    exact sound.store use member

theorem joins_mapOutput (sound : Sound ops) (member : op ∈ ops) (output : getOutput op = some out) (owner : copy ∈ ops)
    (copied : getOutput copy = some dest) (size : dest.size = out.size) :
    Joins ops (mapOutput (fun _ => dest) op) where
  sized := by
    rw [wellSized_mapOutput output size]
    exact sound.sized op member
  output w output' := by
    rw [writes_mapOutput output] at output'
    obtain rfl := Option.some.inj output'
    exact sound.outputs copy owner dest (writes_of_output copied)
  temporaries v inside shared := by
    rw [varnodes,reads_mapOutput,writes_mapOutput output] at inside
    rcases List.mem_append.mp inside with read | written
    · exact ⟨op,member,List.mem_append_left _ read⟩
    · simp only [Option.toList_some,List.mem_singleton] at written
      exact ⟨copy,owner,written ▸ output_mem copied⟩
  load := by
    rw [loadSpace_mapOutput]
    exact sound.load op member
  store := by
    rw [storeSpace_mapOutput]
    exact sound.store op member

theorem SingleUse.getElem (single : SingleUse ops i j before op out between use after) :
    ops[i]? = some op ∧ ops[j]? = some use := by
  obtain ⟨rfl,rfl,rfl,_,_,_,_,_⟩ := single
  constructor
  · simp
  · have shape : before ++ op :: (between ++ use :: after) = (before ++ op :: between) ++ use :: after := by simp
    have position : before.length + 1 + between.length = (before ++ op :: between).length := by
      simp only [List.length_append,List.length_cons]
      omega
    rw [shape,position]
    simp

theorem SingleUse.between_eq (single : SingleUse ops i j before op out mid use after) : opsBetween ops i j = mid := by
  rw [opsBetween,single.parts,single.finish,← single.start]
  exact Rewriting.take_drop_at before mid op (use :: after)

theorem SingleUse.replace_use (single : SingleUse ops i j before op out between use after) (f : PcodeOp → PcodeOp) :
    (ops.modify j f).eraseIdx i = before ++ (between ++ f use :: after) := by
  have shape : ops = (before ++ op :: between) ++ use :: after := by simp [single.parts]
  have position : j = (before ++ op :: between).length := by
    rw [single.finish,← single.start,List.length_append,List.length_cons]
    omega
  have parts : (before ++ op :: between) ++ f use :: after = before ++ op :: (between ++ f use :: after) := by simp
  rw [shape,position,Rewriting.modify_at,parts,← single.start,Rewriting.eraseIdx_at]

theorem SingleUse.replace_op (single : SingleUse ops i j before op out between use after) (f : PcodeOp → PcodeOp) :
    (ops.modify i f).eraseIdx j = before ++ f op :: (between ++ after) := by
  have position : j = (before ++ f op :: between).length := by
    rw [single.finish,← single.start,List.length_append,List.length_cons]
    omega
  have parts : before ++ f op :: (between ++ use :: after) = (before ++ f op :: between) ++ use :: after := by simp
  rw [single.parts,← single.start,Rewriting.modify_at,position,parts,Rewriting.eraseIdx_at]
  simp

theorem forwardCopy_sound (env : Env) (sound : Sound ops) (safe : forwardSafe ops i = true)
    (found : forwardCopy ops i = some ops') : Sound ops' ∧ Equiv env ops ops' := by
  unfold forwardCopy at found
  unfold forwardSafe at safe
  split at found
  · rename_i out input j here info
    rw [here,info] at safe
    split at found
    · obtain ⟨before,op,out',mid,use,after,single⟩ := infoAt_single info
      obtain rfl : op = .copy out input := Option.some.inj (single.getElem.1.symm.trans here)
      obtain rfl : out = out' := Option.some.inj single.output
      obtain rfl := Option.some.inj found
      rw [single.replace_use]
      have apart : ∀ o ∈ mid, writesTo o out = false ∧ (input.space = .const ∨ clobbers o input = false) := by
        simpa [single.between_eq] using safe
      have parts := single.parts
      have inCopy : PcodeOp.copy out input ∈ ops := by simp [parts]
      have size : out.size = input.size := by simpa [wellSized] using sound.sized _ inCopy
      have suffix : Sound (.copy out input :: (mid ++ use :: after)) :=
        sound.subset fun o member => by rw [parts]; exact List.mem_append_right _ member
      refine ⟨sound.of_joins fun o member => ?_,?_⟩
      · have replaced : Joins ops (replaceReads use out input) :=
          joins_replaceReads sound (by simp [parts]) inCopy (by simp [reads]) size.symm
        simp only [List.mem_append,List.mem_cons] at member
        rcases member with first | middle | rfl | last
        · exact sound.joins (by simp [parts,first])
        · exact sound.joins (by simp [parts,middle])
        · exact replaced
        · exact sound.joins (by simp [parts,last])
      · rw [parts]
        exact (forward_equiv env suffix single.temporary single.untouched single.dead apart).prepend before
    · cases found
  · cases found

theorem sinkOutput_sound (env : Env) (sound : Sound ops) (safe : sinkSafe ops i = true)
    (found : sinkOutput ops i = some ops') : Sound ops' ∧ Equiv env ops ops' := by
  obtain ⟨⟨j,dest⟩,sink,rfl⟩ := Option.map_eq_some_iff.mp found
  unfold sinkSafe at safe
  have target := sink
  unfold shouldSink at target
  split at target
  · rename_i out j' here info
    split at target
    · rename_i dest' src copy
      split at target
      · rename_i checked
        obtain ⟨rfl,rfl⟩ : j' = j ∧ dest' = dest := by simpa using target
        obtain ⟨before,op,out',mid,use,after,single⟩ := infoAt_single info
        obtain rfl : use = .copy dest' src := Option.some.inj (single.getElem.2.symm.trans copy)
        obtain rfl : out' = out := by
          rw [single.getElem.1,Option.bind_some,single.output] at here
          exact Option.some.inj here
        obtain rfl : src = out' := checked.2.1
        rw [here,sink] at safe
        dsimp only
        rw [single.replace_op]
        have apart : ∀ o ∈ mid, writesTo o src = false ∧ ignores o dest' = true := by
          simpa [single.between_eq] using safe
        have parts := single.parts
        have inOp : op ∈ ops := by simp [parts]
        have inCopy : PcodeOp.copy dest' src ∈ ops := by simp [parts]
        have size : dest'.size = src.size := by simpa [wellSized] using sound.sized _ inCopy
        have suffix : Sound (op :: (mid ++ .copy dest' src :: after)) :=
          sound.subset fun o member => by rw [parts]; exact List.mem_append_right _ member
        have dead : dest' = src ∨ DeadIn src after := single.dead.imp Option.some.inj id
        refine ⟨sound.of_joins fun o member => ?_,?_⟩
        · have sunk := joins_mapOutput sound inOp single.output inCopy rfl size
          simp only [List.mem_append,List.mem_cons] at member
          rcases member with first | rfl | middle | last
          · exact sound.joins (by simp [parts,first])
          · exact sunk
          · exact sound.joins (by simp [parts,middle])
          · exact sound.joins (by simp [parts,last])
        · rw [parts]
          exact (sink_equiv env suffix single.output single.temporary single.untouched dead apart).prepend before
      · cases target
    · cases target
  · cases target

theorem collapseAnd_sound (env : Env) (sound : Sound ops) (found : collapseAnd ops i = some ops') :
    Sound ops' ∧ Equiv env ops ops' := by
  unfold collapseAnd at found
  split at found
  · rename_i out left mask dest in2 mask2 here next
    split at found
    · rename_i checked
      obtain ⟨temporary,constant,rfl,rfl,counted⟩ := checked
      obtain rfl := Option.some.inj found
      obtain ⟨info,found,single⟩ : ∃ info, infoAt ops i = some info ∧ info.futureReads = 1 := by
        cases entry : infoAt ops i with
        | none => simp [entry] at counted
        | some info => exact ⟨info,rfl,by simpa [entry] using counted⟩
      obtain ⟨before,op,rest,out,parts,rfl,output,_,meaning⟩ := scanBack_info found
      obtain rfl : op = .binary .intAnd in2 left mask2 := by simpa [parts] using here
      obtain rfl : in2 = out := Option.some.inj output
      cases rest with
      | nil => simp [parts] at next
      | cons op after =>
        obtain rfl : op = .binary .intAnd dest in2 mask2 := by simpa [parts] using next
        have differs : mask2 ≠ in2 := fun equal => by simp [equal,temporary] at constant
        have dead : dest = in2 ∨ DeadIn in2 after := by
          by_cases same : dest = in2
          · exact .inl same
          · refine .inr (futureReads_zero ?_)
            simpa [meaning,futureReads,countReads,reads,differs,getOutput,same] using single
        have edited : (ops.set before.length (.binary .intAnd dest left mask2)).eraseIdx (before.length + 1) =
            before ++ .binary .intAnd dest left mask2 :: after := by
          have position : before.length + 1 = (before ++ [PcodeOp.binary .intAnd dest left mask2]).length := by simp
          have shape : before ++ PcodeOp.binary .intAnd dest left mask2 :: .binary .intAnd dest in2 mask2 :: after =
              (before ++ [.binary .intAnd dest left mask2]) ++ .binary .intAnd dest in2 mask2 :: after := by simp
          rw [parts,Rewriting.set_at,position,shape,Rewriting.eraseIdx_at]
          simp
        rw [edited]
        have inFirst : PcodeOp.binary .intAnd in2 left mask2 ∈ ops := by simp [parts]
        have inSecond : PcodeOp.binary .intAnd dest in2 mask2 ∈ ops := by simp [parts]
        have size : dest.size = in2.size := by
          have sizes := sound.sized _ inSecond
          simp only [wellSized,Bool.and_eq_true,beq_iff_eq] at sizes
          exact sizes.2
        have suffix : Sound (.binary .intAnd in2 left mask2 :: .binary .intAnd dest in2 mask2 :: after) :=
          sound.subset fun o member => by rw [parts]; exact List.mem_append_right _ member
        refine ⟨sound.of_joins fun o member => ?_,?_⟩
        · have joined : Joins ops (.binary .intAnd dest left mask2) :=
            joins_mapOutput sound inFirst rfl inSecond rfl size
          simp only [List.mem_append,List.mem_cons] at member
          rcases member with first | rfl | last
          · exact sound.joins (by simp [parts,first])
          · exact joined
          · exact sound.joins (by simp [parts,last])
        · rw [parts]
          exact (collapse_equiv env suffix temporary constant dead).prepend before
    · cases found
  · cases found

theorem collapsed_sound (env : Env) (sound : Sound ops) (safe : ops.all foldSafe = true) :
    Sound (collapsed ops) ∧ Equiv env ops (collapsed ops) := by
  have simplified := simplify_sound sound safe
  obtain ⟨good,equiv⟩ := Rewriting.scan_always (Equiv.refl env) (fun _ _ _ => Equiv.trans)
    (fun _ _ _ good found => collapseAnd_sound env good found) simplified
  exact ⟨good,(simplify_equiv env sound safe).trans equiv⟩

theorem optimizeOnce_sound (env : Env) (sound : Sound ops) (safe : safeOnce ops = true) :
    Sound (optimizeOnce ops) ∧ Equiv env ops (optimizeOnce ops) := by
  simp only [safeOnce,Bool.and_eq_true] at safe
  obtain ⟨⟨folds,forwards⟩,sinks⟩ := safe
  obtain ⟨good,first⟩ := collapsed_sound env sound folds
  obtain ⟨good',second⟩ := Rewriting.scan_rule (Equiv.refl env) (fun _ _ _ => Equiv.trans)
    (fun _ _ _ good safe found => forwardCopy_sound env good safe found) good (List.all_eq_true.mp forwards)
  have third := dropDead_equiv env good'
  obtain ⟨last,fourth⟩ := Rewriting.scan_rule (Equiv.refl env) (fun _ _ _ => Equiv.trans)
    (fun _ _ _ good safe found => sinkOutput_sound env good safe found) (dropDead_sound good')
    (List.all_eq_true.mp sinks)
  exact ⟨last,first.trans (second.trans (third.trans fourth))⟩

theorem optimizeRounds_sound (env : Env) (sound : Sound ops) (safe : safeRounds rounds ops = true) :
    Sound (optimizeRounds rounds ops) ∧ Equiv env ops (optimizeRounds rounds ops) := by
  induction rounds generalizing ops with
  | zero => exact ⟨sound,.refl env ops⟩
  | succ rounds ih =>
    simp only [safeRounds,Bool.and_eq_true] at safe
    obtain ⟨good,equiv⟩ := optimizeOnce_sound env sound safe.1
    simp only [optimizeRounds]
    split
    · exact ⟨good,equiv⟩
    · rename_i shorter
      obtain ⟨last,rest⟩ := ih good (by simpa [shorter] using safe.2)
      exact ⟨last,equiv.trans rest⟩

theorem sound_of_direct (valid : WellFormed ops) (pointers : direct ops = true) : Sound ops where
  toWellFormed := valid
  load op member := by
    have checked := List.all_eq_true.mp pointers op member
    simp only [Bool.and_eq_true,bne_iff_ne] at checked
    exact checked.1
  store op member := by
    have checked := List.all_eq_true.mp pointers op member
    simp only [Bool.and_eq_true,bne_iff_ne] at checked
    exact checked.2

theorem optimize_equiv (env : Env) (valid : WellFormed ops) (safe : safeRun ops = true) :
    Equiv env ops (optimize ops) := by
  obtain ⟨pointers,rounds⟩ := Bool.and_eq_true_iff.mp safe
  exact (optimizeRounds_sound env (sound_of_direct valid pointers) rounds).2

theorem collapseAnd_shrinks (found : collapseAnd ops i = some ops') : ops'.length < ops.length := by
  unfold collapseAnd at found
  split at found
  · rename_i next
    obtain ⟨inside,-⟩ := List.getElem?_eq_some_iff.mp next
    split at found
    · obtain rfl := Option.some.inj found
      rw [List.length_eraseIdx_of_lt (by simpa using inside),List.length_set]
      omega
    · cases found
  · cases found

theorem forwardCopy_shrinks (found : forwardCopy ops i = some ops') : ops'.length < ops.length := by
  unfold forwardCopy at found
  split at found
  · rename_i here _
    obtain ⟨inside,-⟩ := List.getElem?_eq_some_iff.mp here
    split at found
    · obtain rfl := Option.some.inj found
      rw [List.length_eraseIdx_of_lt (by simpa using inside),List.length_modify]
      omega
    · cases found
  · cases found

theorem sinkOutput_shrinks (found : sinkOutput ops i = some ops') : ops'.length < ops.length := by
  obtain ⟨⟨j,dest⟩,sink,rfl⟩ := Option.map_eq_some_iff.mp found
  unfold shouldSink at sink
  split at sink
  · split at sink
    · rename_i copy
      obtain ⟨inside,-⟩ := List.getElem?_eq_some_iff.mp copy
      split at sink
      · obtain ⟨rfl,rfl⟩ := Prod.mk.inj (Option.some.inj sink)
        rw [List.length_eraseIdx_of_lt (by simpa using inside),List.length_modify]
        omega
      · cases sink
    · cases sink
  · cases sink

theorem pass_shorter (site : List PcodeOp → Nat → Option (List PcodeOp))
    (shrinks : ∀ xs i ys, site xs i = some ys → ys.length < xs.length) (ops : List PcodeOp) :
    (Rewriting.pass site ops).length ≤ ops.length :=
  (@Rewriting.scan_always PcodeOp _ _ _ site (fun _ => True) (fun xs ys => ys.length ≤ xs.length) (fun _ => Nat.le_refl _)
    (fun _ _ _ first second => Nat.le_trans second first)
    (fun xs i ys _ found => ⟨trivial,Nat.le_of_lt (shrinks xs i ys found)⟩) trivial).2

theorem optimizeOnce_shorter (ops : List PcodeOp) : (optimizeOnce ops).length ≤ ops.length := by
  have sunk := pass_shorter sinkOutput (fun _ _ _ => sinkOutput_shrinks) (dropDead (forwarded ops))
  have live : (dropDead (forwarded ops)).length ≤ (forwarded ops).length := by
    unfold dropDead
    rw [List.length_map]
    exact (List.length_filter_le _ _).trans (by rw [List.length_zip]; exact Nat.min_le_left _ _)
  have copied := pass_shorter forwardCopy (fun _ _ _ => forwardCopy_shrinks) (collapsed ops)
  have masked := pass_shorter collapseAnd (fun _ _ _ => collapseAnd_shrinks) (simplify ops)
  have same : (simplify ops).length = ops.length := by simp [simplify]
  exact ((sunk.trans live).trans (copied.trans masked)).trans (Nat.le_of_eq same)

theorem optimizeRounds_shorter (rounds : Nat) : ∀ ops : List PcodeOp, (optimizeRounds rounds ops).length ≤ ops.length := by
  induction rounds with
  | zero => exact fun ops => Nat.le_refl _
  | succ rounds ih =>
    intro ops
    have once := optimizeOnce_shorter ops
    unfold optimizeRounds
    dsimp only
    split
    · exact once
    · exact (ih _).trans once

-- A sum computed into a temporary and copied to a register.
def sumThenCopy : List PcodeOp :=
  [.binary .intAdd (.unique 16 4) (.register 0 4) (.constant 1 4),.copy (.register 8 4) (.unique 16 4)]

theorem sumThenCopy_wellFormed : WellFormed sumThenCopy where
  sized := by decide
  outputs := by simp [sumThenCopy,writes,getOutput,Varnode.unique,Varnode.register]
  temporaries := by decide

def registerOne : Machine := ⟨fun c => if c = (.register,1) then 1 else 0,[],false⟩

-- Two registers exchanged through a temporary: forwarding reads the first one
-- after it has been overwritten.
def swapRegisters : List PcodeOp :=
  [.copy (.unique 16 1) (.register 0 1),.copy (.register 0 1) (.register 1 1),
    .copy (.register 1 1) (.unique 16 1)]

theorem swapRegisters_wellFormed : WellFormed swapRegisters where
  sized := by decide
  outputs := by simp [swapRegisters,writes,getOutput,Varnode.unique,Varnode.register]
  temporaries := by decide

-- Every Register or Ram varnode is written at most once, and none that is
-- written is read.
structure WrittenOnce (ops : List PcodeOp) : Prop where
  once : ∀ v : Varnode, v.space = .register ∨ v.space = .ram → (ops.filterMap writes).count v ≤ 1
  unread : ∀ op ∈ ops, ∀ op' ∈ ops, ∀ v ∈ reads op, v.space = .register ∨ v.space = .ram → writes op' ≠ some v

def conditionSet : Machine := ⟨fun c => if c = (.register,16) then 1 else 0,[],false⟩

-- A sum that is skipped when the condition register is set.
def skippedSum : List PcodeOp :=
  [.cbranch (.constant 0 8) (.register 16 1),.binary .intAdd (.unique 16 1) (.register 8 1) (.constant 1 1),
    .copy (.register 0 1) (.unique 16 1)]

theorem skippedSum_wellFormed : WellFormed skippedSum where
  sized := by decide
  outputs := by simp [skippedSum,writes,getOutput,Varnode.unique,Varnode.register]
  temporaries := by decide

-- The sum is computed before the CBranch and kept only after it: sinking writes
-- the register before the branch is taken.
def keptSum : List PcodeOp :=
  [.binary .intAdd (.unique 16 1) (.register 8 1) (.constant 1 1),.cbranch (.constant 0 8) (.register 16 1),
    .copy (.register 0 1) (.unique 16 1)]

theorem keptSum_wellFormed : WellFormed keptSum where
  sized := by decide
  outputs := by simp [keptSum,writes,getOutput,Varnode.unique,Varnode.register]
  temporaries := by decide

theorem keptSum_once : WrittenOnce keptSum where
  once v _ := by
    have distinct : (keptSum.filterMap writes).Nodup := by decide
    exact List.nodup_iff_count_le_one.mp distinct v
  unread := by decide

end Rsleigh.Pcode
