import Rsleigh.Pcode.Optimize

namespace Rsleigh.Pcode

-- Operands have the sizes P-code asks for, outputs are writable, and two
-- temporaries are one or have no byte in common.
structure WellFormed (ops : List PcodeOp) : Prop where
  sized : ∀ op ∈ ops, wellSized op = true
  outputs : ∀ op ∈ ops, ∀ w, writes op = some w → w.space ≠ .const
  temporaries : ∀ op ∈ ops, ∀ op' ∈ ops, ∀ v ∈ varnodes op, ∀ w ∈ varnodes op',
    v.space = .unique → w.space = .unique → v = w ∨ overlaps v w = false

-- An op that can join a list without breaking its conditions.
structure Joins (ops : List PcodeOp) (op : PcodeOp) : Prop where
  sized : wellSized op = true
  output : ∀ w, writes op = some w → w.space ≠ .const
  temporaries : ∀ v ∈ varnodes op, v.space = .unique → ∃ op' ∈ ops, v ∈ varnodes op'
  load : loadSpace op ≠ some .unique
  store : storeSpace op ≠ some .unique

-- The invariant of the whole run.
structure Sound (ops : List PcodeOp) : Prop extends WellFormed ops where
  load : ∀ op ∈ ops, loadSpace op ≠ some .unique
  store : ∀ op ∈ ops, storeSpace op ≠ some .unique

theorem Sound.joins (sound : Sound ops) (member : op ∈ ops) : Joins ops op :=
  ⟨sound.sized op member,sound.outputs op member,fun _ inside _ => ⟨op,member,inside⟩,sound.load op member,
    sound.store op member⟩

theorem Sound.of_joins (sound : Sound ops) (joins : ∀ op ∈ ops', Joins ops op) : Sound ops' where
  sized op member := (joins op member).sized
  outputs op member := (joins op member).output
  temporaries op member op' member' v inside w inside' left right := by
    obtain ⟨first,found,inFirst⟩ := (joins op member).temporaries v inside left
    obtain ⟨second,found',inSecond⟩ := (joins op' member').temporaries w inside' right
    exact sound.temporaries first found second found' v inFirst w inSecond left right
  load op member := (joins op member).load
  store op member := (joins op member).store

theorem Sound.isolated (sound : Sound ops) (owner : op ∈ ops) (holds : v ∈ varnodes op) (temporary : v.space = .unique)
    (member : op' ∈ ops) : Isolated v op' where
  reads r inside shared := by
    have read : r ∈ varnodes op' := List.mem_append_left _ inside
    exact sound.temporaries op' member op owner r read v holds shared temporary
  load := sound.load op' member
  store := sound.store op' member

theorem Sound.keeps (sound : Sound ops) (owner : op ∈ ops) (holds : v ∈ varnodes op) (temporary : v.space = .unique)
    (member : op' ∈ ops) (unwritten : writes op' ≠ some v) : clobbers op' v = false := by
  have store := sound.store op' member
  rw [clobbers,temporary,Bool.or_eq_false_iff]
  refine ⟨?_,by simpa using store⟩
  cases output : writes op' with
  | none => rfl
  | some w =>
    have write : w ∈ varnodes op' := List.mem_append_right _ (by simp [output])
    rw [Option.any_some]
    by_cases shared : w.space = .unique
    · rcases sound.temporaries op' member op owner w write v holds shared temporary with rfl | apart
      · exact absurd output unwritten
      · exact apart
    · have differs : w.space ≠ v.space := fun equal => shared (equal.trans temporary)
      simp [overlaps,differs]

theorem output_mem (output : getOutput op = some out) : out ∈ varnodes op :=
  List.mem_append_right _ (by simp [writes_of_output output])

theorem wellSized_mapReads (sizes : ∀ v ∈ reads op, (f v).size = v.size) : wellSized (mapReads f op) = wellSized op := by
  cases op with
  | binary op out left right =>
    simp only [mapReads,wellSized,sizes left (by simp [reads]),sizes right (by simp [reads])]
  | _ => simp_all [mapReads,wellSized,reads]

theorem wellSized_mapOutput (output : getOutput op = some out) (size : (f out).size = out.size) :
    wellSized (mapOutput f op) = wellSized op := by
  cases op <;> simp_all [mapOutput,wellSized,getOutput]

@[simp] theorem loadSpace_mapReads (f : Varnode → Varnode) (op : PcodeOp) :
    loadSpace (mapReads f op) = loadSpace op := by cases op <;> rfl
@[simp] theorem storeSpace_mapReads (f : Varnode → Varnode) (op : PcodeOp) :
    storeSpace (mapReads f op) = storeSpace op := by cases op <;> rfl
@[simp] theorem loadSpace_mapOutput (f : Varnode → Varnode) (op : PcodeOp) :
    loadSpace (mapOutput f op) = loadSpace op := by cases op <;> rfl
@[simp] theorem storeSpace_mapOutput (f : Varnode → Varnode) (op : PcodeOp) :
    storeSpace (mapOutput f op) = storeSpace op := by cases op <;> rfl

theorem Simplifies.joins (simplifies : Simplifies op op') (sound : Sound ops) (member : op ∈ ops) : Joins ops op' where
  sized := simplifies.sized
  output w output := sound.outputs op member w (simplifies.writes ▸ output)
  temporaries v inside shared := by
    refine ⟨op,member,?_⟩
    rcases List.mem_append.mp inside with read | written
    · rcases simplifies.reads v read with read | located
      · exact List.mem_append_left _ read
      · exact absurd (shared.symm.trans located) (by decide)
    · exact List.mem_append_right _ (simplifies.writes ▸ written)
  load loads := sound.load op member (simplifies.load loads)
  store := simplifies.store ▸ sound.store op member

theorem simplify_eq (ops : List PcodeOp) : simplify ops = ops.map simplifyOp := by
  simp [simplify,simplifyOp]

theorem simplify_sound (sound : Sound ops) (safe : ops.all foldSafe = true) : Sound (simplify ops) := by
  refine sound.of_joins fun op' member => ?_
  rw [simplify_eq] at member
  obtain ⟨op,inside,rfl⟩ := List.mem_map.mp member
  exact (simplifyOp_simplifies (sound.sized op inside) (List.all_eq_true.mp safe op inside)).joins sound inside

theorem exec_map (env : Env) (same : ∀ op ∈ ops, ∀ s, step env s (f op) = step env s op) (s : Machine) :
    exec env (ops.map f) s = exec env ops s := by
  induction ops generalizing s with
  | nil => rfl
  | cons op ops ih =>
    rw [List.map_cons,exec_cons,exec_cons,same op List.mem_cons_self,
      ih fun op member => same op (List.mem_cons_of_mem _ member)]

theorem simplify_equiv (env : Env) (sound : Sound ops) (safe : ops.all foldSafe = true) :
    Equiv env ops (simplify ops) := by
  intro s
  rw [simplify_eq,exec_map env fun op member =>
    (simplifyOp_simplifies (sound.sized op member) (List.all_eq_true.mp safe op member)).step env]
  exact .refl _ _

theorem Sound.subset (sound : Sound ops) (subset : ∀ op ∈ ops', op ∈ ops) : Sound ops' :=
  sound.of_joins fun op member => sound.joins (subset op member)

theorem drop_dead (env : Env) (sound : Sound (op :: rest)) (output : getOutput op = some out)
    (temporary : out.space = .unique) (dead : DeadIn out rest) : Equiv env (op :: rest) rest := by
  refine .of_running fun s running => ?_
  rw [exec_cons,step_output output running]
  exact exec_dead temporary (fun op' member => sound.isolated List.mem_cons_self (output_mem output) temporary
    (List.mem_cons_of_mem _ member)) dead (s.write_agree env out (compute env s op))

theorem isDead_dead (info : UniqueOutputInfo) (marked : isDead (some info) = true)
    (meaning : info = ⟨futureReads out rest,nextAccess out idx rest⟩) : DeadIn out rest := by
  simp only [isDead,Option.any_some,Bool.or_eq_true,beq_iff_eq,meaning] at marked
  rcases marked with unread | overwritten
  · exact futureReads_zero unread
  · exact nextAccess_write overwritten

theorem dropMarked_equiv (env : Env) (sound : Sound ops) (skip : Varnode → Bool) (idx : Nat) :
    Equiv env ops (((ops.zip (scanBack skip idx ops).2).filter fun entry => !isDead entry.2).map (·.1)) := by
  induction ops generalizing idx with
  | nil => exact .refl _ _
  | cons op rest ih =>
    have tail := ih (sound.subset fun _ member => List.mem_cons_of_mem _ member) (idx + 1)
    obtain ⟨entry,infos⟩ : ∃ entry, (scanBack skip idx (op :: rest)).2 = entry :: (scanBack skip (idx + 1) rest).2 := by
      simp only [scanBack]
      split
      · split
        · exact ⟨_,rfl⟩
        · exact ⟨_,rfl⟩
      · exact ⟨_,rfl⟩
    rw [infos,List.zip_cons_cons,List.filter_cons]
    cases marked : isDead entry with
    | false => simpa [marked] using Equiv.cons op tail
    | true =>
      cases entry with
      | none => simp [isDead] at marked
      | some info =>
        have found : (scanBack skip idx (op :: rest)).2[0]?.join = some info := by rw [infos]; rfl
        obtain ⟨before,op',after,out,parts,start,output,temporary,meaning⟩ := scanBack_info found
        obtain rfl := List.length_eq_zero_iff.mp start
        obtain ⟨rfl,rfl⟩ := List.cons.inj parts
        have dropped := drop_dead env sound output temporary (isDead_dead info marked meaning)
        simpa [marked] using dropped.trans tail

theorem dropDead_equiv (env : Env) (sound : Sound ops) : Equiv env ops (dropDead ops) :=
  dropMarked_equiv env sound _ 0

theorem dropDead_sound (sound : Sound ops) : Sound (dropDead ops) := by
  refine sound.subset fun op member => ?_
  obtain ⟨entry,kept,rfl⟩ := List.mem_map.mp member
  exact (List.of_mem_zip (List.mem_filter.mp kept).1).1

-- After a temporary has been moved out of the way the two sides differ in its
-- bytes only, less those of the place that took its value.
theorem exec_moved {v w : Varnode} (temporary : v.space = .unique) (isolated : ∀ op ∈ ops, Isolated v op)
    (dead : w = v ∨ DeadIn v ops) (agree : Machine.AgreeOff (v.bytes \ w.bytes) s s') :
    (exec env ops s).Same (exec env ops s') := by
  rcases dead with rfl | dead
  · rw [Set.sdiff_self] at agree
    exact (exec_agree _ agree fun op _ => ⟨fun _ _ => .inr fun _ _ => id,fun _ _ _ => False.elim⟩).mono
      (Set.empty_subset _)
  · exact exec_dead temporary isolated dead (agree.mono Set.sdiff_subset)

section Forward

variable {before between after : List PcodeOp} {use : PcodeOp} {out input : Varnode}

theorem forward_use (env : Env) (isolated : Isolated out use) (temporary : out.space = .unique)
    (size : input.size = out.size) (agree : Machine.AgreeOff out.bytes s s')
    (value : s.read env out = s'.read env input) :
    ReadsAs env (fun v => if v = out then input else v) s s' use where
  reads v member := by
    by_cases same : v = out
    · rw [if_pos same,same]
      exact value
    · rw [if_neg same]
      refine read_agree agree ?_
      by_cases shared : v.space = .unique
      · exact avoids_of_apart ((isolated.reads v member shared).resolve_left same)
      · exact avoids_of_space fun equal => shared (equal.trans temporary)
  sizes v _ := by
    split
    · rename_i same
      rw [same,size]
    · rfl
  load w loads := by
    refine read_agree agree (avoids_of_space fun equal => ?_)
    exact isolated.load (by rw [loads,equal,temporary])

theorem forward_equiv (env : Env) (sound : Sound (.copy out input :: (between ++ use :: after)))
    (temporary : out.space = .unique) (untouched : Untouched out between)
    (dead : getOutput use = some out ∨ DeadIn out after)
    (safe : ∀ op ∈ between, writesTo op out = false ∧ (input.space = .const ∨ clobbers op input = false)) :
    Equiv env (.copy out input :: (between ++ use :: after))
      (between ++ replaceReads use out input :: after) := by
  have owner : PcodeOp.copy out input ∈ PcodeOp.copy out input :: (between ++ use :: after) := List.mem_cons_self
  have holds : out ∈ varnodes (.copy out input) := output_mem rfl
  have size : out.size = input.size := by simpa [wellSized] using sound.sized _ owner
  have inBetween : ∀ op ∈ between, op ∈ PcodeOp.copy out input :: (between ++ use :: after) := by simp_all
  have isolated : ∀ op ∈ PcodeOp.copy out input :: (between ++ use :: after), Isolated out op :=
    fun op member => sound.isolated owner holds temporary member
  have located : out.space ≠ .const := by simp [temporary]
  refine .of_running fun s running => ?_
  rw [exec_cons,exec_append,exec_append]
  have start : Machine.AgreeOff out.bytes (step env s (.copy out input)) s := by
    rw [step_output rfl running]
    exact s.write_agree env out _
  have middle := exec_agree env start fun op member =>
    (isolated op (inBetween op member)).avoids temporary (untouched op member).1
  have kept : ∀ op ∈ between, out.space = .const ∨ clobbers op out = false := fun op member =>
    .inr (sound.keeps owner holds temporary (inBetween op member) (mt writesTo_iff.mpr (by simp [(safe op member).1])))
  have value : (exec env between (step env s (.copy out input))).read env out =
      (exec env between s).read env input := by
    rw [exec_read _ _ kept,exec_read _ _ fun op member => (safe op member).2,step_output rfl running,
      Machine.read_write located,size,compute,Nat.mod_eq_of_lt (s.read_lt env input)]
  have inUse : use ∈ PcodeOp.copy out input :: (between ++ use :: after) := by simp
  have same := forward_use env (isolated use inUse) temporary size.symm middle value
  have inAfter : ∀ op ∈ after, Isolated out op := fun op member => isolated op (by simp [member])
  cases stopped : (exec env between (step env s (.copy out input))).left with
  | true =>
    have stopped' : (exec env between s).left = true := middle.left.symm.trans stopped
    rw [exec_left stopped,exec_left stopped']
    exact middle.same temporary
  | false =>
    rw [exec_cons,exec_cons,replaceReads]
    rcases dead with output | dead
    · rw [step_heals_as middle same (writes_of_output output) stopped]
      exact .refl _ _
    · exact exec_dead temporary inAfter dead (step_as middle same)

end Forward

section Sink

variable {before between after : List PcodeOp} {op : PcodeOp} {out dest : Varnode}

theorem mapOutput_output (output : getOutput op = some out) (dest : Varnode) :
    getOutput (mapOutput (fun _ => dest) op) = some dest := by
  rw [getOutput_mapOutput,output]
  rfl

theorem compute_mapOutput (output : getOutput op = some out) (size : dest.size = out.size) (env : Env) (s : Machine) :
    compute env s (mapOutput (fun _ => dest) op) = compute env s op := by
  cases op <;> simp_all [getOutput,mapOutput,compute]

theorem exec_stays (env : Env) (stays : ∀ op ∈ ops, mayLeave op = false) (running : s.left = false) :
    (exec env ops s).left = false := by
  induction ops generalizing s with
  | nil => exact running
  | cons op ops ih =>
    refine ih (fun op member => stays op (List.mem_cons_of_mem _ member)) ?_
    have still := stays op List.mem_cons_self
    cases op <;> simp_all [step,leaves,mayLeave]

theorem ignores_avoids (ignored : ignores op dest = true) : OpAvoids dest.bytes op where
  reads v member := by
    simp only [ignores,Bool.and_eq_true,List.all_eq_true] at ignored
    exact avoids_of_apart (by simpa using ignored.1.1.2 v member)
  load space loads c inside equal := by
    have space : loadSpace op = some dest.space := by rw [loads,← equal,inside.1]
    simp [ignores,space] at ignored

theorem store_twice {v w : Varnode} {m m' : Cell → UInt8} (agree : ByteStore.AgreeOff (v.bytes ∪ w.bytes) m m') (env : Env)
    (value : Nat) (same : value % 256 ^ w.size.toNat = ByteStore.load m' (w.cells env)) :
    ByteStore.AgreeOff (v.bytes \ w.bytes) (ByteStore.store m (w.cells env) value) m' := by
  have kept : ByteStore.store m' (w.cells env) value = m' := by
    rw [← ByteStore.store_mod,length_cells,same,ByteStore.store_load]
  have stored := agree.store (w.cells env) value
  rw [kept,cells_eq_bytes,Set.union_sdiff_right] at stored
  exact stored

theorem sink_equiv (env : Env) (sound : Sound (op :: (between ++ .copy dest out :: after)))
    (output : getOutput op = some out) (temporary : out.space = .unique) (untouched : Untouched out between)
    (dead : dest = out ∨ DeadIn out after)
    (safe : ∀ op ∈ between, writesTo op out = false ∧ ignores op dest = true) :
    Equiv env (op :: (between ++ .copy dest out :: after))
      (mapOutput (fun _ => dest) op :: (between ++ after)) := by
  have owner : op ∈ op :: (between ++ .copy dest out :: after) := List.mem_cons_self
  have holds : out ∈ varnodes op := output_mem output
  have inCopy : PcodeOp.copy dest out ∈ op :: (between ++ .copy dest out :: after) := by simp
  have size : dest.size = out.size := by simpa [wellSized] using sound.sized _ inCopy
  have writable : dest.space ≠ .const := sound.outputs _ inCopy dest rfl
  have located : out.space ≠ .const := by simp [temporary]
  have inBetween : ∀ o ∈ between, o ∈ op :: (between ++ .copy dest out :: after) := by simp_all
  have isolated : ∀ o ∈ op :: (between ++ .copy dest out :: after), Isolated out o :=
    fun o member => sound.isolated owner holds temporary member
  refine .of_running fun s running => ?_
  rw [exec_cons,exec_cons,exec_append,exec_append,step_output output running,
    step_output (mapOutput_output output dest) running,compute_mapOutput output size]
  generalize computed : compute env s op = value
  have start : Machine.AgreeOff (out.bytes ∪ dest.bytes) (s.write env out value) (s.write env dest value) :=
    ((s.write_agree env out value).mono Set.subset_union_left).trans
      ((s.write_agree env dest value).mono Set.subset_union_right).symm
  have middle := exec_agree env start fun o member =>
    ((isolated o (inBetween o member)).avoids temporary (untouched o member).1).union
      (ignores_avoids (safe o member).2)
  have keptOut : ∀ o ∈ between, out.space = .const ∨ clobbers o out = false := fun o member =>
    .inr (sound.keeps owner holds temporary (inBetween o member) (mt writesTo_iff.mpr (by simp [(safe o member).1])))
  have keptDest : ∀ o ∈ between, dest.space = .const ∨ clobbers o dest = false := fun o member => by
    have ignored := (safe o member).2
    simp only [ignores,Bool.and_eq_true,Bool.not_eq_true'] at ignored
    exact .inr ignored.1.1.1
  have valueOut := exec_read env (s.write env out value) keptOut
  have valueDest := exec_read env (s.write env dest value) keptDest
  have stays : dest.space = .unique ∨
      (exec env between (s.write env out value)).left = false := by
    by_cases hidden : dest.space = .unique
    · exact .inl hidden
    · refine .inr (exec_stays env (fun o member => ?_) running)
      have ignored := (safe o member).2
      simp only [ignores,Bool.and_eq_true,Bool.or_eq_true,beq_iff_eq,hidden,false_or,Bool.not_eq_true'] at ignored
      exact ignored.2
  have wrote : (s.write env out value).read env out = (s.write env dest value).read env dest := by
    rw [Machine.read_write located,Machine.read_write writable,size]
  generalize exec env between (s.write env out value) = here at *
  generalize exec env between (s.write env dest value) = there at *
  cases stopped : here.left with
  | true =>
    have hidden : dest.space = .unique := stays.resolve_right (by simp [stopped])
    rw [exec_left stopped,exec_left (middle.left.symm.trans stopped)]
    refine middle.mono (Set.union_subset (fun c inside => ?_) fun c inside => ?_)
    · exact inside.1.trans temporary
    · exact inside.1.trans hidden
  | false =>
    rw [exec_cons,step_output rfl stopped]
    have moved : here.read env out = ByteStore.load there.mem (dest.cells env) := by
      rw [valueOut,wrote,← valueDest,Machine.read,readMem,if_neg writable]
    have small : here.read env out % 256 ^ dest.size.toNat = here.read env out := by
      rw [size,Nat.mod_eq_of_lt (here.read_lt env out)]
    refine exec_moved temporary (fun o member => isolated o (by simp [member])) dead
      ⟨store_twice middle.mem env (here.read env out) (small.trans moved),middle.effects,middle.left⟩

end Sink

section Collapse

variable {after : List PcodeOp} {out dest left mask : Varnode}

theorem and_twice (env : Env) (x y : Nat) :
    evalBinary env .intAnd size size (evalBinary env .intAnd size size x y) y =
      evalBinary env .intAnd size size x y := by
  simp [evalBinary,BitVec.and_assoc]

theorem evalAnd_lt (env : Env) (x y : Nat) : evalBinary env .intAnd size size x y < 256 ^ size.toNat := by
  rw [pow_bytes]
  exact (BitVec.ofNat (8 * size.toNat) x &&& BitVec.ofNat (8 * size.toNat) y).isLt

theorem collapse_equiv (env : Env)
    (sound : Sound (.binary .intAnd out left mask :: .binary .intAnd dest out mask :: after))
    (temporary : out.space = .unique) (constant : mask.space = .const) (dead : dest = out ∨ DeadIn out after) :
    Equiv env (.binary .intAnd out left mask :: .binary .intAnd dest out mask :: after)
      (.binary .intAnd dest left mask :: after) := by
  have sizes : left.size = mask.size ∧ out.size = left.size := by
    simpa [wellSized] using sound.sized _ List.mem_cons_self
  have sizes' : out.size = mask.size ∧ dest.size = out.size := by
    simpa [wellSized] using sound.sized _ (List.mem_cons_of_mem _ List.mem_cons_self)
  have located : out.space ≠ .const := by simp [temporary]
  refine .of_running fun s running => ?_
  have inner : compute env s (.binary .intAnd out left mask) = compute env s (.binary .intAnd dest left mask) := by
    rw [compute,compute,sizes'.2]
  rw [exec_cons,exec_cons,exec_cons,step_output rfl running,step_output rfl running,inner]
  generalize computed : compute env s (.binary .intAnd dest left mask) = value
  have masked : (s.write env out value).read env out = value := by
    rw [Machine.read_write located]
    refine Nat.mod_eq_of_lt ?_
    rw [← computed,compute,sizes'.2,sizes.2]
    exact evalAnd_lt env _ _
  have outer : compute env (s.write env out value) (.binary .intAnd dest out mask) = value := by
    rw [compute,masked,read_const constant,← computed,compute,read_const constant,sizes'.2,sizes.2,and_twice]
  rw [step_output rfl (by simpa using running),outer]
  have isolated : ∀ op ∈ after, Isolated out op := fun op member =>
    sound.isolated List.mem_cons_self (output_mem rfl) temporary (by simp [member])
  refine exec_moved temporary isolated dead ⟨?_,rfl,rfl⟩
  have second := (s.write_agree env out value).mem.store (dest.cells env) value
  rw [cells_eq_bytes] at second
  exact second

end Collapse

end Rsleigh.Pcode
