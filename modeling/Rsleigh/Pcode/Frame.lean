import Rsleigh.Pcode.Machine

namespace Rsleigh.Pcode

-- Two machines that may differ in the bytes of a region and nowhere else.
structure Machine.AgreeOff (region : Set Cell) (s s' : Machine) : Prop where
  mem : ByteStore.AgreeOff region s.mem s'.mem
  effects : s.effects = s'.effects
  left : s.left = s'.left

-- What the rest of the program can see of an instruction.
def Machine.Same (s s' : Machine) : Prop := s.AgreeOff {c | c.1 = .unique} s'

theorem Machine.AgreeOff.refl (region : Set Cell) (s : Machine) : s.AgreeOff region s :=
  ⟨.refl _ _,rfl,rfl⟩

theorem Machine.AgreeOff.symm (agree : Machine.AgreeOff region s s') : s'.AgreeOff region s :=
  ⟨agree.mem.symm,agree.effects.symm,agree.left.symm⟩

theorem Machine.AgreeOff.trans (left : Machine.AgreeOff region s s') (right : s'.AgreeOff region s'') :
    s.AgreeOff region s'' :=
  ⟨left.mem.trans right.mem,left.effects.trans right.effects,left.left.trans right.left⟩

theorem Machine.AgreeOff.mono (agree : Machine.AgreeOff region s s') (wider : region ⊆ region') :
    s.AgreeOff region' s' := ⟨agree.mem.mono wider,agree.effects,agree.left⟩

theorem Machine.AgreeOff.same {v : Varnode} (agree : Machine.AgreeOff v.bytes s s')
    (temporary : v.space = .unique) : s.Same s' :=
  agree.mono fun _ member => member.1.trans temporary

theorem Machine.write_agree (env : Env) (s : Machine) (v : Varnode) (value : Nat) :
    (s.write env v value).AgreeOff v.bytes s :=
  ⟨cells_eq_bytes env v ▸ .store_left _ _ _,rfl,rfl⟩

def loadSpace : PcodeOp → Option AddressSpaceId
  | .load _ space _ => some space
  | _ => none

def storeSpace : PcodeOp → Option AddressSpaceId
  | .store space _ _ => some space
  | _ => none

theorem read_agree (agree : Machine.AgreeOff region s s') (avoids : v.Avoids region) :
    s.read env v = s'.read env v := readMem_agree agree.mem avoids

-- On s' the op with its reads renamed by f sees what the op itself sees on s.
structure ReadsAs (env : Env) (f : Varnode → Varnode) (s s' : Machine) (op : PcodeOp) : Prop where
  reads : ∀ v ∈ reads op, s.read env v = s'.read env (f v)
  sizes : ∀ v ∈ Pcode.reads op, (f v).size = v.size
  load : ∀ w : Varnode, loadSpace op = some w.space → s.read env w = s'.read env w

theorem compute_as (effects : s.effects = s'.effects) (same : ReadsAs env f s s' op) :
    compute env s op = compute env s' (mapReads f op) := by
  have read := same.reads
  have size := same.sizes
  cases op with
  | load out space ptr =>
    have pointer : pointee env s space ptr out.size = pointee env s' space (f ptr) out.size := by
      rw [pointee,pointee,read ptr (by simp [reads])]
    rw [mapReads,compute,compute,← pointer]
    exact same.load _ rfl
  | binary op out left right =>
    have l : left ∈ reads (.binary op out left right) := by simp [reads]
    have r : right ∈ reads (.binary op out left right) := by simp [reads]
    rw [mapReads,compute,compute,read left l,read right r,size left l]
  | callOther out funcId inputs =>
    have values : inputs.map (s.read env) = (inputs.map f).map (s'.read env) := by
      rw [List.map_map]
      exact List.map_congr_left read
    cases out with
    | none => rfl
    | some out => rw [mapReads,compute,compute,effects,values]
  | copy out input => exact read input (by simp [reads])
  | unary op out input =>
    have i : input ∈ reads (.unary op out input) := by simp [reads]
    rw [mapReads,compute,compute,read input i,size input i]
  | subpiece out input lsb => rw [mapReads,compute,compute,read input (by simp [reads])]
  | _ => rfl

theorem written_as (same : ReadsAs env f s s' op) : written env s op = written env s' (mapReads f op) := by
  cases op with
  | store space ptr val =>
    rw [mapReads,written,written,pointee,pointee,same.reads ptr (by simp [reads]),same.sizes val (by simp [reads])]
  | _ => rfl

theorem writtenValue_as (effects : s.effects = s'.effects) (same : ReadsAs env f s s' op) :
    writtenValue env s op = writtenValue env s' (mapReads f op) := by
  have computed := compute_as effects same
  cases op with
  | store space ptr val => exact same.reads val (by simp [reads])
  | _ => exact computed

theorem emitted_as (same : ReadsAs env f s s' op) : emitted env s op = emitted env s' (mapReads f op) := by
  have read := same.reads
  cases op with
  | store space ptr val =>
    rw [mapReads,emitted,emitted,read ptr (by simp [reads]),read val (by simp [reads]),
      same.sizes val (by simp [reads])]
  | callOther out funcId inputs =>
    have values : inputs.map (s.read env) = (inputs.map f).map (s'.read env) := by
      rw [List.map_map]
      exact List.map_congr_left read
    rw [mapReads,emitted,emitted,values]
  | _ => rfl

theorem leaves_as (same : ReadsAs env f s s' op) : leaves env s op = leaves env s' (mapReads f op) := by
  cases op with
  | cbranch dest cond => rw [mapReads,leaves,leaves,same.reads cond (by simp [reads])]
  | _ => rfl

theorem step_as (agree : Machine.AgreeOff region s s') (same : ReadsAs env f s s' op) :
    (step env s op).AgreeOff region (step env s' (mapReads f op)) := by
  unfold step
  rw [← agree.left,← written_as same,← writtenValue_as agree.effects same,← emitted_as same,← leaves_as same,
    ← agree.effects]
  split
  · exact agree
  · refine ⟨?_,rfl,rfl⟩
    dsimp only
    split
    · exact (agree.mem.store _ _).mono Set.sdiff_subset
    · exact agree.mem

theorem step_heals_as {v : Varnode} (agree : Machine.AgreeOff v.bytes s s') (same : ReadsAs env f s s' op)
    (output : writes op = some v) (running : s.left = false) : step env s op = step env s' (mapReads f op) := by
  have target : written env s op = some v := by
    cases op with
    | store => simp [writes,getOutput] at output
    | _ => exact output
  unfold step
  rw [← agree.left,← written_as same,← writtenValue_as agree.effects same,← emitted_as same,← leaves_as same,
    ← agree.effects,target,running]
  have mem := agree.mem.store (v.cells env) (writtenValue env s op)
  rw [cells_eq_bytes,Set.sdiff_self] at mem
  have equal : ByteStore.store s.mem (v.cells env) (writtenValue env s op) =
      ByteStore.store s'.mem (v.cells env) (writtenValue env s op) := funext fun c => mem c (by simp)
  simp [equal]

-- No static read of the op, and no load through a pointer, meets the region.
structure OpAvoids (region : Set Cell) (op : PcodeOp) : Prop where
  reads : ∀ v ∈ reads op, v.Avoids region
  load : ∀ space, loadSpace op = some space → ∀ c ∈ region, c.1 ≠ space

theorem OpAvoids.readsAs (env : Env) (avoids : OpAvoids region op) (agree : Machine.AgreeOff region s s') :
    ReadsAs env id s s' op where
  reads v member := read_agree agree (avoids.reads v member)
  sizes _ _ := rfl
  load w loads := read_agree agree (.inr fun c inside other => avoids.load w.space loads c other inside.1)

theorem OpAvoids.union (left : OpAvoids region op) (right : OpAvoids region' op) : OpAvoids (region ∪ region') op where
  reads v member := by
    rcases left.reads v member with located | first
    · exact .inl located
    · rcases right.reads v member with located | second
      · exact .inl located
      · exact .inr fun c inside either => either.elim (first c inside) (second c inside)
  load space loads c either := either.elim (left.load space loads c) (right.load space loads c)

theorem step_agree (agree : Machine.AgreeOff region s s') (avoids : OpAvoids region op) :
    (step env s op).AgreeOff region (step env s' op) := by
  have kept := step_as agree (avoids.readsAs env agree)
  rwa [mapReads_id] at kept

theorem step_heals {v : Varnode} (agree : Machine.AgreeOff v.bytes s s') (avoids : OpAvoids v.bytes op)
    (output : writes op = some v) (running : s.left = false) : step env s op = step env s' op := by
  have equal := step_heals_as agree (avoids.readsAs env agree) output running
  rwa [mapReads_id] at equal

theorem exec_agree (env : Env) (agree : Machine.AgreeOff region s s') (avoids : ∀ op ∈ ops, OpAvoids region op) :
    (exec env ops s).AgreeOff region (exec env ops s') := by
  induction ops generalizing s s' with
  | nil => exact agree
  | cons op ops ih =>
    exact ih (step_agree agree (avoids op List.mem_cons_self)) fun op member =>
      avoids op (List.mem_cons_of_mem _ member)

-- An op that may change some byte of v. A Store may write anywhere in its space.
def clobbers (op : PcodeOp) (v : Varnode) : Bool :=
  (writes op).any (overlaps · v) || storeSpace op == some v.space

theorem written_eq_writes (direct : storeSpace op = none) : written env s op = writes op := by
  cases op with
  | store => simp [storeSpace] at direct
  | _ => rfl

theorem step_frame {v : Varnode} (kept : clobbers op v = false) (c : Cell) (member : c ∈ v.bytes) :
    (step env s op).mem c = s.mem c := by
  obtain ⟨output,stores⟩ := Bool.or_eq_false_iff.mp kept
  unfold step
  split
  · rfl
  · dsimp only
    cases target : written env s op with
    | none => rfl
    | some w =>
      refine ByteStore.store_off _ _ fun inside => ?_
      rw [mem_cells] at inside
      cases direct : storeSpace op with
      | none =>
        rw [written_eq_writes direct] at target
        rw [target,Option.any_some] at output
        simp [overlaps_of_shared inside member] at output
      | some space =>
        obtain ⟨ptr,val,rfl⟩ : ∃ ptr val, op = .store space ptr val := by
          cases op <;> simp_all [storeSpace]
        obtain rfl := Option.some.inj target
        have shared : space = v.space := inside.1.symm.trans member.1
        simp [storeSpace,shared] at stores

theorem step_read {v : Varnode} (kept : v.space = .const ∨ clobbers op v = false) :
    (step env s op).read env v = s.read env v := by
  rcases kept with located | kept
  · simp [Machine.read,readMem,located]
  · unfold Machine.read readMem
    split
    · rfl
    · exact ByteStore.load_congr fun c member => step_frame kept c (mem_cells.mp member)

theorem exec_read (env : Env) (s : Machine) {v : Varnode} (kept : ∀ op ∈ ops, v.space = .const ∨ clobbers op v = false) :
    (exec env ops s).read env v = s.read env v := by
  induction ops generalizing s with
  | nil => rfl
  | cons op ops ih =>
    rw [exec_cons,ih _ fun op member => kept op (List.mem_cons_of_mem _ member),
      step_read (kept op List.mem_cons_self)]

-- Same outcome from every machine, temporaries apart.
def Equiv (env : Env) (xs ys : List PcodeOp) : Prop := ∀ s, (exec env xs s).Same (exec env ys s)

theorem Equiv.refl (env : Env) (xs : List PcodeOp) : Equiv env xs xs := fun _ => .refl _ _
theorem Equiv.symm (equiv : Equiv env xs ys) : Equiv env ys xs := fun s => (equiv s).symm
theorem Equiv.trans (left : Equiv env xs ys) (right : Equiv env ys zs) : Equiv env xs zs :=
  fun s => (left s).trans (right s)

theorem Equiv.prepend (before : List PcodeOp) (equiv : Equiv env xs ys) :
    Equiv env (before ++ xs) (before ++ ys) := by
  intro s
  rw [exec_append,exec_append]
  exact equiv _

theorem Equiv.cons (op : PcodeOp) (equiv : Equiv env xs ys) : Equiv env (op :: xs) (op :: ys) :=
  equiv.prepend [op]

theorem Equiv.of_running (equiv : ∀ s, s.left = false → (exec env xs s).Same (exec env ys s)) :
    Equiv env xs ys := by
  intro s
  cases stopped : s.left with
  | false => exact equiv s stopped
  | true =>
    rw [exec_left stopped,exec_left stopped]
    exact .refl _ _

-- The temporary v stands apart from everything else an op touches.
structure Isolated (v : Varnode) (op : PcodeOp) : Prop where
  reads : ∀ r ∈ reads op, r.space = .unique → r = v ∨ overlaps r v = false
  load : loadSpace op ≠ some .unique
  store : storeSpace op ≠ some .unique

theorem Isolated.avoids {v : Varnode} (isolated : Isolated v op) (temporary : v.space = .unique)
    (unread : v ∉ Pcode.reads op) : OpAvoids v.bytes op := by
  refine ⟨fun r member => ?_,fun space loads c inside equal => ?_⟩
  · by_cases shared : r.space = .unique
    · rcases isolated.reads r member shared with rfl | apart
      · exact absurd member unread
      · exact avoids_of_apart apart
    · exact avoids_of_space fun equal => shared (equal.trans temporary)
  · exact isolated.load (by rw [loads,← equal,inside.1,temporary])

-- v is not read again before an op writes it.
def DeadIn (v : Varnode) : List PcodeOp → Prop
  | [] => True
  | op :: rest => v ∉ reads op ∧ (writes op = some v ∨ DeadIn v rest)

theorem exec_dead {v : Varnode} (temporary : v.space = .unique) (isolated : ∀ op ∈ ops, Isolated v op)
    (dead : DeadIn v ops) (agree : Machine.AgreeOff v.bytes s s') :
    (exec env ops s).Same (exec env ops s') := by
  induction ops generalizing s s' with
  | nil => exact agree.same temporary
  | cons op ops ih =>
    have avoids := (isolated op List.mem_cons_self).avoids temporary dead.1
    cases stopped : s.left with
    | true =>
      rw [exec_left stopped,exec_left (agree.left ▸ stopped)]
      exact agree.same temporary
    | false =>
      rw [exec_cons,exec_cons]
      rcases dead.2 with output | later
      · rw [step_heals agree avoids output stopped]
        exact .refl _ _
      · exact ih (fun op member => isolated op (List.mem_cons_of_mem _ member)) later (step_agree agree avoids)

end Rsleigh.Pcode
