import Rsleigh.Decompile.IndirectTargets
import Rsleigh.Pcode.Runs

namespace Rsleigh.Decompile.IndirectTargets

open Pcode Runs

-- A block of the function: its ops from one place to another.
def slice (ops : List PcodeOp) (lo hi : Nat) : List PcodeOp := (ops.drop lo).take (hi - lo)

-- The last op between two places that writes at the space and offset of a varnode.
structure LastWrite (ops : List PcodeOp) (lo hi : Nat) (v : Varnode) (place : Nat) (op : PcodeOp) : Prop where
  after : lo ≤ place
  before : place < hi
  isOp : ops[place]? = some op
  writes : writesAt v op = true
  last : ∀ other op', place < other → other < hi → ops[other]? = some op' → writesAt v op' = false

-- Where a trace looks for a producer: in a part of the function, or in all of it up to a call, where another call
-- between ends the search.
inductive Scope where
  | within (lo hi : Nat)
  | upTo (callIdx : Nat)

def Picks (ops : List PcodeOp) : Scope → Varnode → Nat → PcodeOp → Prop
  | .within lo hi, v, place, op => LastWrite ops lo hi v place op
  | .upTo callIdx, v, place, op => LastWrite ops 0 callIdx v place op ∧
      ∀ other op', place < other → other < callIdx → ops[other]? = some op' → isCall op' = false

-- How one of the two traces goes: where it starts to look, where it looks for the producer of what a producer reads,
-- and where it looks when it finds none.
structure Tracing where
  follows : PcodeOp → Follow
  first : Scope
  narrow : Scope → Nat → Scope
  widen : Scope → Option Scope

def tailFollow : PcodeOp → Follow
  | .copy _ input | .unary .intZext _ input | .unary .intSext _ input =>
    if input.space = .const then .constant input.offset else .onto input 0
  | .load _ _ ptr => .slot ptr
  | _ => .stop

def callTracing (ops : List PcodeOp) (dest : Varnode) (lo place : Nat) : Tracing where
  follows := follow
  first := .within lo (place + 1)
  narrow scope _ := scope
  widen
    | .within _ _ => (lastCallInd dest ops).map .upTo
    | .upTo _ => none

def tailTracing (lo place : Nat) : Tracing where
  follows := tailFollow
  first := .within lo place
  narrow _ producer := .within lo producer
  widen _ := none

section Links

variable (env : Env) (program : Program) (tracing : Tracing) (dest : Varnode)

-- The links of a trace along a run: what is traced next, as it was when these ops had been executed, and what has been
-- added to it since.
inductive Link (h₀ : History) (s₀ : Pcode.Machine) : Scope → History → Pcode.Machine → Varnode → UInt64 → Prop where
  | start : Link h₀ s₀ tracing.first h₀ s₀ dest 0
  | widen : Link h₀ s₀ scope h s v adjustment → (∀ place op, ¬ Picks program.ops scope v place op) →
      tracing.widen scope = some wider → Link h₀ s₀ wider h s v adjustment
  | onto : Link h₀ s₀ scope h s v adjustment → Picks program.ops scope v place op →
      tracing.follows op = .onto next added → LastTouch program.ops v h s place h' before after →
      Link h₀ s₀ (tracing.narrow scope place) h' before next (adjustment + added)

-- A producer that the trace goes on from, or ends at with an address.
def Traced : Follow → Prop
  | .slot ptr => ptr.space = .const
  | .onto _ _ | .constant _ => True
  | .stop => False

-- What a producer leaves, as an address, is what the trace takes it for: what it is traced on to with what is added,
-- the constant, or with nothing added above it what a slot holds whose address fits the pointer.
def Keeps (v : Varnode) (adjustment : UInt64) (before after : Pcode.Machine) : Follow → Prop
  | .slot ptr => adjustment = 0 ∧ ptr.offset.toNat < 256 ^ ptr.size.toNat
  | .onto next added => UInt64.ofNat (after.read env v) = UInt64.ofNat (before.read env next) + added
  | .constant value => UInt64.ofNat (after.read env v) = value
  | .stop => True

-- The op that the trace takes for the producer of a varnode writes this varnode, on the run nothing has touched it
-- since, and it leaves what the trace takes it for.
structure Produces (h : History) (s : Pcode.Machine) (v : Varnode) (adjustment : UInt64) (place : Nat) (op : PcodeOp) : Prop where
  output : getOutput op = some v
  located : v.space ≠ .const
  touched : ∃ h' before after, LastTouch program.ops v h s place h' before after
  keeps : ∀ h' before after, LastTouch program.ops v h s place h' before after →
    Keeps env v adjustment before after (tracing.follows op)

-- On every run to a place, every producer that the trace goes on from is one.
def Faithful (place : Nat) : Prop :=
  ∀ h₀ s₀, Run env program h₀ s₀ place → ∀ scope h s v adjustment producer op,
    Link program tracing dest h₀ s₀ scope h s v adjustment → Picks program.ops scope v producer op →
      Traced (tracing.follows op) → Produces env program tracing h s v adjustment producer op

-- The pointer that a slot of memory holds now, or held when a load of the run read it.
def FromSlot (size : UInt32) (h : History) (s : Pcode.Machine) (a value : UInt64) : Prop :=
  value = UInt64.ofNat (s.read env ⟨.ram,a,size⟩) ∨
    ∃ place before out space ptr, (place, before) ∈ h ∧ program.ops[place]? = some (.load out space ptr) ∧
      value = UInt64.ofNat (before.read env ⟨space,a,out.size⟩)

-- On every run to a place the destination is the address, or the pointer in the slot there.
def GoesTo (place : Nat) (a : UInt64) : Prop :=
  ∀ h s, Run env program h s place → UInt64.ofNat (s.read env dest) = a ∨
    FromSlot env program dest.size h s a (UInt64.ofNat (s.read env dest))

end Links

section Positions

theorem rposition_some (found : rposition wanted ops end_ = some place) :
    place < end_ ∧ (∃ op, ops[place]? = some op ∧ wanted op = true) ∧
      ∀ other op, place < other → other < end_ → ops[other]? = some op → wanted op = false := by
  induction end_ with
  | zero => cases found
  | succ end_ ih =>
    unfold rposition at found
    split at found
    · rename_i isWanted
      obtain rfl := Option.some.inj found
      refine ⟨Nat.lt_succ_self _,?_,?_⟩
      · cases isOp : ops[end_]? with
        | none =>
          rw [isOp] at isWanted
          cases isWanted
        | some op =>
          rw [isOp] at isWanted
          exact ⟨op,rfl,isWanted⟩
      · intro other op later bounded
        omega
    · rename_i notWanted
      obtain ⟨bounded,isOp,last⟩ := ih found
      refine ⟨by omega,isOp,?_⟩
      intro other op later bounded' isOther
      by_cases isLast : other = end_
      · subst isLast
        rw [isOther] at notWanted
        simpa using notWanted
      · exact last other op later (by omega) isOther

theorem rposition_none (absent : rposition wanted ops end_ = none) (bounded : other < end_) (isOp : ops[other]? = some op) :
    wanted op = false := by
  induction end_ with
  | zero => omega
  | succ end_ ih =>
    unfold rposition at absent
    split at absent
    · cases absent
    · rename_i notWanted
      by_cases isLast : other = end_
      · subst isLast
        rw [isOp] at notWanted
        simpa using notWanted
      · exact ih absent (by omega)

theorem slice_get (ops : List PcodeOp) (lo hi place : Nat) (inside : lo + place < hi) :
    (slice ops lo hi)[place]? = ops[lo + place]? := by
  unfold slice
  rw [List.getElem?_take,if_pos (by omega),List.getElem?_drop]

theorem slice_length (ops : List PcodeOp) (lo hi : Nat) : (slice ops lo hi).length ≤ hi - lo := by
  unfold slice
  exact List.length_take_le _ _

theorem producer_some {end_ : Nat} (bounded : lo + end_ ≤ hi) (found : producer (slice ops lo hi) end_ v = some place) :
    ∃ op, (slice ops lo hi)[place]? = some op ∧ LastWrite ops lo (lo + end_) v (lo + place) op := by
  obtain ⟨before,⟨op,isOp,isWriter⟩,last⟩ := rposition_some found
  refine ⟨op,isOp,Nat.le_add_right _ _,by omega,?_,isWriter,?_⟩
  · rw [← slice_get ops lo hi place (by omega)]
    exact isOp
  · intro other op' later bounded' isOther
    apply last (other - lo) op' (by omega) (by omega)
    rw [slice_get ops lo hi _ (by omega),show lo + (other - lo) = other by omega]
    exact isOther

theorem producer_none {end_ : Nat} (bounded : lo + end_ ≤ hi) (absent : producer (slice ops lo hi) end_ v = none) :
    ¬ LastWrite ops lo (lo + end_) v place op := by
  intro isLast
  have isWriter := isLast.writes
  have after := isLast.after
  have before := isLast.before
  have isOp : (slice ops lo hi)[place - lo]? = some op := by
    rw [slice_get ops lo hi _ (by omega),show lo + (place - lo) = place by omega]
    exact isLast.isOp
  rw [rposition_none absent (by omega) isOp] at isWriter
  cases isWriter

theorem lastWrite_short (isLast : LastWrite ops lo hi v place op) :
    LastWrite ops lo (lo + (slice ops lo hi).length) v place op := by
  have before := isLast.before
  have after := isLast.after
  have present : place < ops.length := (List.getElem?_eq_some_iff.mp isLast.isOp).1
  have inside : place < lo + (slice ops lo hi).length := by
    unfold slice
    rw [List.length_take,List.length_drop]
    omega
  have shorter := slice_length ops lo hi
  exact ⟨after,inside,isLast.isOp,isLast.writes,fun other op' later bounded => isLast.last other op' later (by omega)⟩

theorem lastWrite_long (isLast : LastWrite ops lo (lo + (slice ops lo hi).length) v place op) :
    LastWrite ops lo hi v place op := by
  have shorter := slice_length ops lo hi
  have before := isLast.before
  have after := isLast.after
  refine ⟨after,by omega,isLast.isOp,isLast.writes,?_⟩
  intro other op' later bounded isOther
  have present : other < ops.length := (List.getElem?_eq_some_iff.mp isOther).1
  have inside : other < lo + (slice ops lo hi).length := by
    unfold slice
    rw [List.length_take,List.length_drop]
    omega
  exact isLast.last other op' later inside isOther

theorem lastWriter_some (found : lastWriter (slice ops lo hi) v = some op) : ∃ place, LastWrite ops lo hi v place op := by
  unfold lastWriter at found
  obtain ⟨place,isPlace,isOp⟩ := Option.bind_eq_some_iff.mp found
  by_cases empty : hi ≤ lo
  · have short := slice_length ops lo hi
    have bounded := (rposition_some isPlace).1
    omega
  · obtain ⟨op',isOp',isLast⟩ := producer_some (by have := slice_length ops lo hi; omega) isPlace
    obtain rfl : op' = op := Option.some.inj (isOp'.symm.trans isOp)
    exact ⟨_,lastWrite_long isLast⟩

theorem lastWriter_none (absent : lastWriter (slice ops lo hi) v = none) : ¬ LastWrite ops lo hi v place op := by
  intro isLast
  have after := isLast.after
  have before := isLast.before
  have short := slice_length ops lo hi
  cases found : producer (slice ops lo hi) (slice ops lo hi).length v with
  | none => exact producer_none (by omega) found (lastWrite_short isLast)
  | some place' =>
    obtain ⟨op',isOp',_⟩ := producer_some (by omega) found
    unfold lastWriter at absent
    rw [found,Option.bind_some,isOp'] at absent
    cases absent

theorem scanBack_split (found : scanBack v back = .found op) : ∃ later earlier, back = later ++ op :: earlier ∧
    writesAt v op = true ∧ ∀ other ∈ later, isCall other = false ∧ writesAt v other = false := by
  induction back with
  | nil => cases found
  | cons first rest ih =>
    unfold scanBack at found
    split at found
    · cases found
    · cases found
    · rename_i notCall notCallInd
      split at found
      · rename_i isWriter
        obtain rfl := Scanned.found.inj found
        exact ⟨[],rest,rfl,isWriter,by simp⟩
      · rename_i notWriter
        obtain ⟨later,earlier,split,isWriter,passed⟩ := ih found
        refine ⟨first :: later,earlier,by rw [split,List.cons_append],isWriter,?_⟩
        intro other member
        rcases List.mem_cons.mp member with isFirst | member
        · subst isFirst
          refine ⟨?_,by simpa using notWriter⟩
          cases other with
          | call dest => exact absurd rfl (notCall dest)
          | callInd dest => exact absurd rfl (notCallInd dest)
          | _ => rfl
        · exact passed other member

theorem scanBack_found (found : scanBack v (ops.take hi).reverse = .found op) :
    ∃ place, Picks ops (.upTo hi) v place op := by
  obtain ⟨later,earlier,split,isWriter,passed⟩ := scanBack_split found
  have taken : ops.take hi = earlier.reverse ++ op :: later.reverse := by
    rw [← List.reverse_reverse (ops.take hi),split]
    simp
  have isAt : (ops.take hi)[earlier.length]? = some op := by
    rw [taken,List.getElem?_append_right (by simp)]
    simp
  have inside : earlier.length < hi := by
    have bounded := (List.getElem?_eq_some_iff.mp isAt).1
    exact Nat.lt_of_lt_of_le bounded (List.length_take_le _ _)
  have after (other : Nat) (op' : PcodeOp) (isLater : earlier.length < other) (bounded : other < hi)
      (isOther : ops[other]? = some op') : isCall op' = false ∧ writesAt v op' = false := by
    rw [← List.getElem?_take_of_lt bounded,taken,List.getElem?_append_right (by simp; omega),List.length_reverse,
      show other - earlier.length = (other - earlier.length - 1) + 1 by omega,List.getElem?_cons_succ] at isOther
    exact passed op' (List.mem_reverse.mp (List.mem_of_getElem? isOther))
  rw [List.getElem?_take_of_lt inside] at isAt
  exact ⟨earlier.length,⟨Nat.zero_le _,inside,isAt,isWriter,
    fun other op' isLater bounded isOther => (after other op' isLater bounded isOther).2⟩,
    fun other op' isLater bounded isOther => (after other op' isLater bounded isOther).1⟩

end Positions

section Chains

variable {env : Env} {program : Program} {tracing : Tracing} {dest : Varnode}

theorem link_carries (faithful : Faithful env program tracing dest place) (run : Run env program h₀ s₀ place)
    (link : Link program tracing dest h₀ s₀ scope h s v adjustment) :
    (∃ i, Run env program h s i) ∧ (∀ item ∈ h, item ∈ h₀) ∧
      UInt64.ofNat (s₀.read env dest) = UInt64.ofNat (s.read env v) + adjustment := by
  induction link with
  | start => exact ⟨⟨place,run⟩,fun _ member => member,by simp⟩
  | widen before absent wider ih => exact ih
  | @onto scope h s v adjustment producer op next added h' before after link picks follows touch ih =>
    obtain ⟨⟨i,earlier⟩,members,carried⟩ := ih
    have produces := faithful h₀ s₀ run scope h s v adjustment producer op link picks (by rw [follows]; trivial)
    have keeps := produces.keeps h' before after touch
    rw [follows] at keeps
    refine ⟨⟨producer,touch_run earlier touch⟩,fun item member => members item (touch_earlier touch item member),?_⟩
    rw [carried,touch_read earlier touch,keeps,UInt64.add_assoc,UInt64.add_comm added]

-- A trace that ends at a producer with an address.
def Ends (program : Program) (tracing : Tracing) (dest : Varnode) (h₀ : History) (s₀ : Pcode.Machine) (a : UInt64) : Prop :=
  ∃ scope h s v adjustment producer op, Link program tracing dest h₀ s₀ scope h s v adjustment ∧
    Picks program.ops scope v producer op ∧
    ((∃ ptr, tracing.follows op = .slot ptr ∧ ptr.space = .const ∧ a = ptr.offset + adjustment) ∨
      ∃ value, tracing.follows op = .constant value ∧ a = value + adjustment)

theorem read_constant {ptr : Varnode} (isConst : ptr.space = .const) (fits : ptr.offset.toNat < 256 ^ ptr.size.toNat)
    (env : Env) (s : Pcode.Machine) : UInt64.ofNat (s.read env ptr) = ptr.offset := by
  unfold Pcode.Machine.read readMem
  rw [if_pos isConst,Nat.mod_eq_of_lt fits,UInt64.ofNat_toNat]

theorem load_leaves (env : Env) (space : AddressSpaceId) {out : Varnode} (running : before.left = false) (located : out.space ≠ .const)
    (isConst : ptr.space = .const) (fits : ptr.offset.toNat < 256 ^ ptr.size.toNat) :
    (stay env before (.load out space ptr)).read env out = before.read env ⟨space,ptr.offset,out.size⟩ := by
  rw [read_stay]
  unfold step
  rw [running]
  change readMem env (ByteStore.store before.mem (out.cells env) (compute env before (.load out space ptr))) out = _
  have value : compute env before (.load out space ptr) = before.read env ⟨space,ptr.offset,out.size⟩ := by
    change before.read env (pointee env before space ptr out.size) = _
    unfold pointee
    rw [read_constant isConst fits]
  rw [readMem_store_same located,value,Nat.mod_eq_of_lt]
  exact Pcode.Machine.read_lt env before ⟨space,ptr.offset,out.size⟩

-- Where a faithful trace ends the destination is the address, or the pointer in the slot there.
theorem ends_goes (loads : ∀ op ptr, tracing.follows op = .slot ptr → ∃ out space, op = .load out space ptr)
    (faithful : Faithful env program tracing dest place) (run : Run env program h₀ s₀ place)
    (ends : Ends program tracing dest h₀ s₀ a) : UInt64.ofNat (s₀.read env dest) = a ∨
      FromSlot env program dest.size h₀ s₀ a (UInt64.ofNat (s₀.read env dest)) := by
  obtain ⟨scope,h,s,v,adjustment,producer,op,link,picks,ending⟩ := ends
  obtain ⟨⟨i,earlier⟩,members,carried⟩ := link_carries faithful run link
  rcases ending with ⟨ptr,follows,isConst,isSlot⟩ | ⟨value,follows,isValue⟩
  · right
    have produces := faithful h₀ s₀ run scope h s v adjustment producer op link picks (by rw [follows]; exact isConst)
    obtain ⟨h',before,after,touch⟩ := produces.touched
    have keeps := produces.keeps h' before after touch
    rw [follows] at keeps
    obtain ⟨nothing,fits⟩ := keeps
    obtain ⟨out,space,isLoad⟩ := loads op ptr follows
    have isOp : program.ops[producer]? = some op := by
      cases scope with
      | within lo hi => exact picks.isOp
      | upTo callIdx => exact picks.1.isOp
    have output := produces.output
    rw [isLoad] at output isOp
    obtain rfl : out = v := Option.some.inj output
    have left := load_leaves env space (run_running (touch_run earlier touch)) produces.located isConst fits
    refine .inr ⟨producer,before,out,space,ptr,members _ (touch_member touch),isOp,?_⟩
    rw [carried,nothing,UInt64.add_zero,touch_read earlier touch,touch_after earlier touch isOp rfl,left,isSlot,nothing,
      UInt64.add_zero]
  · left
    have produces := faithful h₀ s₀ run scope h s v adjustment producer op link picks (by rw [follows]; trivial)
    obtain ⟨h',before,after,touch⟩ := produces.touched
    have keeps := produces.keeps h' before after touch
    rw [follows] at keeps
    rw [carried,touch_read earlier touch,keeps,isValue]

theorem link_onto {source : Nat} (faithful : Faithful env program tracing dest place) (run : Run env program h₀ s₀ place)
    (link : Link program tracing dest h₀ s₀ scope h s v adjustment) (picks : Picks program.ops scope v source op)
    (follows : tracing.follows op = .onto next added) :
    ∃ h' s', Link program tracing dest h₀ s₀ (tracing.narrow scope source) h' s' next (adjustment + added) := by
  have produces := faithful h₀ s₀ run scope h s v adjustment source op link picks (by rw [follows]; trivial)
  obtain ⟨h',before,after,touch⟩ := produces.touched
  exact ⟨h',before,.onto link picks follows touch⟩

end Chains

section Traces

variable {env : Env} {program : Program} {dest : Varnode}

theorem allOpsTrace_ends (faithful : Faithful env program (callTracing program.ops dest lo place) dest place)
    (run : Run env program h₀ s₀ place)
    (link : Link program (callTracing program.ops dest lo place) dest h₀ s₀ (.upTo callIdx) h s v adjustment)
    (result : allOpsTrace dest (program.ops.take callIdx) fuel v adjustment = .direct a) :
    Ends program (callTracing program.ops dest lo place) dest h₀ s₀ a := by
  induction fuel generalizing h s v adjustment with
  | zero => cases result
  | succ fuel ih =>
    unfold allOpsTrace at result
    split at result
    · cases result
    · cases result
    · rename_i op found
      obtain ⟨producer,picks⟩ := scanBack_found found
      split at result
      · rename_i ptr follows
        split at result
        · rename_i isConst
          exact ⟨_,h,s,v,adjustment,producer,op,link,picks,.inl ⟨ptr,follows,isConst,(CallTarget.direct.inj result).symm⟩⟩
        · cases result
      · rename_i next added follows
        obtain ⟨h',s',further⟩ := link_onto faithful run link picks follows
        exact ih further result
      · rename_i value follows
        exact ⟨_,h,s,v,adjustment,producer,op,link,picks,.inr ⟨value,follows,(CallTarget.direct.inj result).symm⟩⟩
      · cases result

theorem blockTrace_ends {gpRelative : Varnode → Option UInt64} (plain : ∀ ptr, gpRelative ptr = none)
    (faithful : Faithful env program (callTracing program.ops dest lo place) dest place)
    (run : Run env program h₀ s₀ place)
    (link : Link program (callTracing program.ops dest lo place) dest h₀ s₀ (.within lo (place + 1)) h s v adjustment)
    (result : blockTrace dest gpRelative (slice program.ops lo (place + 1)) program.ops fuel v adjustment = .direct a) :
    Ends program (callTracing program.ops dest lo place) dest h₀ s₀ a := by
  induction fuel generalizing h s v adjustment with
  | zero => cases result
  | succ fuel ih =>
    unfold blockTrace at result
    split at result
    · rename_i absent
      unfold resolveCallindViaAllOps at result
      split at result
      · cases result
      · rename_i callIdx isLast
        have wider : (callTracing program.ops dest lo place).widen (.within lo (place + 1)) = some (.upTo callIdx) := by
          change (lastCallInd dest program.ops).map Scope.upTo = _
          rw [isLast]
          rfl
        exact allOpsTrace_ends faithful run (.widen link (fun _ _ => lastWriter_none absent) wider) result
    · rename_i op found
      obtain ⟨producer,picks⟩ := lastWriter_some found
      split at result
      · rename_i ptr follows
        split at result
        · rename_i isConst
          exact ⟨_,h,s,v,adjustment,producer,op,link,picks,.inl ⟨ptr,follows,isConst,(CallTarget.direct.inj result).symm⟩⟩
        · rw [plain ptr] at result
          split at result <;> cases result
      · rename_i next added follows
        obtain ⟨h',s',further⟩ := link_onto faithful run link picks follows
        exact ih further result
      · rename_i value follows
        exact ⟨_,h,s,v,adjustment,producer,op,link,picks,.inr ⟨value,follows,(CallTarget.direct.inj result).symm⟩⟩
      · cases result

theorem tailTrace_ends (faithful : Faithful env program (tailTracing lo place) dest place) (run : Run env program h₀ s₀ place)
    (bounded : lo + end_ ≤ place)
    (link : Link program (tailTracing lo place) dest h₀ s₀ (.within lo (lo + end_)) h s v adjustment)
    (nothing : adjustment = 0)
    (result : tailTrace (slice program.ops lo place) dest fuel v end_ = some (.direct a)) :
    Ends program (tailTracing lo place) dest h₀ s₀ a := by
  induction fuel generalizing end_ h s v adjustment with
  | zero => cases result
  | succ fuel ih =>
    unfold tailTrace at result
    split at result
    · cases result
    · rename_i producer found
      obtain ⟨op,isOp,picks⟩ := producer_some bounded found
      have before := picks.before
      have ends (follow : Follow) (isFollow : tailFollow op = follow)
          (ending : (∃ ptr, follow = .slot ptr ∧ ptr.space = .const ∧ a = ptr.offset) ∨ follow = .constant a) :
          Ends program (tailTracing lo place) dest h₀ s₀ a := by
        refine ⟨_,h,s,v,adjustment,lo + producer,op,link,picks,?_⟩
        rw [nothing]
        rcases ending with ⟨ptr,isSlot,isConst,isOffset⟩ | isConstant
        · exact .inl ⟨ptr,isFollow.trans isSlot,isConst,by rw [UInt64.add_zero]; exact isOffset⟩
        · exact .inr ⟨a,isFollow.trans isConstant,by rw [UInt64.add_zero]⟩
      have further (next : Varnode) (isFollow : tailFollow op = .onto next 0)
          (rest : tailTrace (slice program.ops lo place) dest fuel next producer = some (.direct a)) :
          Ends program (tailTracing lo place) dest h₀ s₀ a := by
        obtain ⟨h',s',link'⟩ := link_onto faithful run link picks isFollow
        have still : adjustment + 0 = 0 := by rw [nothing,UInt64.add_zero]
        exact ih (by omega) link' still rest
      have passed (input : Varnode)
          (isFollow : tailFollow op = if input.space = .const then .constant input.offset else .onto input 0)
          (rest : (if input.space = .const then some (.direct input.offset)
            else tailTrace (slice program.ops lo place) dest fuel input producer) = some (.direct a)) :
          Ends program (tailTracing lo place) dest h₀ s₀ a := by
        split at rest
        · rename_i isConst
          obtain rfl := CallTarget.direct.inj (Option.some.inj rest)
          exact ends (.constant input.offset) (by rw [isFollow,if_pos isConst]) (.inr rfl)
        · rename_i located
          exact further input (by rw [isFollow,if_neg located]) rest
      rw [isOp] at result
      cases op with
      | copy out input => exact passed input rfl result
      | load out space ptr =>
        simp only at result
        split at result
        · rename_i isConst
          obtain rfl := CallTarget.direct.inj (Option.some.inj result)
          exact ends (.slot ptr) rfl (.inl ⟨ptr,rfl,isConst,rfl⟩)
        · split at result <;> cases result
      | unary kind out input =>
        cases kind with
        | intZext => exact passed input rfl result
        | intSext => exact passed input rfl result
        | _ => cases result
      | _ => cases result

theorem follow_loads (op : PcodeOp) (ptr : Varnode) (follows : follow op = .slot ptr) :
    ∃ out space, op = .load out space ptr := by
  unfold follow at follows
  split at follows
  · rename_i out space ptr'
    obtain rfl := Follow.slot.inj follows
    exact ⟨out,space,rfl⟩
  · cases follows
  · split at follows
    · cases follows
    · split at follows <;> cases follows
  · cases follows
  · cases follows
  · split at follows <;> cases follows
  · cases follows

theorem tailFollow_loads (op : PcodeOp) (ptr : Varnode) (follows : tailFollow op = .slot ptr) :
    ∃ out space, op = .load out space ptr := by
  unfold tailFollow at follows
  split at follows
  · split at follows <;> cases follows
  · split at follows <;> cases follows
  · split at follows <;> cases follows
  · rename_i out space ptr'
    obtain rfl := Follow.slot.inj follows
    exact ⟨out,space,rfl⟩
  · cases follows

end Traces

section Results

variable {env : Env} {program : Program} {dest : Varnode}

theorem resolveCallindTarget_goes {gpRelative : Varnode → Option UInt64} (plain : ∀ ptr, gpRelative ptr = none)
    (result : resolveCallindTarget dest gpRelative (slice program.ops lo (place + 1)) program.ops = .direct a)
    (faithful : Faithful env program (callTracing program.ops dest lo place) dest place) :
    GoesTo env program dest place a := by
  intro h s run
  exact ends_goes follow_loads faithful run (blockTrace_ends plain faithful run .start result)

theorem slice_whole (inBlock : lo ≤ place) (isOp : ops[place]? = some op) : (slice ops lo place).length = place - lo := by
  have present := (List.getElem?_eq_some_iff.mp isOp).1
  unfold slice
  rw [List.length_take,List.length_drop]
  omega

theorem indirectJumpTailTarget_goes {pointer : Option PcodeOp} (inBlock : lo ≤ place)
    (isJump : program.ops[place]? = some (.branchInd dest))
    (result : indirectJumpTailTarget (slice program.ops lo place) dest = some (.direct a, pointer))
    (faithful : Faithful env program (tailTracing lo place) dest place) : GoesTo env program dest place a := by
  intro h s run
  unfold indirectJumpTailTarget at result
  split at result
  · rename_i inMemory
    simp only at result
    split at result
    · obtain rfl := CallTarget.direct.inj (Prod.mk.inj (Option.some.inj result)).1
      obtain ⟨space,offset,size⟩ := dest
      simp only at inMemory
      rw [inMemory]
      exact .inr (.inl rfl)
    · split at result <;> cases result
  · obtain ⟨target,traced,same⟩ := Option.map_eq_some_iff.mp result
    rw [(Prod.mk.inj same).1,slice_whole inBlock isJump] at traced
    have reaches : lo + (place - lo) = place := by omega
    have begins : Link program (tailTracing lo place) dest h s (.within lo (lo + (place - lo))) h s dest 0 := by
      rw [reaches]
      exact .start
    exact ends_goes tailFollow_loads faithful run (tailTrace_ends faithful run (by omega) begins rfl traced)

-- The blocks of a function that end in an indirect call or jump, where no pointer is relative to GP. Where the trace is
-- faithful on every run to the op, what it answers as an address is where the machine goes.
theorem indirect_targets_go (env : Env) (program : Program) (lo place : Nat) (inBlock : lo ≤ place) (dest : Varnode)
    (a : UInt64) :
    (program.ops[place]? = some (.callInd dest) →
      ∀ gpRelative : Varnode → Option UInt64, (∀ ptr, gpRelative ptr = none) →
        resolveCallindTarget dest gpRelative (slice program.ops lo (place + 1)) program.ops = .direct a →
          Faithful env program (callTracing program.ops dest lo place) dest place → GoesTo env program dest place a) ∧
      (program.ops[place]? = some (.branchInd dest) →
        ∀ pointer, indirectJumpTailTarget (slice program.ops lo place) dest = some (.direct a, pointer) →
          Faithful env program (tailTracing lo place) dest place → GoesTo env program dest place a) := by
  constructor
  · intro _ gpRelative plain result faithful
    exact resolveCallindTarget_goes plain result faithful
  · intro isJump pointer result faithful
    exact indirectJumpTailTarget_goes inBlock isJump result faithful

end Results

section Examples

-- A function whose ops are executed one after the other.
def straight (ops : List PcodeOp) : Program := ⟨ops,fun i j => j = i + 1,0⟩

def pointerReg : Varnode := .register 0 8

def pointerCopy : Varnode := .unique 256 8

-- The register is set to an address before the transfer through it.
def pointed (transfer : PcodeOp) : Program := straight [.copy pointerReg (.constant 0x1000 8),transfer]

section Pointed

variable {env : Env} {transfer : PcodeOp} {tracing : Tracing}

theorem pointed_picks (noOutput : getOutput transfer = none) (isLast : LastWrite (pointed transfer).ops lo hi v place op) :
    place = 0 ∧ op = .copy pointerReg (.constant 0x1000 8) := by
  have isOp := isLast.isOp
  have isWriter := isLast.writes
  match place with
  | 0 => exact ⟨rfl,(Option.some.inj isOp).symm⟩
  | 1 =>
    obtain rfl : transfer = op := Option.some.inj isOp
    unfold writesAt at isWriter
    rw [noOutput] at isWriter
    cases isWriter
  | place + 2 => cases isOp

theorem pointed_link (noOutput : getOutput transfer = none) (first : tracing.first = .within 0 (hi + 1))
    (isConstant : tracing.follows (.copy pointerReg (.constant 0x1000 8)) = .constant 0x1000) (short : hi ≤ 1)
    (link : Link (pointed transfer) tracing pointerReg h₀ s₀ scope h s v adjustment) :
    scope = .within 0 (hi + 1) ∧ h = h₀ ∧ s = s₀ ∧ v = pointerReg := by
  induction link with
  | start => exact ⟨first,rfl,rfl,rfl⟩
  | widen before absent wider ih =>
    obtain ⟨rfl,rfl,rfl,rfl⟩ := ih
    refine absurd ⟨Nat.zero_le 0,by omega,rfl,rfl,?_⟩ (absent 0 (.copy pointerReg (.constant 0x1000 8)))
    intro other op' later bounded isOp
    obtain rfl : other = 1 := by omega
    obtain rfl : transfer = op' := Option.some.inj isOp
    unfold writesAt
    rw [noOutput]
    rfl
  | onto before picks follows touch ih =>
    obtain ⟨rfl,rfl,rfl,rfl⟩ := ih
    obtain ⟨_,rfl⟩ := pointed_picks noOutput picks
    rw [isConstant] at follows
    cases follows

theorem pointed_faithful (hi : Nat) (noOutput : getOutput transfer = none) (first : tracing.first = .within 0 (hi + 1))
    (isConstant : tracing.follows (.copy pointerReg (.constant 0x1000 8)) = .constant 0x1000) (short : hi ≤ 1) :
    Faithful env (pointed transfer) tracing pointerReg 1 := by
  intro h₀ s₀ run scope h s v adjustment producer op link picks traced
  obtain ⟨rfl,rfl,rfl,rfl⟩ := pointed_link noOutput first isConstant short link
  obtain ⟨rfl,rfl⟩ := pointed_picks noOutput picks
  have touching : touches (.copy pointerReg (.constant 0x1000 8)) pointerReg = true := by decide
  refine ⟨rfl,by decide,?_,?_⟩
  · cases run with
    | @step earlier before i op _ before_ isOp stays goes =>
      obtain rfl : i = 0 := (Nat.succ.inj goes).symm
      exact ⟨earlier,before,_,.here rfl touching⟩
    | @call earlier before i op _ _ before_ isOp isCall_ goes running =>
      obtain rfl : i = 0 := (Nat.succ.inj goes).symm
      exact ⟨earlier,before,_,.here rfl touching⟩
  · intro h' before after touch
    rw [isConstant,touch_after run touch rfl rfl]
    change UInt64.ofNat ((stay env before (.copy pointerReg (.constant 0x1000 8))).read env pointerReg) = 0x1000
    have running := run_running (touch_run run touch)
    rw [read_stay]
    unfold step
    rw [running]
    change UInt64.ofNat (readMem env (ByteStore.store before.mem (pointerReg.cells env) 0x1000) pointerReg) = 0x1000
    rw [readMem_store_same (by decide)]
    rfl

end Pointed

theorem indirect_targets_go_pointed : GoesTo plainEnv (pointed (.callInd pointerReg)) pointerReg 1 0x1000 ∧
    GoesTo plainEnv (pointed (.branchInd pointerReg)) pointerReg 1 0x1000 :=
  ⟨(indirect_targets_go plainEnv (pointed (.callInd pointerReg)) 0 1 (by decide) pointerReg 0x1000).1 rfl
      (fun _ => none) (fun _ => rfl) (by decide) (pointed_faithful 1 rfl rfl rfl (by decide)),
    (indirect_targets_go plainEnv (pointed (.branchInd pointerReg)) 0 1 (by decide) pointerReg 0x1000).2 rfl
      none (by decide) (pointed_faithful 0 rfl rfl rfl (by decide))⟩

-- The register is set to one address, copied, and set to another one before the call through the copy.
def redirected : Program :=
  straight [.copy pointerReg (.constant 0x1000 8),.copy pointerCopy pointerReg,.copy pointerReg (.constant 0x2000 8),
    .callInd pointerCopy]

-- The low byte of the register is set after the register, which is jumped through.
def overwritten : Program :=
  straight [.copy pointerReg (.constant 0x1000 8),.copy (.register 0 1) (.constant 5 1),.branchInd pointerReg]

theorem straight_run (env : Env) (before rest : List PcodeOp) (s : Pcode.Machine) (running : s.left = false)
    (noCall : ∀ op ∈ before, isCall op = false) :
    ∃ h, Run env (straight (before ++ rest)) h (before.foldl (stay env) s) before.length := by
  induction before using List.reverseRecOn generalizing rest with
  | nil => exact ⟨[],.start running⟩
  | append_singleton before op ih =>
    obtain ⟨h,run⟩ := ih (op :: rest) fun other member => noCall other (List.mem_append_left _ member)
    rw [List.append_assoc,List.foldl_append,List.length_append]
    refine ⟨_,.step run ?_ (noCall op (by simp)) rfl⟩
    change (before ++ op :: rest)[before.length]? = some op
    rw [List.getElem?_append_right (Nat.le_refl _),Nat.sub_self]
    rfl

theorem indirect_targets_miss :
    resolveCallindTarget pointerCopy (fun _ => none) (slice redirected.ops 0 4) redirected.ops = .direct 0x2000 ∧
      ¬ GoesTo plainEnv redirected pointerCopy 3 0x2000 ∧
      indirectJumpTailTarget (slice overwritten.ops 0 2) pointerReg = some (.direct 5, none) ∧
      ¬ GoesTo plainEnv overwritten pointerReg 2 5 := by
  refine ⟨by decide,?_,by decide,?_⟩
  · intro goes
    obtain ⟨h,run⟩ := straight_run plainEnv (redirected.ops.take 3) (redirected.ops.drop 3) emptyMachine rfl (by decide)
    rcases goes h _ run with same | now | ⟨place,before,out,space,ptr,_,isLoad,_⟩
    · exact absurd same (by decide)
    · exact absurd now (by decide)
    · have member := List.mem_of_getElem? isLoad
      simp [redirected,straight] at member
  · intro goes
    obtain ⟨h,run⟩ := straight_run plainEnv (overwritten.ops.take 2) (overwritten.ops.drop 2) emptyMachine rfl (by decide)
    rcases goes h _ run with same | now | ⟨place,before,out,space,ptr,_,isLoad,_⟩
    · exact absurd same (by decide)
    · exact absurd now (by decide)
    · have member := List.mem_of_getElem? isLoad
      simp [overwritten,straight] at member

end Examples

end Rsleigh.Decompile.IndirectTargets
