import Mathlib

namespace Rsleigh.Decompile.Budget

-- rsleigh-decompile/src/budget.rs.
structure Limits where
  decodeInstructions : Option UInt64
  ssaWork : Option UInt64
  deadlineMs : Option UInt64
  deriving DecidableEq

structure Stop where
  stage : String
  reason : String
  consumed : UInt64
  limit : UInt64
  deriving DecidableEq

structure Metrics where
  limits : Limits
  decodeInstructions : UInt64
  ssaWork : UInt64
  stop : Option Stop
  deriving DecidableEq

-- Instants are numbers of nanoseconds.
structure State where
  started : Nat
  metrics : Metrics
  deriving DecidableEq

-- The readings of the clock in one charge: for the deadline, and for the report.
structure Clock where
  checked : Nat
  reported : Nat

def saturatingSub (left right : UInt64) : UInt64 :=
  if left < right then 0 else left - right

def saturatingAdd (left right : UInt64) : UInt64 :=
  if left.toNat + right.toNat < 2 ^ 64 then left + right else UInt64.ofNat (2 ^ 64 - 1)

def State.elapsed (state : State) (now : Nat) : Nat :=
  now - state.started

-- The deadline, where it has passed.
def State.expired (state : State) (clock : Clock) : Option UInt64 :=
  state.metrics.limits.deadlineMs.filter fun ms => ms.toNat * 1000000 ≤ state.elapsed clock.checked

-- A limit that an amount would exceed.
def exceeded (amount consumed : UInt64) (limit : Option UInt64) : Option UInt64 :=
  limit.filter fun limit => saturatingSub limit consumed < amount

def Metrics.consumed (metrics : Metrics) (decode : Bool) : UInt64 :=
  if decode then metrics.decodeInstructions else metrics.ssaWork

def Metrics.limit (metrics : Metrics) (decode : Bool) : Option UInt64 :=
  if decode then metrics.limits.decodeInstructions else metrics.limits.ssaWork

def Metrics.consume (metrics : Metrics) (decode : Bool) (amount : UInt64) : Metrics :=
  if decode then { metrics with decodeInstructions := saturatingAdd metrics.decodeInstructions amount }
  else { metrics with ssaWork := saturatingAdd metrics.ssaWork amount }

-- What stops a charge of a scope that has not been stopped.
def State.refusal (state : State) (clock : Clock) (stage : String) (decode : Bool) (amount : UInt64) : Option Stop :=
  match state.expired clock with
  | some limit =>
    some ⟨stage, "deadline", UInt64.ofNat (min (state.elapsed clock.reported / 1000000) (2 ^ 64 - 1)), limit⟩
  | none =>
    let consumed := state.metrics.consumed decode
    (exceeded amount consumed (state.metrics.limit decode)).map fun limit =>
      ⟨stage, if decode then "decode_limit" else "ssa_work_limit", consumed, limit⟩

def charge (clock : Clock) (stage : String) (decode : Bool) (amount : UInt64) : Option State → Option State × Option Stop
  | none => (none, none)
  | some state =>
    match state.metrics.stop with
    | some stop => (some state, some stop)
    | none =>
      match state.refusal clock stage decode amount with
      | some stop => (some { state with metrics := { state.metrics with stop := some stop } }, some stop)
      | none => (some { state with metrics := state.metrics.consume decode amount }, none)

-- The values that restore something when they are dropped: a `Scope`, and the `Restore` of a traversal.
inductive Guard where
  | scope (saved : Option State)
  | restore (saved : Bool)

-- A thread, with its live guards, the innermost one first.
structure Thread where
  state : Option State
  traversal : Bool
  guards : List Guard

def idle : Thread := ⟨none, false, []⟩

-- What a thread does: a charge, or a guard comes or goes. Guards go in the same order where a body returns and where
-- it is unwound.
inductive Act where
  | decodeStep (clock : Clock)
  | poll (clock : Clock) (stage : String)
  | work (clock : Clock) (stage : String) (units : UInt64)
  | newScope (limits : Limits) (now : Nat)
  | traverse
  | drop

def Act.isCharge : Act → Bool
  | decodeStep _ | poll _ _ | work _ _ _ => true
  | newScope _ _ | traverse | drop => false

def Thread.charge (thread : Thread) (clock : Clock) (stage : String) (decode : Bool) (amount : UInt64) :
    Thread × Option Stop :=
  let (state, refused) := Budget.charge clock stage decode amount thread.state
  ({ thread with state }, refused)

def Thread.opened (thread : Thread) (limits : Limits) (now : Nat) : Thread :=
  { thread with state := some ⟨now, ⟨limits, 0, 0, none⟩⟩, guards := .scope thread.state :: thread.guards }

def Thread.traversing (thread : Thread) : Thread :=
  { thread with traversal := true, guards := .restore thread.traversal :: thread.guards }

def Thread.dropGuard (thread : Thread) : Option Thread :=
  match thread.guards with
  | .scope saved :: guards => some { thread with state := saved, guards }
  | .restore saved :: guards => some { thread with traversal := saved, guards }
  | [] => none

-- The thread after it, and what has refused a charge. There is nothing to drop where no guard is left.
def Thread.step (thread : Thread) : Act → Option (Thread × Option Stop)
  | .decodeStep clock => some (thread.charge clock "decode" true 1)
  | .poll clock stage => some (thread.charge clock stage false 0)
  | .work clock stage units => some (thread.charge clock stage false (if thread.traversal then 0 else units))
  | .newScope limits now => some (thread.opened limits now, none)
  | .traverse => some (thread.traversing, none)
  | .drop => thread.dropGuard.map fun thread => (thread, none)

-- A run through which some guards stay.
inductive Within (kept : List Guard) : Thread → List Act → Thread → Prop where
  | nil : kept <:+ thread.guards → Within kept thread [] thread
  | cons : kept <:+ thread.guards → thread.step act = some (next, refused) → Within kept next acts last →
      Within kept thread (act :: acts) last

-- The counters are within their limits.
structure Metrics.Bounded (metrics : Metrics) : Prop where
  counted : ∀ decode, ∀ limit ∈ metrics.limit decode, metrics.consumed decode ≤ limit

-- The states of the scopes: the current one, and those that the guards have saved.
def Guard.saved : Guard → Option State
  | scope saved => saved
  | restore _ => none

def Thread.scopes (thread : Thread) : List State :=
  thread.state.toList ++ thread.guards.filterMap Guard.saved

-- The guards from the one of the current scope on.
def Guard.isRestore : Guard → Bool
  | restore _ => true
  | scope _ => false

def Thread.scopeGuards (thread : Thread) : List Guard := thread.guards.dropWhile Guard.isRestore

theorem consume_bounded {metrics : Metrics} {decode : Bool} {amount : UInt64} (bounded : metrics.Bounded)
    (fits : exceeded amount (metrics.consumed decode) (metrics.limit decode) = none) :
    (metrics.consume decode amount).Bounded := by
  refine ⟨fun other limit isLimit => ?_⟩
  have before := bounded.counted other limit (by cases decode <;> cases other <;> exact isLimit)
  by_cases same : other = decode
  · subst same
    have isLimit' : metrics.limit other = some limit := by cases other <;> exact isLimit
    have counter : (metrics.consume other amount).consumed other = saturatingAdd (metrics.consumed other) amount := by
      cases other <;> rfl
    rw [exceeded,isLimit'] at fits
    have room : ¬ saturatingSub limit (metrics.consumed other) < amount := by
      simpa using Option.filter_eq_none_iff.mp fits limit rfl
    rw [counter]
    unfold saturatingSub saturatingAdd at *
    rw [UInt64.le_iff_toNat_le] at before ⊢
    have notBelow : ¬ limit < metrics.consumed other := by rwa [UInt64.lt_iff_toNat_lt,Nat.not_lt]
    rw [if_neg notBelow,UInt64.lt_iff_toNat_lt,UInt64.toNat_sub_of_le _ _ (UInt64.le_iff_toNat_le.mpr before)] at room
    have small := limit.toNat_lt
    rw [if_pos (by omega),UInt64.toNat_add]
    omega
  · have unchanged : (metrics.consume decode amount).consumed other = metrics.consumed other := by
      cases decode <;> cases other <;> first | rfl | exact absurd rfl same
    rwa [unchanged]

theorem bounded_stop {metrics : Metrics} {stop : Option Stop} (bounded : metrics.Bounded) :
    ({ metrics with stop } : Metrics).Bounded :=
  ⟨bounded.counted⟩

theorem charge_stopped {state : State} {stop : Stop} (stopped : state.metrics.stop = some stop) (clock : Clock)
    (stage : String) (decode : Bool) (amount : UInt64) :
    charge clock stage decode amount (some state) = (some state, some stop) := by
  simp only [charge,stopped]

theorem charge_refused {state : State} {stop : Stop} (running : state.metrics.stop = none) {clock : Clock}
    {stage : String} {decode : Bool} {amount : UInt64}
    (refused : (charge clock stage decode amount (some state)).2 = some stop) :
    charge clock stage decode amount (some state) =
      (some { state with metrics := { state.metrics with stop := some stop } }, some stop) := by
  simp only [charge,running] at refused ⊢
  cases refusal : state.refusal clock stage decode amount with
  | none =>
    rw [refusal] at refused
    cases refused
  | some recorded =>
    rw [refusal] at refused
    cases refused
    rfl

theorem refusal_none {state : State} {clock : Clock} {stage : String} {decode : Bool} {amount : UInt64}
    (accepted : state.refusal clock stage decode amount = none) :
    exceeded amount (state.metrics.consumed decode) (state.metrics.limit decode) = none := by
  unfold State.refusal at accepted
  split at accepted
  · cases accepted
  · exact Option.map_eq_none_iff.mp accepted

theorem charge_bounded {current : Option State} (bounded : ∀ state ∈ current, state.metrics.Bounded) (clock : Clock)
    (stage : String) (decode : Bool) (amount : UInt64) :
    ∀ state ∈ (charge clock stage decode amount current).1, state.metrics.Bounded := by
  cases current with
  | none =>
    intro state isState
    cases isState
  | some before =>
    have beforeBounded := bounded before rfl
    intro state isState
    cases stopped : before.metrics.stop with
    | some stop =>
      rw [charge_stopped stopped] at isState
      cases isState
      exact beforeBounded
    | none =>
      cases accepted : before.refusal clock stage decode amount with
      | some stop =>
        simp only [charge,stopped,accepted] at isState
        cases isState
        exact bounded_stop beforeBounded
      | none =>
        simp only [charge,stopped,accepted] at isState
        cases isState
        exact consume_bounded beforeBounded (refusal_none accepted)

-- What a step does.
inductive Stepped (thread : Thread) : Act → Thread → Option Stop → Prop where
  | charged (clock : Clock) (stage : String) (decode : Bool) (amount : UInt64) : act.isCharge = true →
      Stepped thread act (thread.charge clock stage decode amount).1 (thread.charge clock stage decode amount).2
  | opened (limits : Limits) (now : Nat) : Stepped thread (.newScope limits now) (thread.opened limits now) none
  | traversing : Stepped thread .traverse thread.traversing none
  | dropped : thread.dropGuard = some next → Stepped thread .drop next none

theorem stepped_of_step {thread next : Thread} {act : Act} {refused : Option Stop}
    (step : thread.step act = some (next, refused)) : Stepped thread act next refused := by
  cases act with
  | decodeStep clock =>
    cases step
    exact .charged clock "decode" true 1 rfl
  | poll clock stage =>
    cases step
    exact .charged clock stage false 0 rfl
  | work clock stage units =>
    cases step
    exact .charged clock stage false _ rfl
  | newScope limits now =>
    cases step
    exact .opened limits now
  | traverse =>
    cases step
    exact .traversing
  | drop =>
    obtain ⟨dropped,isDropped,same⟩ := Option.map_eq_some_iff.mp step
    cases same
    exact .dropped isDropped

theorem dropGuard_some {thread next : Thread} (dropped : thread.dropGuard = some next) :
    (∃ saved guards, thread.guards = .scope saved :: guards ∧ next = { thread with state := saved, guards }) ∨
      ∃ saved guards, thread.guards = .restore saved :: guards ∧ next = { thread with traversal := saved, guards } := by
  unfold Thread.dropGuard at dropped
  split at dropped
  · rename_i saved guards isGuard
    exact Or.inl ⟨saved,guards,isGuard,(Option.some.inj dropped).symm⟩
  · rename_i saved guards isGuard
    exact Or.inr ⟨saved,guards,isGuard,(Option.some.inj dropped).symm⟩
  · cases dropped

-- All scopes stay within their limits.
theorem step_bounded {thread next : Thread} {act : Act} {refused : Option Stop}
    (bounded : ∀ state ∈ thread.scopes, state.metrics.Bounded) (step : thread.step act = some (next, refused)) :
    ∀ state ∈ next.scopes, state.metrics.Bounded := by
  have current : ∀ state ∈ thread.state, state.metrics.Bounded := fun state isState =>
    bounded state (List.mem_append_left _ (Option.mem_toList.mpr isState))
  have saved : ∀ state ∈ thread.guards.filterMap Guard.saved, state.metrics.Bounded := fun state isSaved =>
    bounded state (List.mem_append_right _ isSaved)
  intro state isScope
  rcases List.mem_append.mp isScope with isCurrent | isSaved
  · have isCurrent := Option.mem_toList.mp isCurrent
    cases stepped_of_step step with
    | charged clock stage decode amount => exact charge_bounded current clock stage decode amount state isCurrent
    | opened limits now =>
      cases isCurrent
      exact ⟨fun decode limit _ => by cases decode <;> exact UInt64.zero_le⟩
    | traversing => exact current state isCurrent
    | dropped dropped =>
      rcases dropGuard_some dropped with ⟨restored,guards,isGuard,rfl⟩ | ⟨restored,guards,isGuard,rfl⟩
      · refine saved state ?_
        rw [isGuard]
        exact List.mem_filterMap.mpr ⟨.scope restored,List.mem_cons_self,isCurrent⟩
      · exact current state isCurrent
  · cases stepped_of_step step with
    | charged => exact saved state isSaved
    | opened limits now =>
      obtain ⟨guard,isGuard,isState⟩ := List.mem_filterMap.mp isSaved
      rcases List.mem_cons.mp isGuard with same | old
      · rw [same] at isState
        exact current state isState
      · exact saved state (List.mem_filterMap.mpr ⟨guard,old,isState⟩)
    | traversing => exact saved state isSaved
    | dropped dropped =>
      obtain ⟨guard,isGuard,isState⟩ := List.mem_filterMap.mp isSaved
      have old : guard ∈ thread.guards := by
        rcases dropGuard_some dropped with ⟨_,guards,isGuards,rfl⟩ | ⟨_,guards,isGuards,rfl⟩ <;>
          exact isGuards ▸ List.mem_cons_of_mem _ isGuard
      exact saved state (List.mem_filterMap.mpr ⟨guard,old,isState⟩)

theorem within_bounded {kept : List Guard} {thread last : Thread} {acts : List Act} (run : Within kept thread acts last)
    (bounded : ∀ state ∈ thread.scopes, state.metrics.Bounded) : ∀ state ∈ last.scopes, state.metrics.Bounded := by
  induction run with
  | nil => exact bounded
  | cons _ step _ ih => exact ih (step_bounded bounded step)

-- What a guard leaves where it is dropped.
def Guard.leave (current : Option State × Bool) : Guard → Option State × Bool
  | scope saved => (saved, current.2)
  | restore saved => (current.1, saved)

-- What the guards above some leave when they have been dropped.
structure Leaves (kept : List Guard) (thread : Thread) (left : Option State × Bool) : Prop where
  ends : ∃ above, thread.guards = above ++ kept ∧ above.foldl Guard.leave (thread.state, thread.traversal) = left

theorem foldl_leave (above : List Guard) (traversal : Bool) :
    (∃ left, ∀ state, above.foldl Guard.leave (state, traversal) = left) ∨
      ∃ restored, ∀ state, above.foldl Guard.leave (state, traversal) = (state, restored) := by
  induction above generalizing traversal with
  | nil => exact Or.inr ⟨traversal,fun _ => rfl⟩
  | cons guard rest ih =>
    cases guard with
    | scope saved => exact Or.inl ⟨rest.foldl Guard.leave (saved, traversal),fun _ => rfl⟩
    | restore saved => exact ih saved

-- What is below changes by nothing but a charge.
theorem step_leaves {kept : List Guard} {thread next : Thread} {act : Act} {refused : Option Stop} {state : Option State}
    {traversal : Bool} (leaves : Leaves kept thread (state, traversal)) (step : thread.step act = some (next, refused))
    (stays : kept <:+ next.guards) : Leaves kept next (state, traversal) ∨
      ∃ clock stage decode amount, Leaves kept next ((charge clock stage decode amount state).1, traversal) := by
  obtain ⟨above,isAbove,left⟩ := leaves.ends
  cases stepped_of_step step with
  | charged clock stage decode amount =>
    rcases foldl_leave above thread.traversal with ⟨other,same⟩ | ⟨restored,same⟩
    · refine Or.inl ⟨above,isAbove,?_⟩
      rw [← left]
      exact (same _).trans (same _).symm
    · rw [same] at left
      obtain ⟨isState,isRestored⟩ := Prod.mk.inj left
      refine Or.inr ⟨clock,stage,decode,amount,above,isAbove,(same _).trans ?_⟩
      rw [← isState,← isRestored]
      rfl
  | opened limits now => exact Or.inl ⟨.scope thread.state :: above,congrArg (_ :: ·) isAbove,left⟩
  | traversing => exact Or.inl ⟨.restore thread.traversal :: above,congrArg (_ :: ·) isAbove,left⟩
  | dropped dropped =>
    obtain ⟨rest,isRest⟩ := stays
    rcases dropGuard_some dropped with ⟨saved,guards,isGuards,rfl⟩ | ⟨saved,guards,isGuards,rfl⟩
    · have sameAbove : above = .scope saved :: rest := by
        apply (List.append_left_inj kept).mp
        rw [← isAbove,isGuards,List.cons_append]
        exact congrArg _ isRest.symm
      rw [sameAbove] at left
      exact Or.inl ⟨rest,isRest.symm,left⟩
    · have sameAbove : above = .restore saved :: rest := by
        apply (List.append_left_inj kept).mp
        rw [← isAbove,isGuards,List.cons_append]
        exact congrArg _ isRest.symm
      rw [sameAbove] at left
      exact Or.inl ⟨rest,isRest.symm,left⟩

theorem within_stays {kept : List Guard} {thread last : Thread} {acts : List Act} (run : Within kept thread acts last) :
    kept <:+ thread.guards := by
  cases run with
  | nil stays => exact stays
  | cons stays _ _ => exact stays

theorem within_leaves {P : Option State → Prop}
    (charged : ∀ clock stage decode amount state, P state → P (charge clock stage decode amount state).1)
    {kept : List Guard} {thread last : Thread} {acts : List Act} (run : Within kept thread acts last)
    {state : Option State} {traversal : Bool} (leaves : Leaves kept thread (state, traversal)) (holds : P state) :
    ∃ state', Leaves kept last (state', traversal) ∧ P state' := by
  induction run generalizing state with
  | nil => exact ⟨state,leaves,holds⟩
  | cons _ step rest ih =>
    rcases step_leaves leaves step (within_stays rest) with same | ⟨clock,stage,decode,amount,changed⟩
    · exact ih same holds
    · exact ih changed (charged clock stage decode amount state holds)

theorem leaves_above {kept above : List Guard} {thread : Thread} {left : Option State × Bool}
    (leaves : Leaves kept thread left) (isAbove : thread.guards = above ++ kept) :
    above.foldl Guard.leave (thread.state, thread.traversal) = left := by
  obtain ⟨other,isOther,left⟩ := leaves.ends
  have same : above = other := (List.append_left_inj kept).mp (isAbove.symm.trans isOther)
  rw [same]
  exact left

theorem foldl_restores {above : List Guard} (restores : ∀ guard ∈ above, guard.isRestore = true)
    (current : Option State × Bool) : (above.foldl Guard.leave current).1 = current.1 := by
  induction above generalizing current with
  | nil => rfl
  | cons guard rest ih =>
    rw [List.foldl_cons,ih fun other member => restores other (List.mem_cons_of_mem _ member)]
    cases guard with
    | scope saved => cases restores (.scope saved) List.mem_cons_self
    | restore saved => rfl

theorem scope_leaves (thread : Thread) : ∃ traversal, Leaves thread.scopeGuards thread (thread.state, traversal) := by
  have split : thread.guards = thread.guards.takeWhile Guard.isRestore ++ thread.scopeGuards :=
    List.takeWhile_append_dropWhile.symm
  have restores : ∀ guard ∈ thread.guards.takeWhile Guard.isRestore, guard.isRestore = true :=
    fun _ member => List.mem_takeWhile_imp member
  refine ⟨(List.foldl Guard.leave (thread.state, thread.traversal) (thread.guards.takeWhile Guard.isRestore)).2,⟨_,split,?_⟩⟩
  exact Prod.ext (foldl_restores restores _) rfl

theorem stopped_stays {thread last : Thread} {acts : List Act} {state : State} {stop : Stop}
    (isState : thread.state = some state) (stopped : state.metrics.stop = some stop)
    (run : Within thread.scopeGuards thread acts last) (back : last.scopeGuards = thread.scopeGuards) :
    last.state = some state := by
  have charged : ∀ clock stage decode amount current, current = some state →
      (charge clock stage decode amount current).1 = some state := by
    intro clock stage decode amount current isCurrent
    rw [isCurrent,charge_stopped stopped]
  obtain ⟨traversal,leaves⟩ := scope_leaves thread
  obtain ⟨after,leavesAfter,isAfter⟩ := within_leaves charged run leaves isState
  obtain ⟨traversal',leavesLast⟩ := scope_leaves last
  rw [back] at leavesLast
  obtain ⟨above,isAbove,left⟩ := leavesLast.ends
  have same := left.symm.trans (leaves_above leavesAfter isAbove)
  exact (Prod.mk.inj same).1.trans isAfter

theorem step_stopped {thread : Thread} {state : State} {stop : Stop} (isState : thread.state = some state)
    (stopped : state.metrics.stop = some stop) {act : Act} (isCharge : act.isCharge = true) :
    thread.step act = some (thread, some stop) := by
  have charged : ∀ clock stage decode amount, thread.charge clock stage decode amount = (thread, some stop) := by
    intro clock stage decode amount
    simp only [Thread.charge,isState,charge_stopped stopped]
    rw [← isState]
  cases act with
  | decodeStep clock => exact congrArg some (charged clock "decode" true 1)
  | poll clock stage => exact congrArg some (charged clock stage false 0)
  | work clock stage units => exact congrArg some (charged clock stage false _)
  | newScope | traverse | drop => cases isCharge

theorem step_refused {thread next : Thread} {state : State} {stop : Stop} {act : Act} (isState : thread.state = some state)
    (running : state.metrics.stop = none) (step : thread.step act = some (next, some stop)) :
    next = { thread with state := some { state with metrics := { state.metrics with stop := some stop } } } := by
  generalize isRefused : some stop = refused at step
  cases stepped_of_step step with
  | charged clock stage decode amount =>
    have refusedFirst : (charge clock stage decode amount (some state)).2 = some stop := by
      rw [← isState]
      exact isRefused.symm
    simp only [Thread.charge,isState,charge_refused running refusedFirst]
  | opened | traversing | dropped => cases isRefused

theorem closed_restores {thread inner : Thread} {limits : Limits} {now : Nat} {acts : List Act}
    (run : Within (.scope thread.state :: thread.guards) (thread.opened limits now) acts inner)
    (back : inner.guards = .scope thread.state :: thread.guards) : inner.step .drop = some (thread, none) := by
  have leaves : Leaves (.scope thread.state :: thread.guards) (thread.opened limits now)
      ((thread.opened limits now).state, thread.traversal) := ⟨[],rfl,rfl⟩
  obtain ⟨after,leavesAfter,_⟩ := @within_leaves (fun _ => True) (fun _ _ _ _ _ _ => trivial) _ _ _ _ run _ _ leaves trivial
  have left := @leaves_above _ [] _ _ leavesAfter back
  have sameTraversal : inner.traversal = thread.traversal := (Prod.mk.inj left).2
  simp only [Thread.step,Thread.dropGuard,back,sameTraversal,Option.map_some]

-- In every run the counters keep within their limits, a scope that is stopped is left as it is and refuses every charge,
-- and a scope that is closed restores the one around it.
theorem budgets_kept {acts : List Act} {thread : Thread} (run : Within [] idle acts thread) :
    (∀ state ∈ thread.scopes, state.metrics.Bounded) ∧
      (∀ state act next stop, thread.state = some state → state.metrics.stop = none →
        thread.step act = some (next, some stop) →
        next = { thread with state := some { state with metrics := { state.metrics with stop := some stop } } }) ∧
      (∀ state stop acts' last, thread.state = some state → state.metrics.stop = some stop →
        Within thread.scopeGuards thread acts' last → last.scopeGuards = thread.scopeGuards →
        last.state = some state ∧ ∀ act, act.isCharge = true → last.step act = some (last, some stop)) ∧
      ∀ limits now acts' inner, Within (.scope thread.state :: thread.guards) (thread.opened limits now) acts' inner →
        inner.guards = .scope thread.state :: thread.guards → inner.step .drop = some (thread, none) := by
  refine ⟨within_bounded run fun state member => absurd member List.not_mem_nil,?_,?_,?_⟩
  · intro state act next stop isState running step
    exact step_refused isState running step
  · intro state stop acts' last isState stopped within back
    have isLast := stopped_stays isState stopped within back
    exact ⟨isLast,fun act isCharge => step_stopped isLast stopped isCharge⟩
  · intro limits now acts' inner within back
    exact closed_restores within back

-- A scope of two instructions that asks for a third one, and then for work in a scope of its own.
def twoInstructions : Limits := ⟨some 2, some 3, none⟩

def thirdInstruction : Thread where
  state := some ⟨0, ⟨twoInstructions, 2, 0, some ⟨"decode", "decode_limit", 2, 2⟩⟩⟩
  traversal := false
  guards := [.scope none]

theorem thirdInstruction_run : Within [] idle
    [.newScope twoInstructions 0,.decodeStep ⟨1, 1⟩,.decodeStep ⟨2, 2⟩,.decodeStep ⟨3, 3⟩] thirdInstruction :=
  .cons List.nil_suffix rfl (.cons List.nil_suffix rfl (.cons List.nil_suffix rfl (.cons List.nil_suffix rfl
    (.nil List.nil_suffix))))

theorem thirdInstruction_nested : Within thirdInstruction.scopeGuards thirdInstruction
    [.newScope ⟨none, some 3, none⟩ 4,.work ⟨5, 5⟩ "ssa" 2,.work ⟨6, 6⟩ "fold" 2,.drop] thirdInstruction :=
  .cons List.suffix_rfl rfl (.cons (List.suffix_cons _ _) rfl (.cons (List.suffix_cons _ _) rfl
    (.cons (List.suffix_cons _ _) rfl (.nil List.suffix_rfl))))

theorem budgets_kept_nested : thirdInstruction.step (.poll ⟨7, 7⟩ "cache") =
    some (thirdInstruction, some ⟨"decode", "decode_limit", 2, 2⟩) :=
  ((budgets_kept thirdInstruction_run).2.2.1 _ _ _ _ rfl rfl thirdInstruction_nested rfl).2 _ rfl

end Rsleigh.Decompile.Budget
