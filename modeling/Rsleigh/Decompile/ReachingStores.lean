import Rsleigh.Decompile.Forwarding

namespace Rsleigh.Decompile

open Pcode

-- The bytes of a location, where the bases have their values. They do not change.
def ExactLocation.bytes (base : VarId → Int) : ExactLocation → Set Int
  | .global address size => Set.Ico address.toNat (address.toNat + size.toNat)
  | .stack id displacement size => Set.Ico (base id + displacement) (base id + displacement + size.toNat)

theorem disjoint_bytes {base : VarId → Int} {first second : ExactLocation} (apart : first.mayOverlap second = false) :
    Disjoint (first.bytes base) (second.bytes base) := by
  have ofSpans : ∀ {a b : Int} {aSize bSize : UInt32} (shift : Int), ExactLocation.overlaps a aSize b bSize = false →
      Disjoint (Set.Ico (shift + a) (shift + a + aSize.toNat)) (Set.Ico (shift + b) (shift + b + bSize.toNat)) := by
    intro a b aSize bSize shift noOverlap
    have noOverlap := of_decide_eq_false noOverlap
    rw [Set.disjoint_left]
    intro byte inFirst inSecond
    rw [Set.mem_Ico] at inFirst inSecond
    apply noOverlap
    omega
  cases first with
  | global a aSize =>
    cases second with
    | global b bSize =>
      have spans := ofSpans 0 apart
      rw [Int.zero_add,Int.zero_add] at spans
      exact spans
    | stack b db bSize => cases apart
  | stack a da aSize =>
    cases second with
    | global b bSize => cases apart
    | stack b db bSize =>
      by_cases same : a = b
      · subst same
        exact ofSpans (base a) ((if_pos rfl).symm.trans apart)
      · exact absurd ((if_neg same).symm.trans apart) nofun

-- What is executed: the statements of the blocks of a path, and the calls at their ends.
inductive BlockEvent where
  | stmt (stmt : Stmt)
  | call
  deriving DecidableEq

def SsaBlock.events (block : SsaBlock) : List BlockEvent :=
  block.stmts.map .stmt ++ match block.terminator with
    | .call _ _ _ _ => [.call]
    | _ => []

-- The paths from the entry to the start of a block.
inductive Reaches (cfg : Cfg) (ssa : SsaCfg) : BlockId → List BlockEvent → Prop where
  | entry : Reaches cfg ssa cfg.entry []
  | edge {block next : BlockId} {ssaBlock : SsaBlock} {events : List BlockEvent} : Reaches cfg ssa block events →
      ssa.blocks[block]? = some ssaBlock → next ∈ cfg.successors block →
      Reaches cfg ssa next (events ++ ssaBlock.events)

-- An event of an execution, with the bytes it writes.
structure Step where
  event : BlockEvent
  written : Set Int
  value : Int → UInt8

open Classical in
noncomputable def Step.write (memory : Int → UInt8) (step : Step) (address : Int) : UInt8 :=
  if address ∈ step.written then step.value address else memory address

noncomputable def memoryAfter (run : List Step) (memory : Int → UInt8) : Int → UInt8 :=
  run.foldl Step.write memory

-- A store writes its location, where it has one. Calls and user operations may write any byte.
def Possible (ssa : SsaCfg) (cc : CallingConv) (base : VarId → Int) (step : Step) : Prop :=
  match step.event with
  | .stmt (.store addr val) => elsewhere ssa val = false → ∀ location,
      exactLocation ssa cc addr (ssa.var val).size = some location → step.written = location.bytes base
  | .stmt (.assign id) => (∀ funcId inputs, (ssa.var id).expr ≠ .userOp funcId inputs) → step.written = ∅
  | .stmt (.call _ _ _) | .call => True

-- The last write to any byte of the location is one of the stores, and it is a write of the location.
structure LastStore (out : SsaCfg) (cc : CallingConv) (base : VarId → Int) (location : ExactLocation)
    (stores : List VarId) (run earlier later : List Step) (step : Step) (addr val : VarId) : Prop where
  splits : run = earlier ++ step :: later
  isStore : step.event = .stmt (.store addr val)
  listed : val ∈ stores
  isLocation : exactLocation out cc addr (out.var val).size = some location
  writes : step.written = location.bytes base
  isLast : ∀ other ∈ later, Disjoint other.written (location.bytes base)

def ReachingStore (out : SsaCfg) (cc : CallingConv) (base : VarId → Int) (location : ExactLocation)
    (stores : List VarId) (run : List Step) : Prop :=
  ∃ earlier later step addr val, LastStore out cc base location stores run earlier later step addr val

-- What the memory state says of every execution that ends there.
def Holds (out : SsaCfg) (cc : CallingConv) (base : VarId → Int) (run : List Step) (state : MemoryState) : Prop :=
  ∀ location stores, (location,stores) ∈ state.values → ReachingStore out cc base location stores run

theorem memoryAfter_append (run run' : List Step) (memory : Int → UInt8) :
    memoryAfter (run ++ run') memory = memoryAfter run' (memoryAfter run memory) :=
  List.foldl_append

theorem memoryAfter_disjoint {bytes : Set Int} : ∀ {run : List Step} (memory : Int → UInt8),
    (∀ step ∈ run, Disjoint step.written bytes) → ∀ address ∈ bytes, memoryAfter run memory address = memory address := by
  intro run
  induction run with
  | nil => exact fun _ _ _ _ => rfl
  | cons step rest ih =>
    intro memory apart address isByte
    have notWritten : address ∉ step.written :=
      Set.disjoint_right.mp (apart step List.mem_cons_self) isByte
    calc memoryAfter (step :: rest) memory address
      _ = memoryAfter rest (step.write memory) address := rfl
      _ = step.write memory address :=
          ih _ (fun other isRest => apart other (List.mem_cons_of_mem _ isRest)) address isByte
      _ = memory address := if_neg notWritten

section Stores

variable {out : SsaCfg} {cc : CallingConv} {base : VarId → Int}

theorem lastStore_value {location : ExactLocation} {stores : List VarId} {run earlier later : List Step} {step : Step}
    {addr val : VarId} (last : LastStore out cc base location stores run earlier later step addr val)
    (memory : Int → UInt8) : ∀ address ∈ location.bytes base, memoryAfter run memory address = step.value address := by
  intro address isByte
  rw [last.splits,memoryAfter_append]
  calc memoryAfter (step :: later) (memoryAfter earlier memory) address
    _ = memoryAfter later (step.write (memoryAfter earlier memory)) address := rfl
    _ = step.write (memoryAfter earlier memory) address :=
        memoryAfter_disjoint _ last.isLast address isByte
    _ = step.value address := if_pos (last.writes.symm ▸ isByte)

theorem reachingStore_step {location : ExactLocation} {stores : List VarId} {run : List Step} {step : Step}
    (reaching : ReachingStore out cc base location stores run) (apart : Disjoint step.written (location.bytes base)) :
    ReachingStore out cc base location stores (run ++ [step]) := by
  obtain ⟨earlier,later,last,addr,val,isLast⟩ := reaching
  refine ⟨earlier,later ++ [step],last,addr,val,?_,isLast.isStore,isLast.listed,isLast.isLocation,isLast.writes,?_⟩
  · rw [isLast.splits,List.append_assoc]
    rfl
  · intro other isLater
    rcases List.mem_append.mp isLater with before | isStep
    · exact isLast.isLast other before
    · rw [List.mem_singleton.mp isStep]
      exact apart

theorem reachingStore_subset {location : ExactLocation} {stores stores' : List VarId} {run : List Step}
    (reaching : ReachingStore out cc base location stores run) (subset : stores ⊆ stores') :
    ReachingStore out cc base location stores' run := by
  obtain ⟨earlier,later,last,addr,val,isLast⟩ := reaching
  exact ⟨earlier,later,last,addr,val,{ isLast with listed := subset isLast.listed }⟩

theorem holds_empty {run : List Step} (boundary : Boundary) : Holds out cc base run (.empty boundary) :=
  fun _ _ isValue => absurd isValue List.not_mem_nil

theorem mem_insertValue {location key : ExactLocation} {stores values : List VarId}
    {entries : List (ExactLocation × List VarId)} (isEntry : (key,values) ∈ insertValue location stores entries) :
    (key,values) = (location,stores) ∨ (key,values) ∈ entries := by
  induction entries with
  | nil => exact Or.inl (List.mem_singleton.mp isEntry)
  | cons first rest ih =>
    obtain ⟨firstKey,firstValues⟩ := first
    unfold insertValue at isEntry
    split at isEntry
    · exact List.mem_cons.mp isEntry
    · split at isEntry
      · rcases List.mem_cons.mp isEntry with isNew | old
        · exact Or.inl isNew
        · exact Or.inr (List.mem_cons_of_mem _ old)
      · rcases List.mem_cons.mp isEntry with isFirst | later
        · exact Or.inr (List.mem_cons.mpr (Or.inl isFirst))
        · rcases ih later with isNew | old
          · exact Or.inl isNew
          · exact Or.inr (List.mem_cons_of_mem _ old)

theorem elsewhere_extends {ssa : SsaCfg} {val : VarId} (extended : Extends ssa out) (inRange : val < ssa.vars.length)
    (here : elsewhere ssa val = false) : elsewhere out val = false := by
  unfold elsewhere at here ⊢
  rcases extended.accesses val inRange with same | ⟨space,stores,boundary,isLoad⟩
  · rw [same]
    exact here
  · rw [isLoad]

theorem exactLocation_size {ssa : SsaCfg} {ptr : VarId} {size : UInt32} {location : ExactLocation}
    (found : exactLocation ssa cc ptr size = some location) : size ≠ 0 := by
  intro isZero
  unfold exactLocation resolve at found
  rw [if_pos isZero] at found
  cases found

theorem holds_store {ssa : SsaCfg} {run : List Step} {state : MemoryState} {step : Step} {addr val : VarId}
    (extended : Extends ssa out) (holds : Holds out cc base run state) (possible : Possible out cc base step)
    (isStore : step.event = .stmt (.store addr val)) : Holds out cc base (run ++ [step]) (state.store ssa cc addr val) := by
  unfold MemoryState.store
  split
  · exact holds_empty _
  · rename_i here
    split
    · exact holds_empty _
    · rename_i location found
      have inRange : val < ssa.vars.length := by
        by_contra outside
        apply exactLocation_size found
        unfold SsaCfg.var
        rw [List.getElem?_eq_none (Nat.le_of_not_lt outside)]
        rfl
      have isLocation : exactLocation out cc addr (out.var val).size = some location := by
        rw [extended.size val inRange]
        exact exactLocation_extends extended found
      have writes : step.written = location.bytes base := by
        unfold Possible at possible
        rw [isStore] at possible
        exact possible (elsewhere_extends extended inRange (eq_false_of_ne_true here)) location isLocation
      intro key stores isValue
      rcases mem_insertValue isValue with isNew | old
      · cases isNew
        exact ⟨run,[],step,addr,val,rfl,isStore,List.mem_singleton.mpr rfl,isLocation,writes,fun _ isLater => nomatch isLater⟩
      · split at old
        · cases old
        · obtain ⟨isOld,apart⟩ := List.mem_filter.mp old
          apply reachingStore_step (holds key stores isOld)
          rw [writes]
          exact (disjoint_bytes ((Bool.not_eq_true' _).mp apart)).symm

theorem userOp_extends {ssa : SsaCfg} {id : VarId} (extended : Extends ssa out)
    (noUserOp : ∀ funcId inputs, (ssa.var id).expr ≠ .userOp funcId inputs) (funcId : UInt64) (inputs : List VarId) :
    (out.var id).expr ≠ .userOp funcId inputs := by
  intro isUserOp
  by_cases inRange : id < ssa.vars.length
  · by_cases isLoad : ∃ ptr, (ssa.var id).expr = .load ptr
    · obtain ⟨ptr,isLoad⟩ := isLoad
      rcases extended.loads id inRange ptr isLoad with stillLoad | ⟨value,isCopy⟩
      · rw [stillLoad] at isUserOp
        cases isUserOp
      · rw [isCopy] at isUserOp
        cases isUserOp
    · rw [extended.expr id inRange (not_exists.mp isLoad)] at isUserOp
      exact noUserOp funcId inputs isUserOp
  · by_cases inOut : id < out.vars.length
    · obtain ⟨⟨values,isPhi⟩,_⟩ := extended.joins id (Nat.le_of_not_lt inRange) inOut
      rw [isPhi] at isUserOp
      cases isUserOp
    · unfold SsaCfg.var at isUserOp
      rw [List.getElem?_eq_none (Nat.le_of_not_lt inOut)] at isUserOp
      cases isUserOp

theorem holds_step {ssa : SsaCfg} {run : List Step} {state : MemoryState} {step : Step} {stmt : Stmt}
    (extended : Extends ssa out) (holds : Holds out cc base run state) (possible : Possible out cc base step)
    (isStmt : step.event = .stmt stmt) : Holds out cc base (run ++ [step]) (state.step ssa cc stmt) := by
  cases stmt with
  | store addr val => exact holds_store extended holds possible isStmt
  | call target args out => exact holds_empty _
  | assign id =>
    by_cases isUserOp : ∃ funcId inputs, (ssa.var id).expr = .userOp funcId inputs
    · obtain ⟨funcId,inputs,isUserOp⟩ := isUserOp
      unfold MemoryState.step
      dsimp only
      rw [isUserOp]
      exact holds_empty _
    · have noUserOp : ∀ funcId inputs, (ssa.var id).expr ≠ .userOp funcId inputs :=
        fun funcId inputs is => isUserOp ⟨funcId,inputs,is⟩
      have keeps : state.step ssa cc (.assign id) = state := by
        unfold MemoryState.step
        cases isExpr : (ssa.var id).expr with
        | userOp funcId inputs => exact absurd isExpr (noUserOp funcId inputs)
        | _ => simp only [isExpr]
      have noWrite : step.written = ∅ := by
        unfold Possible at possible
        rw [isStmt] at possible
        exact possible (userOp_extends extended noUserOp)
      rw [keeps]
      intro location stores isValue
      apply reachingStore_step (holds location stores isValue)
      rw [noWrite]
      exact Set.empty_disjoint _

theorem holds_stmts {ssa : SsaCfg} (extended : Extends ssa out) : ∀ {stmts : List Stmt} {run steps : List Step}
    {state : MemoryState}, Holds out cc base run state → steps.map Step.event = stmts.map .stmt →
    (∀ step ∈ steps, Possible out cc base step) →
    Holds out cc base (run ++ steps) (stmts.foldl (MemoryState.step ssa cc) state) := by
  intro stmts
  induction stmts with
  | nil =>
    intro run steps state holds isRun _
    rw [List.map_eq_nil_iff.mp isRun,List.append_nil]
    exact holds
  | cons stmt rest ih =>
    intro run steps state holds isRun possible
    obtain ⟨step,later,isSteps,isStmt,isLater⟩ := List.map_eq_cons_iff.mp isRun
    subst isSteps
    have stepped := holds_step extended holds (possible step List.mem_cons_self) isStmt
    have all := ih stepped isLater (fun other is => possible other (List.mem_cons_of_mem _ is))
    rw [List.append_assoc] at all
    exact all

theorem holds_exit {ssa : SsaCfg} (extended : Extends ssa out) {block : SsaBlock} {run steps : List Step}
    {state : MemoryState} (holds : Holds out cc base run state) (isRun : steps.map Step.event = block.events)
    (possible : ∀ step ∈ steps, Possible out cc base step) :
    Holds out cc base (run ++ steps) (exitState cc ssa block state) := by
  unfold exitState
  unfold SsaBlock.events at isRun
  split
  · exact holds_empty _
  · rename_i noCall
    split at isRun
    · rename_i isCall
      exact absurd isCall (noCall _ _ _ _)
    · rw [List.append_nil] at isRun
      exact holds_stmts extended holds isRun possible

-- What a join of states knows, one of them knows already of fewer stores.
def Weaker (joined state : MemoryState) : Prop :=
  ∀ location stores, (location,stores) ∈ joined.values → ∃ fewer, (location,fewer) ∈ state.values ∧ fewer ⊆ stores

theorem weaker_trans {first second third : MemoryState} (one : Weaker first second) (two : Weaker second third) :
    Weaker first third := by
  intro location stores isValue
  obtain ⟨fewer,isFewer,subset⟩ := one location stores isValue
  obtain ⟨fewest,isFewest,subset'⟩ := two location fewer isFewer
  exact ⟨fewest,isFewest,List.Subset.trans subset' subset⟩

theorem holds_weaker {run : List Step} {joined state : MemoryState} (weaker : Weaker joined state)
    (holds : Holds out cc base run state) : Holds out cc base run joined := by
  intro location stores isValue
  obtain ⟨fewer,isFewer,subset⟩ := weaker location stores isValue
  exact reachingStore_subset (holds location fewer isFewer) subset

end Stores

theorem mem_insertStore {store other : VarId} {values : List VarId} :
    other ∈ insertStore store values ↔ other = store ∨ other ∈ values := by
  induction values with
  | nil => simp [insertStore]
  | cons first rest ih =>
    unfold insertStore
    split
    · exact List.mem_cons
    · split
      · rename_i same
        rw [List.mem_cons,same]
        exact ⟨Or.inr,fun is => is.elim Or.inl id⟩
      · rw [List.mem_cons,List.mem_cons,ih]
        exact or_left_comm

theorem mem_foldl_insertStore {other : VarId} : ∀ {inputs values : List VarId},
    other ∈ inputs.foldl (fun values store => insertStore store values) values ↔ other ∈ values ∨ other ∈ inputs := by
  intro inputs
  induction inputs with
  | nil => simp
  | cons first rest ih =>
    intro values
    rw [List.foldl_cons,ih,mem_insertStore,List.mem_cons,or_assoc,or_left_comm]

theorem mem_lookup {location : ExactLocation} {stores : List VarId} : ∀ {entries : List (ExactLocation × List VarId)},
    entries.lookup location = some stores → (location,stores) ∈ entries := by
  intro entries
  induction entries with
  | nil => exact nofun
  | cons first rest ih =>
    obtain ⟨key,values⟩ := first
    intro found
    rw [List.lookup_cons] at found
    split at found
    · rename_i same
      cases found
      rw [eq_of_beq same]
      exact List.mem_cons_self
    · exact List.mem_cons_of_mem _ (ih found)

theorem mem_mergeValues {other : MemoryState} {location : ExactLocation} {stores : List VarId} :
    ∀ {entries : List (ExactLocation × List VarId)} {boundary : Boundary},
    (location,stores) ∈ (MemoryState.mergeValues other entries boundary).1 →
    (∃ fewer, (location,fewer) ∈ entries ∧ fewer ⊆ stores) ∧ ∃ fewer, (location,fewer) ∈ other.values ∧ fewer ⊆ stores := by
  intro entries
  induction entries with
  | nil => exact fun isValue => absurd isValue List.not_mem_nil
  | cons first rest ih =>
    obtain ⟨key,values⟩ := first
    intro boundary isValue
    have ofRest : (∃ fewer, (location,fewer) ∈ rest ∧ fewer ⊆ stores) ∧
        (∃ fewer, (location,fewer) ∈ other.values ∧ fewer ⊆ stores) →
        (∃ fewer, (location,fewer) ∈ (key,values) :: rest ∧ fewer ⊆ stores) ∧
          ∃ fewer, (location,fewer) ∈ other.values ∧ fewer ⊆ stores := by
      intro later
      obtain ⟨⟨fewer,isRest,subset⟩,ofOther⟩ := later
      exact ⟨⟨fewer,List.mem_cons_of_mem _ isRest,subset⟩,ofOther⟩
    unfold MemoryState.mergeValues at isValue
    split at isValue
    · exact ofRest (ih isValue)
    · rename_i inputs found
      dsimp only at isValue
      split at isValue
      · rcases List.mem_cons.mp isValue with isKey | later
        · cases isKey
          refine ⟨⟨values,List.mem_cons_self,?_⟩,⟨inputs,mem_lookup found,?_⟩⟩
          · exact fun store is => mem_foldl_insertStore.mpr (Or.inl is)
          · exact fun store is => mem_foldl_insertStore.mpr (Or.inr is)
        · exact ofRest (ih later)
      · exact ofRest (ih isValue)

theorem weaker_merge {preds : List BlockId} {exits : BlockId → MemoryState} {pred : BlockId} (isPred : pred ∈ preds) :
    Weaker (MemoryState.merge preds exits) (exits pred) := by
  have folds : ∀ (rest : List BlockId) (result : MemoryState),
      Weaker (rest.foldl (fun result pred =>
        { values := (MemoryState.mergeValues (exits pred) result.values result.boundary).1,
          boundary := (MemoryState.mergeValues (exits pred) result.values result.boundary).2 }) result) result ∧
      ∀ pred ∈ rest, Weaker (rest.foldl (fun result pred =>
        { values := (MemoryState.mergeValues (exits pred) result.values result.boundary).1,
          boundary := (MemoryState.mergeValues (exits pred) result.values result.boundary).2 }) result)
        (exits pred) := by
    intro rest
    induction rest with
    | nil =>
      intro result
      refine ⟨fun _ stores isValue => ⟨stores,isValue,List.Subset.refl _⟩,?_⟩
      intro pred isPred
      cases isPred
    | cons first rest ih =>
      intro result
      obtain ⟨ofResult,ofRest⟩ := ih
        { values := (MemoryState.mergeValues (exits first) result.values result.boundary).1,
          boundary := (MemoryState.mergeValues (exits first) result.values result.boundary).2 }
      refine ⟨weaker_trans ofResult fun _ _ isValue => (mem_mergeValues isValue).1,?_⟩
      intro pred isPred
      rcases List.mem_cons.mp isPred with isFirst | isRest
      · subst isFirst
        exact weaker_trans ofResult fun _ _ isValue => (mem_mergeValues isValue).2
      · exact ofRest pred isRest
  unfold MemoryState.merge
  cases preds with
  | nil => cases isPred
  | cons first rest =>
    rcases List.mem_cons.mp isPred with isFirst | isRest
    · subst isFirst
      exact (folds rest _).1
    · exact (folds rest _).2 pred isRest

section Paths

variable {cfg : Cfg} {cc : CallingConv} {ssa out : SsaCfg} {base : VarId → Int}

theorem reachingStores_local : (reachingStores cfg cc ssa).Local := by
  intro node changed exits value notSuccessor
  unfold reachingStores
  dsimp only
  split
  · rfl
  · have notPred : ∀ pred ∈ cfg.predecessors node, Function.update exits changed value pred = exits pred := by
      intro pred isPred
      apply Function.update_of_ne
      intro same
      subst same
      exact notSuccessor (Cfg.mem_predecessors.mp isPred)
    unfold MemoryState.merge
    cases preds : cfg.predecessors node with
    | nil => rfl
    | cons first rest =>
      rw [preds] at notPred
      dsimp only
      rw [notPred first List.mem_cons_self]
      apply List.foldl_ext
      intro result pred isPred
      rw [notPred pred (List.mem_cons_of_mem _ isPred)]

-- Along a path the states of its blocks hold.
theorem holds_path {entries exits : BlockId → MemoryState} (extended : Extends ssa out)
    (joins : ∀ node < cfg.blocks.length, entries node = (reachingStores cfg cc ssa).join node exits ∧
      exits node = (reachingStores cfg cc ssa).transfer node (entries node))
    {block : BlockId} {events : List BlockEvent} (path : Reaches cfg ssa block events) (inRange : block < cfg.blocks.length) :
    ∀ {run : List Step}, run.map Step.event = events → (∀ step ∈ run, Possible out cc base step) →
      Holds out cc base run (entries block) := by
  induction path with
  | entry =>
    intro run _ _
    rw [(joins cfg.entry inRange).1]
    unfold reachingStores
    dsimp only
    rw [if_pos rfl]
    exact holds_empty _
  | @edge block next ssaBlock events path isBlock isSuccessor ih =>
    intro run isRun possible
    rw [(joins next inRange).1]
    unfold reachingStores
    dsimp only
    split
    · exact holds_empty _
    · have inCfg : block < cfg.blocks.length := by
        by_contra outside
        unfold Cfg.successors at isSuccessor
        rw [List.getElem?_eq_none (Nat.le_of_not_lt outside)] at isSuccessor
        cases isSuccessor
      obtain ⟨before,steps,isSplit,isBefore,isSteps⟩ := List.map_eq_append_iff.mp isRun
      subst isSplit
      have atStart := ih inCfg isBefore fun step is => possible step (List.mem_append_left _ is)
      apply holds_weaker (weaker_merge (Cfg.mem_predecessors.mpr isSuccessor))
      rw [(joins block inCfg).2]
      unfold reachingStores
      dsimp only
      rw [isBlock]
      exact holds_exit extended atStart isSteps fun step is => possible step (List.mem_append_right _ is)

theorem holds_applied : ∀ {before rest : List Stmt} {ssa : SsaCfg} {state : MemoryState} {run steps : List Step},
    Extends (applyBlock cc (before ++ rest) ssa state) out → Holds out cc base run state →
    steps.map Step.event = before.map .stmt → (∀ step ∈ steps, Possible out cc base step) →
    ∃ middle state', applyBlock cc (before ++ rest) ssa state = applyBlock cc rest middle state' ∧
      Extends ssa middle ∧ Holds out cc base (run ++ steps) state' ∧
      ∀ id < ssa.vars.length, .assign id ∉ before → middle.var id = ssa.var id := by
  intro before
  induction before with
  | nil =>
    intro rest ssa state run steps _ holds isSteps _
    rw [List.map_eq_nil_iff.mp isSteps,List.append_nil]
    exact ⟨ssa,state,rfl,extends_refl ssa,holds,fun _ _ _ => rfl⟩
  | cons stmt before ih =>
    intro rest ssa state run steps extended holds isSteps possible
    obtain ⟨step,later,isSplit,isStmt,isLater⟩ := List.map_eq_cons_iff.mp isSteps
    subst isSplit
    have onStmt : Extends (applyStmt cc ssa state stmt) out := extends_trans (applyBlock_extends _ _ _) extended
    have stepped := holds_step onStmt holds (possible step List.mem_cons_self) isStmt
    obtain ⟨middle,state',same,toMiddle,atMiddle,others⟩ := @ih rest _ _ _ _ extended stepped
      isLater fun other is => possible other (List.mem_cons_of_mem _ is)
    rw [List.append_assoc] at atMiddle
    refine ⟨middle,state',same,extends_trans (applyStmt_extends stmt) toMiddle,atMiddle,?_⟩
    intro id inRange notAssigned
    obtain ⟨different,notBefore⟩ := not_or.mp fun is => notAssigned (List.mem_cons.mpr is)
    rw [others id (Nat.lt_of_lt_of_le inRange (applyStmt_extends stmt).length) notBefore]
    exact applyStmt_others inRange (Ne.symm different)

theorem annotate_stores {state : MemoryState} {id ptr : VarId} {stores : List VarId}
    (answered : (annotate cc ssa state id ptr).2.1 = stores) (isSome : stores ≠ []) :
    ∃ location, exactLocation ssa cc ptr (ssa.var id).size = some location ∧ (location,stores) ∈ state.values := by
  unfold annotate at answered
  dsimp only at answered
  cases found : exactLocation ssa cc ptr (ssa.var id).size with
  | none =>
    rw [found] at answered
    split at answered
    all_goals
      split at answered
      all_goals exact absurd answered.symm isSome
  | some location =>
    rw [found] at answered
    cases isValue : state.get location with
    | none =>
      simp only [isValue] at answered
      split at answered
      all_goals
        split at answered
        all_goals exact absurd answered.symm isSome
    | some values =>
      simp only [isValue] at answered
      refine ⟨location,rfl,?_⟩
      split at answered
      all_goals
        split at answered
        · exact absurd answered.symm isSome
        · rw [← answered]
          exact mem_lookup isValue

-- A load is looked at where it is, with what holds there.
theorem applied_stores {entries : BlockId → MemoryState} {blocks before after : List SsaBlock} {block : SsaBlock}
    {first id ptr : VarId} {head tail : List Stmt} {run steps : List Step} {space : AddressSpaceId} {stores : List VarId}
    {boundary : Option Boundary} (isLoad : (ssa.var id).expr = .load ptr) (isBlocks : blocks = before ++ block :: after)
    (isBlock : block.stmts = head ++ .assign id :: tail)
    (notBefore : ∀ other ∈ before, .assign id ∉ other.stmts) (notAfter : ∀ other ∈ after, .assign id ∉ other.stmts)
    (notHead : .assign id ∉ head) (notTail : .assign id ∉ tail)
    (extended : Extends (applyBlocks cc entries blocks first ssa) out)
    (final : out.var id = (applyBlocks cc entries blocks first ssa).var id)
    (noted : (out.var id).memory = some (.load space stores boundary)) (isSome : stores ≠ [])
    (holds : Holds out cc base run (entries (first + before.length))) (isSteps : steps.map Step.event = head.map .stmt)
    (possible : ∀ step ∈ steps, Possible out cc base step) :
    ∃ location, exactLocation out cc ptr (ssa.var id).size = some location ∧
      ReachingStore out cc base location stores (run ++ steps) := by
  have inRange := load_range isLoad
  subst isBlocks
  rw [applyBlocks_append] at extended final
  unfold applyBlocks at extended final
  have toBlock : Extends ssa (applyBlocks cc entries before first ssa) := applyBlocks_extends _ _ _
  have atBlock : (applyBlocks cc entries before first ssa).var id = ssa.var id := applyBlocks_others inRange notBefore
  generalize applyBlocks cc entries before first ssa = start at *
  have inStart := Nat.lt_of_lt_of_le inRange toBlock.length
  have onBlock := extends_trans (applyBlocks_extends after _ _) extended
  rw [isBlock] at onBlock
  obtain ⟨middle,state,isApplied,toMiddle,atMiddle,others⟩ := holds_applied onBlock holds isSteps possible
  have sameVar : middle.var id = ssa.var id := (others id inStart notHead).trans atBlock
  have stillLoad : (middle.var id).expr = .load ptr := sameVar ▸ isLoad
  have inMiddle := Nat.lt_of_lt_of_le inStart toMiddle.length
  have applied : Applied cc middle state id (applyStmt cc middle state (.assign id)) := applied_load stillLoad
  have inNext := Nat.lt_of_lt_of_le inMiddle applied.extends_.length
  have afterBlock := Nat.lt_of_lt_of_le inStart (@applyBlock_extends cc block.stmts start
    (entries (first + before.length))).length
  -- the annotation of the load is what the state before it says
  rw [applyBlocks_others afterBlock notAfter,isBlock,isApplied] at final
  unfold applyBlock at final
  rw [applyBlock_others inNext notTail] at final
  rw [final,applied.annotated ptr stillLoad] at noted
  injection noted with noted
  injection noted with _ isStores _
  obtain ⟨location,found,isValue⟩ := annotate_stores isStores isSome
  rw [isApplied] at onBlock
  unfold applyBlock at onBlock
  have toOut : Extends middle out := extends_trans applied.extends_ (extends_trans (applyBlock_extends _ _ _) onBlock)
  rw [sameVar] at found
  exact ⟨location,exactLocation_extends toOut found,atMiddle location stores isValue⟩

end Paths

def assigned (stmts : List Stmt) : List VarId :=
  stmts.filterMap fun
    | .assign id => some id
    | _ => none

-- A variable is assigned at one place.
def AssignedOnce (ssa : SsaCfg) : Prop :=
  (ssa.blocks.flatMap fun block => assigned block.stmts).Nodup

theorem mem_assigned {stmts : List Stmt} {id : VarId} (isAssigned : .assign id ∈ stmts) : id ∈ assigned stmts :=
  List.mem_filterMap.mpr ⟨.assign id,isAssigned,rfl⟩

theorem assigned_elsewhere {ssa : SsaCfg} {before after : List SsaBlock} {block : SsaBlock} {head tail : List Stmt}
    {id : VarId} (once : AssignedOnce ssa) (isBlocks : ssa.blocks = before ++ block :: after)
    (isBlock : block.stmts = head ++ .assign id :: tail) :
    (∀ other ∈ before, .assign id ∉ other.stmts) ∧ (∀ other ∈ after, .assign id ∉ other.stmts) ∧
      .assign id ∉ head ∧ .assign id ∉ tail := by
  have isSplit : (ssa.blocks.flatMap fun block => assigned block.stmts) =
      (before.flatMap (fun block => assigned block.stmts) ++ assigned head) ++
        id :: (assigned tail ++ after.flatMap fun block => assigned block.stmts) := by
    rw [isBlocks,List.flatMap_append,List.flatMap_cons,isBlock]
    unfold assigned
    rw [List.filterMap_append,List.filterMap_cons]
    simp only [List.append_assoc,List.cons_append]
  unfold AssignedOnce at once
  rw [isSplit,List.nodup_middle,List.nodup_cons] at once
  obtain ⟨notElsewhere,_⟩ := once
  rw [List.mem_append,List.mem_append,List.mem_append] at notElsewhere
  refine ⟨?_,?_,?_,?_⟩
  · intro other isOther isAssigned
    exact notElsewhere (Or.inl (Or.inl (List.mem_flatMap.mpr ⟨other,isOther,mem_assigned isAssigned⟩)))
  · intro other isOther isAssigned
    exact notElsewhere (Or.inr (Or.inr (List.mem_flatMap.mpr ⟨other,isOther,mem_assigned isAssigned⟩)))
  · exact fun isAssigned => notElsewhere (Or.inl (Or.inr (mem_assigned isAssigned)))
  · exact fun isAssigned => notElsewhere (Or.inr (Or.inl (mem_assigned isAssigned)))

theorem holds_entries {cfg : Cfg} {cc : CallingConv} {ssa out : SsaCfg} {base : VarId → Int}
    (extended : Extends ssa out) {limit : Nat}
    (atEnd : (Worklist.run (reachingStores cfg cc ssa) limit (reachingStart cfg)).queue = [])
    {block : BlockId} {events : List BlockEvent} (path : Reaches cfg ssa block events) (inRange : block < cfg.blocks.length)
    {run : List Step} (isRun : run.map Step.event = events) (possible : ∀ step ∈ run, Possible out cc base step) :
    Holds out cc base run ((Worklist.run (reachingStores cfg cc ssa) limit (reachingStart cfg)).entries block) := by
  have atStart : Worklist.Settled (reachingStores cfg cc ssa) cfg.blocks.length (reachingStart cfg) :=
    fun node isNode notWaiting => absurd (List.mem_range.mpr isNode) notWaiting
  have settled := @Worklist.run_settled _ _ _ _ reachingStores_local limit _ atStart
  apply holds_path extended (fun node isNode => settled node isNode ?_) path inRange isRun possible
  rw [atEnd]
  exact List.not_mem_nil

section Example

-- A store of 5 to 0x1000, and a load of it.
def storeThenLoad : SsaCfg where
  blocks := [⟨0,[.store 0 1,.assign 2],.ret (some 2)⟩]
  vars := [⟨.unique 0 8,.const 0x1000 8,none,8,false⟩,⟨.unique 8 8,.const 5 8,none,8,false⟩,
    ⟨.unique 16 8,.load 0,none,8,false⟩]
  entry := 0
  diagnostics := []

def oneBlock : Cfg where
  blocks := [⟨0,0,[],.ret⟩]
  entry := 0
  diagnostics := []

def storesFive : Step where
  event := .stmt (.store 0 1)
  written := Set.Ico 0x1000 0x1008
  value _ := 5

theorem storesFive_possible : Possible (forward oneBlock .sysV storeThenLoad) .sysV (fun _ => 0) storesFive := by
  intro _ location found
  have isGlobal : exactLocation (forward oneBlock .sysV storeThenLoad) .sysV 0
      ((forward oneBlock .sysV storeThenLoad).var 1).size = some (.global 0x1000 8) := by decide +kernel
  rw [isGlobal] at found
  cases found
  rfl

end Example

end Rsleigh.Decompile
