import Mathlib
import Rsleigh.Decompile.Ir

namespace Rsleigh.Decompile

-- slice.rs.
def maxSliceNodes : Nat := 256

def maxSliceDepth : Nat := 32

def maxSliceInputs : Nat := 2048

-- Why a slice does not follow an input, or leaves a node unresolved.
inductive StopReason where
  | memory (boundary : Boundary)
  | unmodeledUserOp
  | externalInput
  | unknownValue
  | unmodeledCall
  | missingVariable
  | depthLimit
  | nodeLimit
  | missingCallArgument
  | unknownCall
  | ambiguousCall
  | externalCall
  | callDepthLimit
  | recursionLimit
  | functionLimit
  | traversalWorkLimit
  | functionUnavailable
  | unsupportedSideEffects
  | unsupportedReturn
  | contextLimit
  | inputLimit
  | traversalLimit
  deriving DecidableEq

-- A program after folding, with the names of its parameters.
structure Snapshot where
  ssa : SsaCfg
  paramName : VarId → Option String

structure SliceInput where
  varId : VarId
  stopReason : Option StopReason

structure SliceNode where
  varId : VarId
  depth : Nat
  blockIds : List BlockId
  inputs : List SliceInput
  inputsTotal : Nat
  boundary : Option StopReason

structure SliceBlock where
  id : BlockId
  address : Nat

structure BackwardSlice where
  root : VarId
  nodes : List SliceNode
  blocks : List SliceBlock
  truncated : Bool
  complete : Bool

-- The variables that a statement or a terminator defines, and the calls among them.
def Stmt.defines : Stmt → Option VarId
  | .assign id => some id
  | .call _ _ out => out
  | .store _ _ => none

def SsaTerminator.callOutput : SsaTerminator → Option VarId
  | .call _ _ out _ => out
  | _ => none

def Stmt.callOutput : Stmt → Option VarId
  | .call _ _ out => out
  | _ => none

def SsaBlock.defines (block : SsaBlock) : List VarId :=
  block.stmts.filterMap Stmt.defines ++ block.terminator.callOutput.toList

def SsaCfg.callOutputs (ssa : SsaCfg) : List VarId :=
  ssa.blocks.flatMap fun block => block.stmts.filterMap Stmt.callOutput ++ block.terminator.callOutput.toList

def SsaCfg.definitionSites (ssa : SsaCfg) (id : VarId) : List BlockId :=
  (List.range ssa.blocks.length).filter fun site => (ssa.blocks[site]?).any fun block => id ∈ block.defines

-- What a definition reads, and why it is left unresolved.
def exprDependencies (paramName : Option String) : Expr → List VarId × Option StopReason
  | .var a => ([a], none)
  | .const _ _ => ([], none)
  | .binOp _ a b => ([a, b], none)
  | .unaryOp _ a => ([a], none)
  | .phi inputs => (inputs, none)
  | .ternary c a b => ([c, a, b], none)
  | .load a | .fieldAccess a _ => ([a], some (.memory .unmodeledMemory))
  | .userOp _ inputs => (inputs, some .unmodeledUserOp)
  | .unknown => ([], some (if paramName.isSome then .externalInput else .unknownValue))

def Expr.readsMemory : Expr → Bool
  | .load _ | .fieldAccess _ _ => true
  | _ => false

def pushOnce (dependencies : List VarId) (store : VarId) : List VarId :=
  if store ∈ dependencies then dependencies else dependencies ++ [store]

-- The stores that a load may read are dependencies as well.
def memoryDependencies (v : VarDef) (dependencies : List VarId) (boundary : Option StopReason) :
    List VarId × Option StopReason :=
  match v.memory with
  | some (.load _ stores memoryBoundary) =>
    (stores.foldl pushOnce dependencies,
      if v.expr.readsMemory then (memoryBoundary.map .memory).or boundary else boundary)
  | _ => (dependencies, boundary)

structure SliceState where
  seen : List VarId
  queue : List (VarId × Nat)
  nodes : List SliceNode
  blocks : List BlockId
  edges : Nat
  truncated : Bool
  complete : Bool

section Slice

variable (snapshot : Snapshot) (maxNodes maxDepth : Nat)

-- One input of a node at `depth`; a variable that is seen for the first time is queued.
def sliceInput (boundary : Option StopReason) (depth : Nat) (state : SliceState) (input : VarId) :
    SliceState × Option StopReason :=
  match boundary with
  | some reason => (state, some reason)
  | none =>
    if snapshot.ssa.vars.length ≤ input then (state, some .missingVariable)
    else if input ∈ state.seen then (state, none)
    else if maxDepth ≤ depth then ({ state with truncated := true }, some .depthLimit)
    else if maxNodes ≤ state.seen.length then ({ state with truncated := true }, some .nodeLimit)
    else ({ state with seen := input :: state.seen, queue := state.queue ++ [(input, depth + 1)] }, none)

def sliceInputs (boundary : Option StopReason) (depth : Nat) : SliceState → List VarId → SliceState × List SliceInput
  | state, [] => (state, [])
  | state, input :: rest =>
    let followed := sliceInput snapshot maxNodes maxDepth boundary depth { state with edges := state.edges + 1 } input
    let noted : SliceState :=
      { followed.1 with complete := followed.1.complete && followed.2.isNone }
    let others := sliceInputs boundary depth noted rest
    (others.1, ⟨input, followed.2⟩ :: others.2)

-- The blocks of a definition, as far as there is room for them.
def sliceSites : SliceState → List BlockId → SliceState × List BlockId
  | state, [] => (state, [])
  | state, site :: rest =>
    if site ∈ state.blocks ∨ state.blocks.length < maxSliceNodes then
      let others := sliceSites { state with blocks := if site ∈ state.blocks then state.blocks else site :: state.blocks } rest
      (others.1, site :: others.2)
    else sliceSites { state with truncated := true, complete := false } rest

def sliceVar (v : VarDef) (id : VarId) (depth : Nat) (state : SliceState) : SliceState :=
  let read := exprDependencies (snapshot.paramName id) v.expr
  let remembered := memoryDependencies v read.1 read.2
  let dependencies := remembered.1
  let boundary := if v.callReturn ∨ id ∈ snapshot.ssa.callOutputs then some .unmodeledCall else remembered.2
  let begun : SliceState := { state with complete := state.complete && boundary.isNone }
  let followed := sliceInputs snapshot maxNodes maxDepth boundary depth begun
    (dependencies.take (maxSliceInputs - state.edges))
  let cut := decide (followed.2.length < dependencies.length)
  let kept : SliceState :=
    { followed.1 with truncated := followed.1.truncated || cut, complete := followed.1.complete && !cut }
  let placed := sliceSites kept (snapshot.ssa.definitionSites id)
  { placed.1 with nodes := placed.1.nodes ++ [⟨id, depth, placed.2, followed.2, dependencies.length, boundary⟩] }

def SliceState.measure (state : SliceState) : Nat := state.queue.length + (maxNodes - state.seen.length)

theorem sliceInput_measure (boundary : Option StopReason) (depth : Nat) (state : SliceState) (input : VarId) :
    (sliceInput snapshot maxNodes maxDepth boundary depth state input).1.measure maxNodes = state.measure maxNodes := by
  unfold sliceInput SliceState.measure
  cases boundary with
  | some reason => rfl
  | none =>
    simp only
    split
    · rfl
    split
    · rfl
    split
    · rfl
    split
    · rfl
    · simp only [List.length_append,List.length_cons,List.length_nil]
      omega

theorem sliceInputs_measure (boundary : Option StopReason) (depth : Nat) (state : SliceState) (inputs : List VarId) :
    (sliceInputs snapshot maxNodes maxDepth boundary depth state inputs).1.measure maxNodes = state.measure maxNodes := by
  induction inputs generalizing state with
  | nil => rfl
  | cons input rest ih =>
    rw [sliceInputs]
    simp only
    rw [ih]
    exact sliceInput_measure snapshot maxNodes maxDepth boundary depth _ input

theorem sliceSites_measure (state : SliceState) (sites : List BlockId) :
    (sliceSites state sites).1.measure maxNodes = state.measure maxNodes := by
  induction sites generalizing state with
  | nil => rfl
  | cons site rest ih =>
    rw [sliceSites]
    split
    · exact ih _
    · exact ih _

theorem sliceVar_measure (v : VarDef) (id : VarId) (depth : Nat) (state : SliceState) :
    (sliceVar snapshot maxNodes maxDepth v id depth state).measure maxNodes = state.measure maxNodes := by
  unfold sliceVar
  exact (sliceSites_measure maxNodes _ _).trans (sliceInputs_measure snapshot maxNodes maxDepth _ _ _ _)

-- None where a variable that is not there is looked up.
def sliceLoop (state : SliceState) : Option SliceState :=
  match _queued : state.queue with
  | [] => some state
  | (id, depth) :: rest =>
    match snapshot.ssa.vars[id]? with
    | none => none
    | some v => sliceLoop (sliceVar snapshot maxNodes maxDepth v id depth { state with queue := rest })
termination_by state.measure maxNodes
decreasing_by
  rw [sliceVar_measure]
  simp [SliceState.measure,_queued]

end Slice

inductive SliceFailure where
  | missingVariable (id : VarId)
  | nodesNotPositive
  deriving DecidableEq

def sliceStart (root : VarId) : SliceState := ⟨[root],[(root,0)],[],[],0,false,true⟩

def backwardSlice (snapshot : Snapshot) (root : VarId) (maxNodes maxDepth : Nat) :
    Except SliceFailure (Option BackwardSlice) :=
  if snapshot.ssa.vars.length ≤ root then .error (.missingVariable root)
  else if maxNodes = 0 then .error .nodesNotPositive
  else .ok ((sliceLoop snapshot (min maxNodes maxSliceNodes) (min maxDepth maxSliceDepth) (sliceStart root)).map fun done =>
    { root := root
      nodes := done.nodes
      blocks := (List.range snapshot.ssa.blocks.length).filterMap fun site =>
        if site ∈ done.blocks then (snapshot.ssa.blocks[site]?).map fun block => ⟨site, block.addr⟩ else none
      truncated := done.truncated
      complete := done.complete })

-- What every round of the slice keeps: its nodes and what waits are the variables seen, which are there, within the
-- limits.
structure SliceWithin (snapshot : Snapshot) (maxNodes maxDepth : Nat) (state : SliceState) : Prop where
  counted : state.nodes.length + state.queue.length = state.seen.length
  bounded : state.seen.length ≤ maxNodes
  waiting : ∀ entry ∈ state.queue, entry.1 < snapshot.ssa.vars.length ∧ entry.2 ≤ maxDepth
  depths : ∀ node ∈ state.nodes, node.depth ≤ maxDepth

section Within

variable {snapshot : Snapshot} {maxNodes maxDepth : Nat}

-- While the inputs of a node are followed, the node itself is neither waiting nor done.
structure SliceOpen (snapshot : Snapshot) (maxNodes maxDepth : Nat) (state : SliceState) : Prop where
  counted : state.nodes.length + state.queue.length + 1 = state.seen.length
  bounded : state.seen.length ≤ maxNodes
  waiting : ∀ entry ∈ state.queue, entry.1 < snapshot.ssa.vars.length ∧ entry.2 ≤ maxDepth
  depths : ∀ node ∈ state.nodes, node.depth ≤ maxDepth

theorem sliceInput_open (boundary : Option StopReason) (depth : Nat) {state : SliceState} (input : VarId)
    (isOpen : SliceOpen snapshot maxNodes maxDepth state) :
    SliceOpen snapshot maxNodes maxDepth (sliceInput snapshot maxNodes maxDepth boundary depth state input).1 := by
  obtain ⟨counted,bounded,waiting,depths⟩ := isOpen
  unfold sliceInput
  cases boundary with
  | some reason => exact ⟨counted,bounded,waiting,depths⟩
  | none =>
    simp only
    split
    · exact ⟨counted,bounded,waiting,depths⟩
    rename_i present
    split
    · exact ⟨counted,bounded,waiting,depths⟩
    split
    · exact ⟨counted,bounded,waiting,depths⟩
    rename_i shallow
    split
    · exact ⟨counted,bounded,waiting,depths⟩
    rename_i room
    refine ⟨by simp; omega,by simp; omega,?_,depths⟩
    intro entry inside
    rcases List.mem_append.mp inside with before | last
    · exact waiting entry before
    · rw [List.mem_singleton.mp last]
      exact ⟨Nat.lt_of_not_le present,Nat.lt_of_not_le shallow⟩

theorem sliceInputs_open (boundary : Option StopReason) (depth : Nat) {state : SliceState} (inputs : List VarId)
    (isOpen : SliceOpen snapshot maxNodes maxDepth state) :
    SliceOpen snapshot maxNodes maxDepth (sliceInputs snapshot maxNodes maxDepth boundary depth state inputs).1 := by
  induction inputs generalizing state with
  | nil => exact isOpen
  | cons input rest ih =>
    have followed := @sliceInput_open _ _ _ boundary depth { state with edges := state.edges + 1 } input
      ⟨isOpen.counted,isOpen.bounded,isOpen.waiting,isOpen.depths⟩
    exact ih ⟨followed.counted,followed.bounded,followed.waiting,followed.depths⟩

theorem sliceSites_open {state : SliceState} (sites : List BlockId) (isOpen : SliceOpen snapshot maxNodes maxDepth state) :
    SliceOpen snapshot maxNodes maxDepth (sliceSites state sites).1 := by
  induction sites generalizing state with
  | nil => exact isOpen
  | cons site rest ih =>
    rw [sliceSites]
    split
    · exact ih ⟨isOpen.counted,isOpen.bounded,isOpen.waiting,isOpen.depths⟩
    · exact ih ⟨isOpen.counted,isOpen.bounded,isOpen.waiting,isOpen.depths⟩

theorem sliceVar_within {v : VarDef} {id : VarId} {depth : Nat} {state : SliceState} (shallow : depth ≤ maxDepth)
    (isOpen : SliceOpen snapshot maxNodes maxDepth state) :
    SliceWithin snapshot maxNodes maxDepth (sliceVar snapshot maxNodes maxDepth v id depth state) := by
  unfold sliceVar
  simp only
  generalize (if v.callReturn = true ∨ id ∈ snapshot.ssa.callOutputs then some StopReason.unmodeledCall
    else (memoryDependencies v (exprDependencies (snapshot.paramName id) v.expr).1
      (exprDependencies (snapshot.paramName id) v.expr).2).2) = boundary
  generalize (memoryDependencies v (exprDependencies (snapshot.paramName id) v.expr).1
    (exprDependencies (snapshot.paramName id) v.expr).2).1 = dependencies
  have begun : SliceOpen snapshot maxNodes maxDepth { state with complete := state.complete && boundary.isNone } :=
    ⟨isOpen.counted,isOpen.bounded,isOpen.waiting,isOpen.depths⟩
  have followed := sliceInputs_open boundary depth (dependencies.take (maxSliceInputs - state.edges)) begun
  generalize sliceInputs snapshot maxNodes maxDepth boundary depth
    { state with complete := state.complete && boundary.isNone }
    (dependencies.take (maxSliceInputs - state.edges)) = inputs at followed ⊢
  have placed := @sliceSites_open _ _ _ { inputs.1 with
      truncated := inputs.1.truncated || decide (inputs.2.length < dependencies.length)
      complete := inputs.1.complete && !decide (inputs.2.length < dependencies.length) }
    (snapshot.ssa.definitionSites id)
    ⟨followed.counted,followed.bounded,followed.waiting,followed.depths⟩
  refine ⟨?_,placed.bounded,placed.waiting,?_⟩
  · have counted := placed.counted
    rw [List.length_append,List.length_singleton]
    exact (Nat.add_right_comm _ 1 _).trans counted
  · intro node inside
    rcases List.mem_append.mp inside with before | last
    · exact placed.depths node before
    · rw [List.mem_singleton.mp last]
      exact shallow

theorem sliceLoop_within {state : SliceState} (within : SliceWithin snapshot maxNodes maxDepth state) :
    ∃ done, sliceLoop snapshot maxNodes maxDepth state = some done ∧ done.queue = [] ∧
      SliceWithin snapshot maxNodes maxDepth done := by
  induction state using sliceLoop.induct snapshot maxNodes maxDepth with
  | case1 state empty =>
    rw [sliceLoop]
    split
    · exact ⟨state,rfl,empty,within⟩
    · rename_i queued
      rw [empty] at queued
      cases queued
  | case2 state id depth rest queued missing =>
    have waits := (within.waiting (id,depth) (by rw [queued]; exact List.mem_cons_self)).1
    rw [List.getElem?_eq_getElem waits] at missing
    cases missing
  | case3 state id depth rest queued v found ih =>
    have waits := within.waiting (id,depth) (by rw [queued]; exact List.mem_cons_self)
    have counted := within.counted
    rw [queued] at counted
    have isOpen : SliceOpen snapshot maxNodes maxDepth { state with queue := rest } :=
      ⟨by simpa [Nat.add_assoc] using counted,within.bounded,
        fun entry inside => within.waiting entry (by rw [queued]; exact List.mem_cons_of_mem _ inside),within.depths⟩
    obtain ⟨done,ran,empty,kept⟩ := ih (sliceVar_within waits.2 isOpen)
    refine ⟨done,?_,empty,kept⟩
    rw [sliceLoop]
    split
    · rename_i none_
      rw [queued] at none_
      cases none_
    · rename_i id' depth' rest' queued'
      rw [queued] at queued'
      cases queued'
      simp only [found]
      exact ran

end Within

theorem backwardSlice_within (snapshot : Snapshot) (root : VarId) (maxNodes maxDepth : Nat) (positive : 0 < maxNodes) :
    (backwardSlice snapshot root maxNodes maxDepth = .error (.missingVariable root) ∧
      snapshot.ssa.vars.length ≤ root) ∨
    ∃ slice, backwardSlice snapshot root maxNodes maxDepth = .ok (some slice) ∧ slice.nodes.length ≤ maxNodes ∧
      ∀ node ∈ slice.nodes, node.depth ≤ maxDepth := by
  unfold backwardSlice
  by_cases present : snapshot.ssa.vars.length ≤ root
  · rw [if_pos present]
    exact .inl ⟨rfl,present⟩
  · rw [if_neg present,if_neg (Nat.pos_iff_ne_zero.mp positive)]
    have start : SliceWithin snapshot (min maxNodes maxSliceNodes) (min maxDepth maxSliceDepth) (sliceStart root) := by
      refine ⟨rfl,?_,?_,by simp [sliceStart]⟩
      · simp only [sliceStart,List.length_cons,List.length_nil,maxSliceNodes]
        omega
      · intro entry inside
        rw [List.mem_singleton.mp inside]
        exact ⟨Nat.lt_of_not_le present,Nat.zero_le _⟩
    obtain ⟨done,ran,_,within⟩ := sliceLoop_within start
    rw [ran]
    refine .inr ⟨_,rfl,?_,fun node inside => (within.depths node inside).trans (Nat.min_le_left _ _)⟩
    have counted := within.counted
    have bounded := within.bounded
    dsimp only
    omega

end Rsleigh.Decompile
