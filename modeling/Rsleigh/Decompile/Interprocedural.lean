import Mathlib
import Rsleigh.Lib.Unwinding
import Rsleigh.Decompile.BackwardSlice
import Rsleigh.Decompile.Provenance

namespace Rsleigh.Decompile.Interprocedural

open Unwinding

-- slice/interprocedural.rs.
structure Limits where
  maxNodes : Nat
  maxDepth : Nat
  maxCallDepth : Nat
  maxFunctions : Nat
  maxWork : Nat

def Limits.bounded (limits : Limits) : Limits where
  maxNodes := min limits.maxNodes maxSliceNodes
  maxDepth := min limits.maxDepth maxSliceDepth
  maxCallDepth := min limits.maxCallDepth 8
  maxFunctions := min limits.maxFunctions 32
  maxWork := min limits.maxWork 1000000

structure Reference where
  contextId : Nat
  varId : VarId
  deriving DecidableEq

inductive LinkKind where
  | argumentBinding
  | callReturn
  deriving DecidableEq

structure Link where
  kind : LinkKind
  target : Reference
  stopReason : Option StopReason

-- callgraph.rs and function_summary.rs.
structure DependencyCall where
  targetAddress : Option UInt64
  imported : Option String
  origin : OperationOrigin
  arguments : List (Nat × VarId)

structure DependencySummary where
  parameters : VarId → Option Nat
  returns : List VarId
  unsupportedSideEffects : Bool

structure CrossNode where
  node : SliceNode
  contextId : Nat
  functionAddress : UInt64
  links : List Link
  call : Option DependencyCall

def CrossNode.reference (output : CrossNode) : Reference := ⟨output.contextId,output.node.varId⟩

-- The index of a context is its ID.
structure Context where
  functionAddress : UInt64
  callerContext : Option Nat
  callOrigin : Option OperationOrigin
  callDepth : Nat

structure Frame where
  function : Snapshot
  callerArguments : List (Nat × Reference)

-- What the traversal asks for: the snapshot of a function, its summary, and the call behind a value. The two
-- analyses look every variable up with `ssa.var`, which is there for every ID. They answer nothing where the execution
-- budget, or a fault of the loader, unwinds them; `stopped` tells the one from the other.
structure World (σ : Type) where
  load : σ → UInt64 → Option (Except String Snapshot) × σ
  dependencySummary : σ → Snapshot → Option DependencySummary × σ
  dependencyCall : σ → Snapshot → VarId → Option (Except StopReason DependencyCall) × σ
  stopped : σ → Bool

def World.Answers (world : World σ) : Prop :=
  (∀ s address, (world.load s address).1 ≠ none) ∧ (∀ s snapshot, (world.dependencySummary s snapshot).1 ≠ none) ∧
    ∀ s snapshot id, (world.dependencyCall s snapshot id).1 ≠ none

structure Traversal (σ : Type) where
  nodes : List CrossNode
  blocks : List (Nat × SliceBlock)
  contexts : List Context
  truncated : Bool
  stops : List String
  traversalWork : Nat
  frames : List Frame
  summaries : UInt64 → Option DependencySummary
  functions : List UInt64
  visited : List Reference
  jobs : List (Reference × Nat)
  inputsUsed : Nat
  blockSeen : List (Nat × BlockId)
  world : σ

-- What ends a traversal early: an analysis or the loader unwound, something was looked up that is not there, or the
-- slice of a variable that its function does not have was asked for.
inductive Signal where
  | unwound
  | outOfRange
  | failed (failure : SliceFailure)
  deriving DecidableEq

abbrev Run (σ : Type) := Program Signal (Traversal σ)

section Run

variable {σ : Type} (limits : Limits) (world : World σ)

def found : Option α → Run σ α
  | some value => pure value
  | none => throw .outOfRange

def charge (amount : Nat) : Run σ Bool := do
  let t ← get
  if limits.maxWork - t.traversalWork < amount then
    modify fun t =>
      { t with
        stops := if "traversal_work_limit" ∈ t.stops then t.stops else t.stops ++ ["traversal_work_limit"]
        truncated := true }
    return false
  else
    modify fun t => { t with traversalWork := t.traversalWork + amount }
    return true

-- `len().saturating_add(..)` of the variables and statements.
def scanWork (ssa : SsaCfg) : Nat :=
  min (ssa.vars.length + (ssa.blocks.map fun block => 1 + block.stmts.length).sum) (2 ^ 64 - 1)

def loadFunction (target : UInt64) : Run σ (Except String Snapshot) := do
  let t ← get
  let answer := world.load t.world target
  modify fun t => { t with world := answer.2 }
  match answer.1 with
  | some loaded => return loaded
  | none => throw .unwound

-- `summaries.entry(address).or_insert_with(..)`.
def summaryOf (address : UInt64) (function : Snapshot) : Run σ DependencySummary := do
  let t ← get
  match t.summaries address with
  | some summary => return summary
  | none =>
    let answer := world.dependencySummary t.world function
    modify fun t => { t with world := answer.2 }
    match answer.1 with
    | some summary =>
      modify fun t => { t with summaries := Function.update t.summaries address (some summary) }
      return summary
    | none => throw .unwound

def callOf (function : Snapshot) (id : VarId) : Run σ (Except StopReason DependencyCall) := do
  let t ← get
  let answer := world.dependencyCall t.world function id
  modify fun t => { t with world := answer.2 }
  match answer.1 with
  | some call => return call
  | none => throw .unwound

-- Whether the context or one that led to it is of the function. None past the fuel, or for a context that is not
-- there.
def ancestorsMeet (contexts : List Context) (target : Option UInt64) : Nat → Nat → Option Bool
  | 0, _ => none
  | fuel + 1, id => do
    let context ← contexts[id]?
    match context.callerContext with
    | none => return target = some context.functionAddress
    | some caller =>
      let above ← ancestorsMeet contexts target fuel caller
      return target = some context.functionAddress || above

-- Why a call is not followed, as far as its function need not be loaded.
def refusal (nodes : Nat) (nextDepth : Nat) (recursive : Bool) (call : DependencyCall) : Option StopReason :=
  if call.imported.isSome then some .externalCall
  else if call.targetAddress.isNone then some .unknownCall
  else if limits.maxNodes ≤ nodes + 1 then some .nodeLimit
  else if limits.maxCallDepth < nextDepth then some .callDepthLimit
  else if recursive then some .recursionLimit
  else none

-- A call is followed into a context of its own.
def enterCallee (contextId depth nextDepth : Nat) (call : DependencyCall) (target : UInt64) (callee : Snapshot)
    (summary : DependencySummary) : Run σ (List Link) := do
  let t ← get
  let id := t.contexts.length
  let targets := summary.returns.map fun value => (⟨id,value⟩ : Reference)
  modify fun t =>
    { t with
      contexts := t.contexts ++ [⟨target,some contextId,some call.origin,nextDepth⟩]
      frames := t.frames ++ [⟨callee,call.arguments.map fun argument => (argument.1,⟨contextId,argument.2⟩)⟩]
      jobs := t.jobs ++ targets.map fun target => (target,depth + 1) }
  return targets.map fun target => ⟨.callReturn,target,none⟩

-- The function of a call is loaded and entered, or there is a reason not to.
def admitCallee (contextId depth nextDepth : Nat) (call : DependencyCall) (target : UInt64) :
    Run σ (Option StopReason × List Link) := do
  let t ← get
  if target ∉ t.functions ∧ limits.maxFunctions ≤ t.functions.length then return (some .functionLimit,[])
  else
    let admitted ← charge limits 1
    if admitted then
      modify fun t => { t with functions := if target ∈ t.functions then t.functions else target :: t.functions }
      let loaded ← loadFunction world target
      match loaded with
      | .error text =>
        modify fun t => { t with stops := t.stops ++ [text] }
        return (some .functionUnavailable,[])
      | .ok callee =>
        let scanned ← charge limits (scanWork callee.ssa)
        if scanned then
          let summary ← summaryOf world target callee
          if summary.unsupportedSideEffects then return (some .unsupportedSideEffects,[])
          else if summary.returns = [] then return (some .unsupportedReturn,[])
          else
            let t ← get
            if limits.maxNodes ≤ t.contexts.length then return (some .contextLimit,[])
            else
              let links ← enterCallee contextId depth nextDepth call target callee summary
              return (none,links)
        else return (some .traversalWorkLimit,[])
    else return (some .traversalWorkLimit,[])

def StopReason.truncates : StopReason → Bool
  | .callDepthLimit | .recursionLimit | .functionLimit | .traversalWorkLimit | .contextLimit | .nodeLimit => true
  | _ => false

-- A value that a call returns.
def followCall (contextId : Nat) (function : Snapshot) (output : CrossNode) : Run σ CrossNode := do
  let answer ← callOf world function output.node.varId
  match answer with
  | .error reason => return { output with node := { output.node with boundary := some reason } }
  | .ok call =>
    let t ← get
    let context ← found t.contexts[contextId]?
    let nextDepth := context.callDepth + 1
    let recursive ← found (ancestorsMeet t.contexts call.targetAddress t.contexts.length contextId)
    let entered ←
      match call.targetAddress, refusal limits t.nodes.length nextDepth recursive call with
      | some target, none => admitCallee limits world contextId output.node.depth nextDepth call target
      | _, reason => pure (reason,[])
    modify fun t => { t with truncated := t.truncated || entered.1.any StopReason.truncates }
    return { output with node := { output.node with boundary := entered.1 }, links := entered.2, call := some call }

-- A parameter of a function that was entered stands for the argument of its call.
def bindArgument (contextId slot : Nat) (output : CrossNode) : Run σ CrossNode := do
  let t ← get
  let frame ← found t.frames[contextId]?
  match frame.callerArguments.lookup slot with
  | some actual =>
    modify fun t => { t with jobs := t.jobs ++ [(actual,output.node.depth + 1)] }
    return { output with
      node := { output.node with boundary := none, inputs := [], inputsTotal := 0 }
      links := [⟨.argumentBinding,actual,none⟩] }
  | none => return { output with node := { output.node with boundary := some .missingCallArgument } }

def linkNode (contextId : Nat) (function : Snapshot) (slot : Option Nat) (output : CrossNode) : Run σ CrossNode :=
  match slot.filter fun _ => contextId ≠ 0 with
  | some slot => bindArgument contextId slot output
  | none =>
    if output.node.boundary = some .unmodeledCall then followCall limits world contextId function output
    else pure output

-- The inputs of a node count towards the limit before its links do.
def takeInputs (node : SliceNode) : Run σ SliceNode := do
  let t ← get
  let available := maxSliceInputs - t.inputsUsed
  if available < node.inputs.length then
    modify fun t =>
      { t with
        truncated := true
        stops := t.stops ++ ["input_limit"]
        inputsUsed := t.inputsUsed + (node.inputs.take available).length }
    return { node with inputs := node.inputs.take available }
  else
    modify fun t => { t with inputsUsed := t.inputsUsed + node.inputs.length }
    return node

def takeLinks (output : CrossNode) : Run σ CrossNode := do
  let t ← get
  let available := maxSliceInputs - t.inputsUsed
  if available < output.links.length then
    modify fun t =>
      { t with truncated := true, inputsUsed := t.inputsUsed + (output.links.take available).length }
    return { output with
      node := { output.node with boundary := some .inputLimit }
      links := output.links.take available }
  else
    modify fun t => { t with inputsUsed := t.inputsUsed + output.links.length }
    return output

-- A node is kept with as many of its links as there is room for; false where no room is left.
def keepNode (output : CrossNode) : Run σ Bool := do
  let output ← takeLinks output
  modify fun t => { t with nodes := t.nodes ++ [output] }
  let t ← get
  if maxSliceInputs ≤ t.inputsUsed then
    modify fun t => { t with truncated := true, stops := t.stops ++ ["input_limit"] }
    return false
  else return true

-- One node of a local slice; false where the rest of them are left out.
def addNode (contextId : Nat) (address : UInt64) (function : Snapshot) (depth : Nat) (node : SliceNode) :
    Run σ Bool := do
  let t ← get
  if (⟨contextId,node.varId⟩ : Reference) ∈ t.visited then return true
  else
    modify fun t => { t with visited := ⟨contextId,node.varId⟩ :: t.visited }
    let charged ← charge limits (1 + node.inputs.length)
    if charged then
      let node ← takeInputs { node with depth := node.depth + depth }
      let t ← get
      let summary ← found (t.summaries address)
      let output ← linkNode limits world contextId function (summary.parameters node.varId)
        ⟨node,contextId,address,[],none⟩
      let paid ← charge limits output.links.length
      keepNode (if paid then output
        else { output with node := { output.node with boundary := some .traversalWorkLimit } })
    else return false

def addNodes (contextId : Nat) (address : UInt64) (function : Snapshot) (depth : Nat) : List SliceNode → Run σ Unit
  | [] => pure ()
  | node :: rest => do
    let more ← addNode limits world contextId address function depth node
    if more then addNodes contextId address function depth rest else pure ()

def addBlock (contextId : Nat) (t : Traversal σ) (block : SliceBlock) : Traversal σ :=
  if (contextId,block.id) ∈ t.blockSeen then t
  else if t.blocks.length < maxSliceNodes then
    { t with blockSeen := (contextId,block.id) :: t.blockSeen, blocks := t.blocks ++ [(contextId,block)] }
  else
    { t with
      blockSeen := (contextId,block.id) :: t.blockSeen
      truncated := true
      stops := t.stops ++ ["block_limit"] }

-- The slice of one variable inside its function.
def visitReference (reference : Reference) (depth : Nat) : Run σ Bool := do
  let t ← get
  let context ← found t.contexts[reference.contextId]?
  let frame ← found t.frames[reference.contextId]?
  let scanned ← charge limits (scanWork frame.function.ssa)
  if scanned then
    let _ ← summaryOf world context.functionAddress frame.function
    match backwardSlice frame.function reference.varId (limits.maxNodes - t.nodes.length) (limits.maxDepth - depth) with
    | .error failure => throw (.failed failure)
    | .ok slice =>
      let slice ← found slice
      modify fun t => slice.blocks.foldl (addBlock reference.contextId) { t with truncated := t.truncated || slice.truncated }
      addNodes limits world reference.contextId context.functionAddress frame.function depth slice.nodes
      return true
  else return false

-- One job; false where the others are left.
def visitJob (reference : Reference) (depth : Nat) : Run σ Bool := do
  let t ← get
  if reference ∈ t.visited then return true
  else if limits.maxDepth < depth ∨ limits.maxNodes ≤ t.nodes.length then
    modify fun t =>
      { t with
        truncated := true
        stops := t.stops ++ [if limits.maxDepth < depth then "depth_limit" else "node_limit"] }
    return true
  else visitReference limits world reference depth

end Run

section Rules

variable {σ : Type} {limits : Limits} {world : World σ} {t : Traversal σ} {stops : Signal → Traversal σ → Prop}

@[simp] theorem ends_found_some {value : α} {returns : α → Traversal σ → Prop} :
    Ends (found (some value)) returns stops t ↔ returns value t :=
  Iff.rfl

@[simp] theorem ends_found_none {returns : α → Traversal σ → Prop} :
    Ends (found none) returns stops t ↔ stops .outOfRange t :=
  Iff.rfl

-- What no charge, question or limit touches; summaries are only added.
structure Quiet (limits : Limits) (before after : Traversal σ) : Prop where
  nodes : after.nodes = before.nodes
  contexts : after.contexts = before.contexts
  frames : after.frames = before.frames
  functions : after.functions = before.functions
  visited : after.visited = before.visited
  jobs : after.jobs = before.jobs
  inputsUsed : after.inputsUsed = before.inputsUsed
  summaries : ∀ address, before.summaries address ≠ none → after.summaries address ≠ none
  work : before.traversalWork ≤ limits.maxWork → after.traversalWork ≤ limits.maxWork

theorem Quiet.refl (t : Traversal σ) : Quiet limits t t :=
  ⟨rfl,rfl,rfl,rfl,rfl,rfl,rfl,fun _ known => known,fun within => within⟩

theorem Quiet.trans {first second third : Traversal σ} (left : Quiet limits first second)
    (right : Quiet limits second third) : Quiet limits first third where
  nodes := right.nodes.trans left.nodes
  contexts := right.contexts.trans left.contexts
  frames := right.frames.trans left.frames
  functions := right.functions.trans left.functions
  visited := right.visited.trans left.visited
  jobs := right.jobs.trans left.jobs
  inputsUsed := right.inputsUsed.trans left.inputsUsed
  summaries address known := right.summaries address (left.summaries address known)
  work within := right.work (left.work within)

-- Why a quiet program stops: only because it was unwound.
def QuietStop (limits : Limits) (world : World σ) (before : Traversal σ) (signal : Signal) (after : Traversal σ) : Prop :=
  Quiet limits before after ∧ signal = .unwound ∧ ¬ world.Answers

theorem charge_quiet (amount : Nat) :
    Ends (charge limits amount) (fun _ after => Quiet limits t after) (QuietStop limits world t) t := by
  unfold charge
  simp only [ends_bind,ends_get]
  split
  · exact ⟨rfl,rfl,rfl,rfl,rfl,rfl,rfl,fun _ known => known,fun within => within⟩
  · rename_i paid
    refine ⟨rfl,rfl,rfl,rfl,rfl,rfl,rfl,fun _ known => known,fun within => ?_⟩
    dsimp only
    omega

theorem loadFunction_quiet (target : UInt64) :
    Ends (loadFunction world target) (fun _ after => Quiet limits t after) (QuietStop limits world t) t := by
  unfold loadFunction
  simp only [ends_bind,ends_get,ends_modify]
  split
  · exact ⟨rfl,rfl,rfl,rfl,rfl,rfl,rfl,fun _ known => known,fun within => within⟩
  · rename_i unwound
    exact ⟨⟨rfl,rfl,rfl,rfl,rfl,rfl,rfl,fun _ known => known,fun within => within⟩,rfl,
      fun answers => answers.1 _ _ unwound⟩

theorem callOf_quiet (function : Snapshot) (id : VarId) :
    Ends (callOf world function id) (fun _ after => Quiet limits t after) (QuietStop limits world t) t := by
  unfold callOf
  simp only [ends_bind,ends_get,ends_modify]
  split
  · exact ⟨rfl,rfl,rfl,rfl,rfl,rfl,rfl,fun _ known => known,fun within => within⟩
  · rename_i unwound
    exact ⟨⟨rfl,rfl,rfl,rfl,rfl,rfl,rfl,fun _ known => known,fun within => within⟩,rfl,
      fun answers => answers.2.2 _ _ _ unwound⟩

theorem summaryOf_quiet (address : UInt64) (function : Snapshot) :
    Ends (summaryOf world address function)
      (fun _ after => Quiet limits t after ∧ after.summaries address ≠ none) (QuietStop limits world t) t := by
  unfold summaryOf
  simp only [ends_bind,ends_get]
  split
  · rename_i summary known
    exact ⟨Quiet.refl t,by rw [known]; simp⟩
  · simp only [ends_bind,ends_modify]
    split
    · rename_i summary _
      refine ⟨⟨rfl,rfl,rfl,rfl,rfl,rfl,rfl,fun other known => ?_,fun within => within⟩,by simp⟩
      by_cases same : other = address
      · subst same
        simp
      · simpa [Function.update_of_ne same] using known
    · rename_i unwound
      exact ⟨⟨rfl,rfl,rfl,rfl,rfl,rfl,rfl,fun _ known => known,fun within => within⟩,rfl,
        fun answers => answers.2.1 _ _ unwound⟩

-- What holds in every state of a traversal, whatever was loaded.
structure Within (limits : Limits) (t : Traversal σ) : Prop where
  nodes : t.nodes.length ≤ limits.maxNodes
  depths : ∀ output ∈ t.nodes, output.node.depth ≤ limits.maxDepth
  contexts : t.contexts.length ≤ limits.maxNodes
  callDepths : ∀ context ∈ t.contexts, context.callDepth ≤ limits.maxCallDepth
  callers : ∀ (id : Nat) (context : Context), t.contexts[id]? = some context → ∀ caller ∈ context.callerContext, caller < id
  functions : t.functions.length ≤ limits.maxFunctions
  contextFunctions : ∀ context ∈ t.contexts, context.functionAddress ∈ t.functions
  nodeFunctions : ∀ output ∈ t.nodes, output.functionAddress ∈ t.functions
  work : t.traversalWork ≤ limits.maxWork
  inputs : (t.nodes.map fun output => output.node.inputs.length + output.links.length).sum ≤ t.inputsUsed
  inputsUsed : t.inputsUsed ≤ maxSliceInputs
  once : (t.nodes.map CrossNode.reference).Nodup
  visited : ∀ output ∈ t.nodes, output.reference ∈ t.visited
  frames : t.frames.length = t.contexts.length
  jobs : ∀ job ∈ t.jobs, job.1.contextId < t.contexts.length
  arguments : ∀ frame ∈ t.frames, ∀ argument ∈ frame.callerArguments, argument.2.contextId < t.contexts.length

theorem Within.quiet {before after : Traversal σ} (within : Within limits before) (quiet : Quiet limits before after) :
    Within limits after where
  nodes := by rw [quiet.nodes]; exact within.nodes
  depths := by rw [quiet.nodes]; exact within.depths
  contexts := by rw [quiet.contexts]; exact within.contexts
  callDepths := by rw [quiet.contexts]; exact within.callDepths
  callers := by rw [quiet.contexts]; exact within.callers
  functions := by rw [quiet.functions]; exact within.functions
  contextFunctions := by rw [quiet.contexts,quiet.functions]; exact within.contextFunctions
  nodeFunctions := by rw [quiet.nodes,quiet.functions]; exact within.nodeFunctions
  work := quiet.work within.work
  inputs := by rw [quiet.nodes,quiet.inputsUsed]; exact within.inputs
  inputsUsed := by rw [quiet.inputsUsed]; exact within.inputsUsed
  once := by rw [quiet.nodes]; exact within.once
  visited := by rw [quiet.nodes,quiet.visited]; exact within.visited
  frames := by rw [quiet.frames,quiet.contexts]; exact within.frames
  jobs := by rw [quiet.jobs,quiet.contexts]; exact within.jobs
  arguments := by rw [quiet.frames,quiet.contexts]; exact within.arguments

-- What following a call adds to: the nodes and what has been visited stay.
structure Grown (before after : Traversal σ) : Prop where
  nodes : after.nodes = before.nodes
  visited : after.visited = before.visited
  inputsUsed : after.inputsUsed = before.inputsUsed
  contexts : before.contexts <+: after.contexts
  functions : before.functions ⊆ after.functions
  summaries : ∀ address, before.summaries address ≠ none → after.summaries address ≠ none

theorem Quiet.grown {before after : Traversal σ} (quiet : Quiet limits before after) : Grown before after where
  nodes := quiet.nodes
  visited := quiet.visited
  inputsUsed := quiet.inputsUsed
  contexts := by rw [quiet.contexts]
  functions := by rw [quiet.functions]; exact List.Subset.refl _
  summaries := quiet.summaries

theorem Grown.trans {first second third : Traversal σ} (left : Grown first second) (right : Grown second third) :
    Grown first third where
  nodes := right.nodes.trans left.nodes
  visited := right.visited.trans left.visited
  inputsUsed := right.inputsUsed.trans left.inputsUsed
  contexts := left.contexts.trans right.contexts
  functions := List.Subset.trans left.functions right.functions
  summaries address known := right.summaries address (left.summaries address known)

-- Where a traversal is stopped, its state is as good as any; nothing is looked up that is not there.
structure Halted (limits : Limits) (world : World σ) (signal : Signal) (t : Traversal σ) : Prop where
  within : Within limits t
  inRange : signal ≠ .outOfRange
  room : signal ≠ .failed .nodesNotPositive
  unwound : signal = .unwound → ¬ world.Answers

theorem Within.halted {before after : Traversal σ} (within : Within limits before)
    (stopped : QuietStop limits world before signal after) : Halted limits world signal after :=
  ⟨within.quiet stopped.1,by rw [stopped.2.1]; decide,by rw [stopped.2.1]; decide,fun _ => stopped.2.2⟩

def admitFunction (target : UInt64) (t : Traversal σ) : Traversal σ :=
  { t with functions := if target ∈ t.functions then t.functions else target :: t.functions }

theorem mem_admitFunction (target : UInt64) (t : Traversal σ) : target ∈ (admitFunction target t).functions := by
  unfold admitFunction
  by_cases known : target ∈ t.functions <;> simp [known]

theorem admitFunction_grown (target : UInt64) (t : Traversal σ) : Grown t (admitFunction target t) := by
  refine ⟨rfl,rfl,rfl,List.prefix_refl _,?_,fun _ known => known⟩
  intro address inside
  unfold admitFunction
  by_cases known : target ∈ t.functions <;> simp [known,inside]

theorem Within.admitFunction {target : UInt64} (within : Within limits t)
    (room : ¬ (target ∉ t.functions ∧ limits.maxFunctions ≤ t.functions.length)) :
    Within limits (admitFunction target t) := by
  have grown := (admitFunction_grown target t).functions
  refine ⟨within.nodes,within.depths,within.contexts,within.callDepths,within.callers,?_,
    fun context inside => grown (within.contextFunctions context inside),
    fun output inside => grown (within.nodeFunctions output inside),within.work,within.inputs,within.inputsUsed,
    within.once,within.visited,within.frames,within.jobs,within.arguments⟩
  have few := within.functions
  unfold Interprocedural.admitFunction
  by_cases known : target ∈ t.functions
  · simpa [known] using few
  · simp only [known,if_false,List.length_cons]
    have free : ¬ limits.maxFunctions ≤ t.functions.length := fun full => room ⟨known,full⟩
    omega

def enteredCallee (contextId depth nextDepth : Nat) (call : DependencyCall) (target : UInt64) (callee : Snapshot)
    (summary : DependencySummary) (t : Traversal σ) : Traversal σ :=
  { t with
    contexts := t.contexts ++ [⟨target,some contextId,some call.origin,nextDepth⟩]
    frames := t.frames ++ [⟨callee,call.arguments.map fun argument => (argument.1,⟨contextId,argument.2⟩)⟩]
    jobs := t.jobs ++ (summary.returns.map fun value => (⟨t.contexts.length,value⟩ : Reference)).map
      fun target => (target,depth + 1) }

theorem Within.enteredCallee {contextId depth nextDepth : Nat} {call : DependencyCall} {target : UInt64}
    {callee : Snapshot} {summary : DependencySummary} (within : Within limits t)
    (caller : contextId < t.contexts.length) (shallow : nextDepth ≤ limits.maxCallDepth)
    (known : target ∈ t.functions) (room : ¬ limits.maxNodes ≤ t.contexts.length) :
    Within limits (enteredCallee contextId depth nextDepth call target callee summary t) := by
  refine ⟨within.nodes,within.depths,?_,?_,?_,within.functions,?_,within.nodeFunctions,within.work,within.inputs,
    within.inputsUsed,within.once,within.visited,?_,?_,?_⟩
  · simp only [Interprocedural.enteredCallee,List.length_append,List.length_singleton]
    omega
  · intro context inside
    rcases List.mem_append.mp inside with before | last
    · exact within.callDepths context before
    · rw [List.mem_singleton.mp last]
      exact shallow
  · intro id context found caller' isCaller
    simp only [Interprocedural.enteredCallee] at found
    by_cases old : id < t.contexts.length
    · rw [List.getElem?_append_left old] at found
      exact within.callers id context found caller' isCaller
    · rw [List.getElem?_append_right (Nat.le_of_not_lt old)] at found
      obtain ⟨_,same⟩ := List.getElem?_eq_some_iff.mp found
      rw [List.getElem_singleton] at same
      subst same
      cases isCaller
      omega
  · intro context inside
    rcases List.mem_append.mp inside with before | last
    · exact within.contextFunctions context before
    · rw [List.mem_singleton.mp last]
      exact known
  · simp [Interprocedural.enteredCallee,within.frames]
  · intro job inside
    simp only [Interprocedural.enteredCallee,List.length_append,List.length_singleton]
    rcases List.mem_append.mp inside with before | last
    · exact Nat.lt_succ_of_lt (within.jobs job before)
    · obtain ⟨reference,isReturn,rfl⟩ := List.mem_map.mp last
      obtain ⟨value,_,rfl⟩ := List.mem_map.mp isReturn
      exact Nat.lt_succ_self _
  · intro frame inside argument isArgument
    simp only [Interprocedural.enteredCallee,List.length_append,List.length_singleton]
    rcases List.mem_append.mp inside with before | last
    · exact Nat.lt_succ_of_lt (within.arguments frame before argument isArgument)
    · rw [List.mem_singleton.mp last] at isArgument
      obtain ⟨given,_,rfl⟩ := List.mem_map.mp isArgument
      exact Nat.lt_succ_of_lt caller

theorem enteredCallee_grown (contextId depth nextDepth : Nat) (call : DependencyCall) (target : UInt64)
    (callee : Snapshot) (summary : DependencySummary) (t : Traversal σ) :
    Grown t (enteredCallee contextId depth nextDepth call target callee summary t) :=
  ⟨rfl,rfl,rfl,List.prefix_append _ _,List.Subset.refl _,fun _ known => known⟩

theorem enterCallee_ends (contextId depth nextDepth : Nat) (call : DependencyCall) (target : UInt64)
    (callee : Snapshot) (summary : DependencySummary) {returns : List Link → Traversal σ → Prop} :
    Ends (enterCallee contextId depth nextDepth call target callee summary) returns stops t ↔
      returns ((summary.returns.map fun value => (⟨t.contexts.length,value⟩ : Reference)).map
        fun target => ⟨.callReturn,target,none⟩)
        (enteredCallee contextId depth nextDepth call target callee summary t) :=
  Iff.rfl

-- A call is entered within the limits, or the state stays as it was but for what has been charged and asked.
theorem admitCallee_within (contextId depth nextDepth : Nat) (call : DependencyCall) (target : UInt64) :
    Ends (admitCallee limits world contextId depth nextDepth call target)
      (fun _ after => Grown t after ∧ (Within limits t → contextId < t.contexts.length →
        nextDepth ≤ limits.maxCallDepth → Within limits after))
      (fun signal after => Within limits t → Halted limits world signal after) t := by
  unfold admitCallee
  simp only [ends_bind,ends_get]
  split
  · exact ⟨@Quiet.grown _ limits _ _ (Quiet.refl t),fun within _ _ => within⟩
  rename_i room
  simp only [ends_bind]
  refine (charge_quiet 1).weaken (fun admitted first quiet => ?_) fun signal after stopped within => within.halted stopped
  cases admitted with
  | false => exact ⟨quiet.grown,fun within _ _ => within.quiet quiet⟩
  | true =>
    have room' : ¬ (target ∉ first.functions ∧ limits.maxFunctions ≤ first.functions.length) := by
      rw [quiet.functions]
      exact room
    have grown := quiet.grown.trans (admitFunction_grown target first)
    have known := mem_admitFunction target first
    have kept (within : Within limits t) : Within limits (admitFunction target first) :=
      (within.quiet quiet).admitFunction room'
    simp only [if_true,ends_bind,ends_modify]
    change Ends (loadFunction world target) _ _ (admitFunction target first)
    generalize admitFunction target first = second at grown known kept ⊢
    refine (@loadFunction_quiet _ limits _ _ target).weaken (fun loaded third quiet => ?_)
      fun signal after stopped within => (kept within).halted stopped
    replace grown := grown.trans quiet.grown
    rw [← quiet.functions] at known
    replace kept (within : Within limits t) : Within limits third := (kept within).quiet quiet
    cases loaded with
    | error text =>
      have noted : Quiet limits third { third with stops := third.stops ++ [text] } :=
        ⟨rfl,rfl,rfl,rfl,rfl,rfl,rfl,fun _ known => known,fun within => within⟩
      exact ⟨grown.trans noted.grown,fun within _ _ => (kept within).quiet noted⟩
    | ok callee =>
      simp only [ends_bind]
      refine (charge_quiet _).weaken (fun scanned fourth quiet => ?_)
        fun signal after stopped within => (kept within).halted stopped
      replace grown := grown.trans quiet.grown
      rw [← quiet.functions] at known
      replace kept (within : Within limits t) : Within limits fourth := (kept within).quiet quiet
      cases scanned with
      | false => exact ⟨grown,fun within _ _ => kept within⟩
      | true =>
        simp only [if_true,ends_bind]
        refine (summaryOf_quiet target callee).weaken (fun summary fifth summarised => ?_)
          fun signal after stopped within => (kept within).halted stopped
        obtain ⟨quiet,_⟩ := summarised
        replace grown := grown.trans quiet.grown
        rw [← quiet.functions] at known
        replace kept (within : Within limits t) : Within limits fifth := (kept within).quiet quiet
        split
        · exact ⟨grown,fun within _ _ => kept within⟩
        split
        · exact ⟨grown,fun within _ _ => kept within⟩
        simp only [ends_bind,ends_get]
        split
        · exact ⟨grown,fun within _ _ => kept within⟩
        · rename_i free
          rw [ends_bind,enterCallee_ends]
          refine ⟨grown.trans (enteredCallee_grown _ _ _ _ _ _ _ _),fun within caller shallow => ?_⟩
          exact (kept within).enteredCallee (Nat.lt_of_lt_of_le caller grown.contexts.length_le) shallow known free

theorem ancestorsMeet_found {contexts : List Context} (target : Option UInt64)
    (callers : ∀ (id : Nat) (context : Context), contexts[id]? = some context →
      ∀ caller ∈ context.callerContext, caller < id)
    {fuel id : Nat} (enough : id < fuel) (present : id < contexts.length) :
    ∃ meets, ancestorsMeet contexts target fuel id = some meets := by
  induction fuel generalizing id with
  | zero => exact absurd enough (Nat.not_lt_zero id)
  | succ fuel ih =>
    rw [ancestorsMeet,List.getElem?_eq_getElem present]
    cases above : contexts[id].callerContext with
    | none => exact ⟨_,by simp only [Option.bind_eq_bind,Option.bind_some,above]; rfl⟩
    | some caller =>
      have earlier := callers id contexts[id] (List.getElem?_eq_getElem present) caller above
      obtain ⟨meets,found⟩ := ih (by omega) (earlier.trans present)
      exact ⟨_,by simp only [Option.bind_eq_bind,Option.bind_some,above,found]; rfl⟩

-- What linking a node keeps of it.
structure Linked (before after : CrossNode) : Prop where
  varId : after.node.varId = before.node.varId
  depth : after.node.depth = before.node.depth
  inputs : after.node.inputs.length ≤ before.node.inputs.length
  contextId : after.contextId = before.contextId
  functionAddress : after.functionAddress = before.functionAddress

theorem refusal_depth {nodes nextDepth : Nat} {recursive : Bool} {call : DependencyCall}
    (none_ : refusal limits nodes nextDepth recursive call = none) : nextDepth ≤ limits.maxCallDepth := by
  unfold refusal at none_
  split at none_
  · cases none_
  split at none_
  · cases none_
  split at none_
  · cases none_
  split at none_
  · cases none_
  · rename_i shallow
    exact Nat.le_of_not_lt shallow

theorem followCall_within (contextId : Nat) (function : Snapshot) (output : CrossNode) :
    Ends (followCall limits world contextId function output)
      (fun linked after => Grown t after ∧ Linked output linked ∧
        (Within limits t → contextId < t.contexts.length → Within limits after))
      (fun signal after => Within limits t → contextId < t.contexts.length → Halted limits world signal after) t := by
  unfold followCall
  simp only [ends_bind]
  refine (callOf_quiet function output.node.varId).weaken (fun answer first quiet => ?_)
    fun signal after stopped within _ => within.halted stopped
  cases answer with
  | error reason => exact ⟨quiet.grown,⟨rfl,rfl,le_rfl,rfl,rfl⟩,fun within _ => within.quiet quiet⟩
  | ok call =>
    simp only [ends_bind,ends_get]
    cases context_ : first.contexts[contextId]? with
    | none =>
      refine fun within caller => absurd context_ ?_
      rw [quiet.contexts,List.getElem?_eq_getElem caller]
      exact Option.some_ne_none _
    | some context =>
      rw [ends_found_some]
      cases meets_ : ancestorsMeet first.contexts call.targetAddress first.contexts.length contextId with
      | none =>
        intro within caller
        rw [← quiet.contexts] at caller
        obtain ⟨meets,found⟩ :=
          ancestorsMeet_found call.targetAddress (within.quiet quiet).callers caller caller
        rw [found] at meets_
        cases meets_
      | some recursive =>
        rw [ends_bind,ends_found_some]
        -- The outcome of the call is noted in the node, and where it says so the slice is cut.
        have noted (entered : Option StopReason × List Link) (after : Traversal σ) : Quiet limits after
            { after with truncated := after.truncated || entered.1.any StopReason.truncates } :=
          ⟨rfl,rfl,rfl,rfl,rfl,rfl,rfl,fun _ known => known,fun within => within⟩
        split
        · rename_i target_ refused
          rw [ends_bind]
          refine (admitCallee_within _ _ _ _ _).weaken (fun entered after post => ?_) fun signal after post within caller =>
            post (within.quiet quiet)
          rw [ends_bind,ends_modify,ends_pure]
          refine ⟨(quiet.grown.trans post.1).trans (noted entered after).grown,⟨rfl,rfl,le_rfl,rfl,rfl⟩,
            fun within caller => ?_⟩
          rw [← quiet.contexts] at caller
          exact (post.2 (within.quiet quiet) caller (refusal_depth refused)).quiet (noted entered after)
        · rw [ends_bind,ends_pure,ends_bind,ends_modify,ends_pure]
          exact ⟨quiet.grown.trans (noted (_,[]) first).grown,⟨rfl,rfl,le_rfl,rfl,rfl⟩,
            fun within _ => (within.quiet quiet).quiet (noted (_,[]) first)⟩

theorem bindArgument_within (contextId slot : Nat) (output : CrossNode) :
    Ends (bindArgument contextId slot output)
      (fun linked after => Grown t after ∧ Linked output linked ∧ (Within limits t → Within limits after))
      (fun signal after => Within limits t → contextId < t.contexts.length → Halted limits world signal after) t := by
  unfold bindArgument
  simp only [ends_bind,ends_get]
  cases frame_ : t.frames[contextId]? with
  | none =>
    refine fun within caller => absurd frame_ ?_
    rw [← within.frames] at caller
    rw [List.getElem?_eq_getElem caller]
    exact Option.some_ne_none _
  | some frame =>
    rw [ends_found_some]
    split
    · rename_i actual isArgument
      simp only [ends_bind,ends_modify,ends_pure]
      refine ⟨⟨rfl,rfl,rfl,List.prefix_refl _,List.Subset.refl _,fun _ known => known⟩,
        ⟨rfl,rfl,Nat.zero_le _,rfl,rfl⟩,fun within => ?_⟩
      refine ⟨within.nodes,within.depths,within.contexts,within.callDepths,within.callers,within.functions,
        within.contextFunctions,within.nodeFunctions,within.work,within.inputs,within.inputsUsed,within.once,
        within.visited,within.frames,?_,within.arguments⟩
      intro job inside
      rcases List.mem_append.mp inside with before | last
      · exact within.jobs job before
      · rw [List.mem_singleton.mp last]
        obtain ⟨_,_,shape,_⟩ := List.lookup_eq_some_iff.mp isArgument
        exact within.arguments frame (List.mem_of_getElem? frame_) (slot,actual) (by rw [shape]; simp)
    · exact ⟨@Quiet.grown _ limits _ _ (Quiet.refl t),⟨rfl,rfl,le_rfl,rfl,rfl⟩,fun within => within⟩

theorem linkNode_within (contextId : Nat) (function : Snapshot) (slot : Option Nat) (output : CrossNode) :
    Ends (linkNode limits world contextId function slot output)
      (fun linked after => Grown t after ∧ Linked output linked ∧
        (Within limits t → contextId < t.contexts.length → Within limits after))
      (fun signal after => Within limits t → contextId < t.contexts.length → Halted limits world signal after) t := by
  unfold linkNode
  split
  · exact (bindArgument_within _ _ _).weaken (fun linked after post => ⟨post.1,post.2.1,fun within _ => post.2.2 within⟩)
      fun signal after post => post
  split
  · exact followCall_within contextId function output
  · exact ⟨@Quiet.grown _ limits _ _ (Quiet.refl t),⟨rfl,rfl,le_rfl,rfl,rfl⟩,fun within _ => within⟩

-- Inputs or links are counted.
structure Took (amount : Nat) (before after : Traversal σ) : Prop where
  nodes : after.nodes = before.nodes
  contexts : after.contexts = before.contexts
  frames : after.frames = before.frames
  functions : after.functions = before.functions
  visited : after.visited = before.visited
  jobs : after.jobs = before.jobs
  summaries : after.summaries = before.summaries
  work : after.traversalWork = before.traversalWork
  inputsUsed : after.inputsUsed = before.inputsUsed + amount
  bounded : before.inputsUsed ≤ maxSliceInputs → after.inputsUsed ≤ maxSliceInputs

theorem Within.took {amount : Nat} {before after : Traversal σ} (within : Within limits before)
    (took : Took amount before after) : Within limits after where
  nodes := by rw [took.nodes]; exact within.nodes
  depths := by rw [took.nodes]; exact within.depths
  contexts := by rw [took.contexts]; exact within.contexts
  callDepths := by rw [took.contexts]; exact within.callDepths
  callers := by rw [took.contexts]; exact within.callers
  functions := by rw [took.functions]; exact within.functions
  contextFunctions := by rw [took.contexts,took.functions]; exact within.contextFunctions
  nodeFunctions := by rw [took.nodes,took.functions]; exact within.nodeFunctions
  work := by rw [took.work]; exact within.work
  inputs := by rw [took.nodes,took.inputsUsed]; exact within.inputs.trans (Nat.le_add_right _ _)
  inputsUsed := took.bounded within.inputsUsed
  once := by rw [took.nodes]; exact within.once
  visited := by rw [took.nodes,took.visited]; exact within.visited
  frames := by rw [took.frames,took.contexts]; exact within.frames
  jobs := by rw [took.jobs,took.contexts]; exact within.jobs
  arguments := by rw [took.frames,took.contexts]; exact within.arguments

theorem takeInputs_took (node : SliceNode) :
    Ends (takeInputs node)
      (fun taken after => taken.varId = node.varId ∧ taken.depth = node.depth ∧ Took taken.inputs.length t after)
      (fun _ _ => False) t := by
  unfold takeInputs
  simp only [ends_bind,ends_get]
  split
  · rw [ends_bind,ends_modify,ends_pure]
    refine ⟨rfl,rfl,rfl,rfl,rfl,rfl,rfl,rfl,rfl,rfl,rfl,fun within => ?_⟩
    simp only [List.length_take]
    omega
  · rename_i room
    rw [ends_bind,ends_modify,ends_pure]
    refine ⟨rfl,rfl,rfl,rfl,rfl,rfl,rfl,rfl,rfl,rfl,rfl,fun within => ?_⟩
    dsimp only
    omega

theorem takeLinks_took (output : CrossNode) :
    Ends (takeLinks output) (fun taken after => Linked output taken ∧ Took taken.links.length t after)
      (fun _ _ => False) t := by
  unfold takeLinks
  simp only [ends_bind,ends_get]
  split
  · rw [ends_bind,ends_modify,ends_pure]
    refine ⟨⟨rfl,rfl,le_rfl,rfl,rfl⟩,rfl,rfl,rfl,rfl,rfl,rfl,rfl,rfl,rfl,fun within => ?_⟩
    simp only [List.length_take]
    omega
  · rename_i room
    rw [ends_bind,ends_modify,ends_pure]
    refine ⟨⟨rfl,rfl,le_rfl,rfl,rfl⟩,rfl,rfl,rfl,rfl,rfl,rfl,rfl,rfl,rfl,fun within => ?_⟩
    dsimp only
    omega

theorem Linked.trans {first second third : CrossNode} (left : Linked first second) (right : Linked second third) :
    Linked first third where
  varId := right.varId.trans left.varId
  depth := right.depth.trans left.depth
  inputs := right.inputs.trans left.inputs
  contextId := right.contextId.trans left.contextId
  functionAddress := right.functionAddress.trans left.functionAddress

def visit (reference : Reference) (t : Traversal σ) : Traversal σ := { t with visited := reference :: t.visited }

theorem Within.visit (within : Within limits t) (reference : Reference) : Within limits (visit reference t) :=
  ⟨within.nodes,within.depths,within.contexts,within.callDepths,within.callers,within.functions,
    within.contextFunctions,within.nodeFunctions,within.work,within.inputs,within.inputsUsed,within.once,
    fun output inside => List.mem_cons_of_mem _ (within.visited output inside),within.frames,within.jobs,
    within.arguments⟩

def pushNode (output : CrossNode) (t : Traversal σ) : Traversal σ := { t with nodes := t.nodes ++ [output] }

theorem Within.pushNode {output : CrossNode} (within : Within limits t) (room : t.nodes.length < limits.maxNodes)
    (shallow : output.node.depth ≤ limits.maxDepth) (known : output.functionAddress ∈ t.functions)
    (seen : output.reference ∈ t.visited) (fresh : ∀ other ∈ t.nodes, other.reference ≠ output.reference)
    (paid : (t.nodes.map fun output => output.node.inputs.length + output.links.length).sum +
      (output.node.inputs.length + output.links.length) ≤ t.inputsUsed) :
    Within limits (pushNode output t) := by
  have either {P : CrossNode → Prop} (old : ∀ other ∈ t.nodes, P other) (new : P output) :
      ∀ other ∈ t.nodes ++ [output], P other := by
    intro other inside
    rcases List.mem_append.mp inside with before | last
    · exact old other before
    · rw [List.mem_singleton.mp last]
      exact new
  refine ⟨?_,either within.depths shallow,within.contexts,within.callDepths,within.callers,within.functions,
    within.contextFunctions,either within.nodeFunctions known,within.work,?_,within.inputsUsed,?_,
    either within.visited seen,within.frames,within.jobs,within.arguments⟩
  · simp only [Interprocedural.pushNode,List.length_append,List.length_singleton]
    omega
  · simpa [Interprocedural.pushNode] using paid
  · simp only [Interprocedural.pushNode,List.map_append,List.map_cons,List.map_nil]
    refine List.nodup_append.mpr ⟨within.once,List.nodup_singleton _,?_⟩
    intro reference inside other last same
    obtain ⟨before,isNode,rfl⟩ := List.mem_map.mp inside
    exact fresh before isNode (same.trans (List.mem_singleton.mp last))

-- What a round of the traversal adds to: either nothing was added, or a node.
structure Advanced (before after : Traversal σ) : Prop where
  contexts : before.contexts <+: after.contexts
  functions : before.functions ⊆ after.functions
  summaries : ∀ address, before.summaries address ≠ none → after.summaries address ≠ none
  progress : after.nodes = before.nodes ∧ after.jobs = before.jobs ∨ before.nodes.length < after.nodes.length
  nodes : before.nodes.length ≤ after.nodes.length

theorem Advanced.trans {first second third : Traversal σ} (left : Advanced first second)
    (right : Advanced second third) : Advanced first third where
  contexts := left.contexts.trans right.contexts
  functions := List.Subset.trans left.functions right.functions
  summaries address known := right.summaries address (left.summaries address known)
  progress := by
    rcases left.progress with ⟨nodes,jobs⟩ | more
    · rw [← nodes,← jobs]
      exact right.progress
    · exact .inr (Nat.lt_of_lt_of_le more right.nodes)
  nodes := left.nodes.trans right.nodes

theorem Advanced.refl (t : Traversal σ) : Advanced t t :=
  ⟨List.prefix_refl _,List.Subset.refl _,fun _ known => known,.inl ⟨rfl,rfl⟩,le_rfl⟩

theorem keepNode_within (output : CrossNode) :
    Ends (keepNode output)
      (fun _ after => after.contexts = t.contexts ∧ after.functions = t.functions ∧ after.summaries = t.summaries ∧
        after.nodes.length = t.nodes.length + 1 ∧
        (Within limits t → t.nodes.length < limits.maxNodes → output.node.depth ≤ limits.maxDepth →
          output.functionAddress ∈ t.functions → output.reference ∈ t.visited →
          (∀ other ∈ t.nodes, other.reference ≠ output.reference) →
          (t.nodes.map fun output => output.node.inputs.length + output.links.length).sum + output.node.inputs.length ≤
            t.inputsUsed → Within limits after))
      (fun _ _ => False) t := by
  unfold keepNode
  rw [ends_bind]
  refine (takeLinks_took output).weaken (fun cut first post => ?_) fun _ _ none_ => none_
  obtain ⟨link,took⟩ := post
  have reference : cut.reference = output.reference := by
    rw [CrossNode.reference,CrossNode.reference,link.varId,link.contextId]
  have pushed : Within limits t → t.nodes.length < limits.maxNodes → output.node.depth ≤ limits.maxDepth →
      output.functionAddress ∈ t.functions → output.reference ∈ t.visited →
      (∀ other ∈ t.nodes, other.reference ≠ output.reference) →
      (t.nodes.map fun output => output.node.inputs.length + output.links.length).sum + output.node.inputs.length ≤
        t.inputsUsed → Within limits (pushNode cut first) := by
    intro within room shallow known seen fresh paid
    refine (within.took took).pushNode (by rw [took.nodes]; exact room) (by rw [link.depth]; exact shallow)
      (by rw [took.functions,link.functionAddress]; exact known) (by rw [took.visited,reference]; exact seen)
      (by rw [took.nodes,reference]; exact fresh) ?_
    have inputs := link.inputs
    rw [took.nodes,took.inputsUsed]
    omega
  have longer : (pushNode cut first).nodes.length = t.nodes.length + 1 := by
    rw [pushNode,List.length_append,List.length_singleton,took.nodes]
  rw [ends_bind,ends_modify]
  change Ends _ _ _ (pushNode cut first)
  rw [ends_bind,ends_get]
  split
  · rw [ends_bind,ends_modify,ends_pure]
    refine ⟨took.contexts,took.functions,took.summaries,longer,fun within room shallow known seen fresh paid => ?_⟩
    exact (pushed within room shallow known seen fresh paid).quiet
      ⟨rfl,rfl,rfl,rfl,rfl,rfl,rfl,fun _ known => known,fun within => within⟩
  · exact ⟨took.contexts,took.functions,took.summaries,longer,pushed⟩

theorem Quiet.advanced {before after : Traversal σ} (quiet : Quiet limits before after) : Advanced before after :=
  ⟨quiet.grown.contexts,quiet.grown.functions,quiet.summaries,.inl ⟨quiet.nodes,quiet.jobs⟩,by rw [quiet.nodes]⟩

-- One node: it is added within the limits, or left out.
theorem addNode_within (contextId : Nat) (address : UInt64) (function : Snapshot) (depth : Nat) (node : SliceNode) :
    Ends (addNode limits world contextId address function depth node)
      (fun _ after => Advanced t after ∧ after.nodes.length ≤ t.nodes.length + 1 ∧
        (Within limits t → contextId < t.contexts.length → t.summaries address ≠ none → address ∈ t.functions →
          t.nodes.length < limits.maxNodes → node.depth + depth ≤ limits.maxDepth → Within limits after))
      (fun signal after => Within limits t → contextId < t.contexts.length → t.summaries address ≠ none →
        Halted limits world signal after) t := by
  unfold addNode
  simp only [ends_bind,ends_get]
  split
  · exact ⟨Advanced.refl t,Nat.le_succ _,fun within _ _ _ _ _ => within⟩
  rename_i unseen
  simp only [ends_bind,ends_modify]
  change Ends (charge limits _) _ _ (visit ⟨contextId,node.varId⟩ t)
  have fresh : Within limits t → ∀ other ∈ t.nodes, other.reference ≠ ⟨contextId,node.varId⟩ :=
    fun within other inside same => unseen (same ▸ within.visited other inside)
  have kept (within : Within limits t) := within.visit ⟨contextId,node.varId⟩
  refine (charge_quiet _).weaken (fun charged first quiet => ?_)
    fun signal after stopped within _ _ => (kept within).halted stopped
  have begun : Advanced t first :=
    ⟨quiet.grown.contexts,quiet.grown.functions,quiet.summaries,.inl ⟨quiet.nodes,quiet.jobs⟩,by rw [quiet.nodes]; rfl⟩
  have nodes : first.nodes = t.nodes := quiet.nodes
  have seen : (⟨contextId,node.varId⟩ : Reference) ∈ first.visited := by
    rw [quiet.visited]
    exact List.mem_cons_self
  replace kept (within : Within limits t) : Within limits first := (kept within).quiet quiet
  cases charged with
  | false => exact ⟨begun,by rw [nodes]; exact Nat.le_succ _,fun within _ _ _ _ _ => kept within⟩
  | true =>
    simp only [if_true,ends_bind]
    refine (takeInputs_took _).weaken (fun taken second post => ?_) fun _ _ none_ => none_.elim
    obtain ⟨varId,shallow,took⟩ := post
    rw [ends_bind,ends_get,ends_bind]
    have summaries : second.summaries = first.summaries := took.summaries
    cases summary_ : second.summaries address with
    | none =>
      intro within _ known
      rw [summaries] at summary_
      exact absurd summary_ (begun.summaries address known)
    | some summary =>
      rw [ends_found_some,ends_bind]
      refine (linkNode_within contextId function _ _).weaken (fun linked third post => ?_)
        fun signal after stopped within caller known => stopped ((kept within).took took) ?_
      · obtain ⟨grown,link,still⟩ := post
        rw [ends_bind]
        refine (charge_quiet _).weaken (fun paid fourth quiet => ?_)
          fun signal after stopped within caller _ => (still ((kept within).took took) ?_).halted stopped
        · have output : Linked ⟨taken,contextId,address,[],none⟩
              (if paid = true then linked
              else { linked with node := { linked.node with boundary := some .traversalWorkLimit } }) := by
            refine link.trans ?_
            split <;> exact ⟨rfl,rfl,le_rfl,rfl,rfl⟩
          generalize (if paid = true then linked
            else { linked with node := { linked.node with boundary := some .traversalWorkLimit } }) = output_ at output ⊢
          refine (@keepNode_within _ limits _ output_).weaken (fun _ fifth post => ?_) fun _ _ none_ => none_.elim
          obtain ⟨contexts,functions,summaries',longer,pushed⟩ := post
          have nodes4 : fourth.nodes = t.nodes := by rw [quiet.nodes,grown.nodes,took.nodes,nodes]
          rw [nodes4] at longer pushed
          refine ⟨⟨?_,?_,?_,.inr (by omega),by omega⟩,longer.le,?_⟩
          · rw [contexts,quiet.contexts]
            exact begun.contexts.trans (by rw [← took.contexts]; exact grown.contexts)
          · rw [functions,quiet.functions]
            exact List.Subset.trans begun.functions (by rw [← took.functions]; exact grown.functions)
          · intro other known
            rw [summaries']
            refine quiet.summaries other (grown.summaries other ?_)
            rw [summaries]
            exact begun.summaries other known
          · intro within caller _ known room shallow'
            have caller' : contextId < second.contexts.length := by
              rw [took.contexts]
              exact Nat.lt_of_lt_of_le caller begun.contexts.length_le
            have reference : output_.reference = ⟨contextId,node.varId⟩ := by
              rw [CrossNode.reference,output.varId,output.contextId,varId]
            refine pushed ((still ((kept within).took took) caller').quiet quiet) room
              (by rw [output.depth,shallow]; exact shallow') ?_ ?_ (by rw [reference]; exact fresh within) ?_
            · rw [output.functionAddress,quiet.functions]
              exact grown.functions (by rw [took.functions]; exact begun.functions known)
            · rw [reference,quiet.visited,grown.visited,took.visited]
              exact seen
            · have inputs := output.inputs
              have before := (kept within).inputs
              rw [nodes] at before
              rw [quiet.inputsUsed,grown.inputsUsed,took.inputsUsed]
              dsimp only at inputs
              omega
        · rw [took.contexts]
          exact Nat.lt_of_lt_of_le caller begun.contexts.length_le
      · rw [took.contexts]
        exact Nat.lt_of_lt_of_le caller begun.contexts.length_le

theorem addNodes_within (contextId : Nat) (address : UInt64) (function : Snapshot) (depth : Nat)
    (nodes : List SliceNode) :
    Ends (addNodes limits world contextId address function depth nodes)
      (fun _ after => Advanced t after ∧
        (Within limits t → contextId < t.contexts.length → t.summaries address ≠ none → address ∈ t.functions →
          t.nodes.length + nodes.length ≤ limits.maxNodes →
          (∀ node ∈ nodes, node.depth + depth ≤ limits.maxDepth) → Within limits after))
      (fun signal after => Within limits t → contextId < t.contexts.length → t.summaries address ≠ none →
        address ∈ t.functions → t.nodes.length + nodes.length ≤ limits.maxNodes →
        (∀ node ∈ nodes, node.depth + depth ≤ limits.maxDepth) → Halted limits world signal after) t := by
  induction nodes generalizing t with
  | nil => exact ⟨Advanced.refl t,fun within _ _ _ _ _ => within⟩
  | cons node rest ih =>
    rw [addNodes,ends_bind]
    refine (addNode_within contextId address function depth node).weaken (fun more first post => ?_)
      fun signal after stopped within caller summarised _ _ _ => stopped within caller summarised
    obtain ⟨begun,counted,still⟩ := post
    have kept (within : Within limits t) (caller : contextId < t.contexts.length)
        (summarised : t.summaries address ≠ none) (known : address ∈ t.functions)
        (room : t.nodes.length + (node :: rest).length ≤ limits.maxNodes)
        (shallow : ∀ other ∈ node :: rest, other.depth + depth ≤ limits.maxDepth) : Within limits first := by
      rw [List.length_cons] at room
      exact still within caller summarised known (by omega) (shallow node List.mem_cons_self)
    cases more with
    | false => exact ⟨begun,kept⟩
    | true =>
      -- The rest runs from a state that has at most one node more.
      have room_ (room : t.nodes.length + (node :: rest).length ≤ limits.maxNodes) :
          first.nodes.length + rest.length ≤ limits.maxNodes := by
        rw [List.length_cons] at room
        omega
      refine ih.weaken (fun _ after post => ?_) fun signal after stopped within caller summarised known room shallow => ?_
      · refine ⟨begun.trans post.1,fun within caller summarised known room shallow => ?_⟩
        exact post.2 (kept within caller summarised known room shallow)
          (Nat.lt_of_lt_of_le caller begun.contexts.length_le) (begun.summaries address summarised)
          (begun.functions known) (room_ room) fun other inside => shallow other (List.mem_cons_of_mem _ inside)
      · exact stopped (kept within caller summarised known room shallow)
          (Nat.lt_of_lt_of_le caller begun.contexts.length_le) (begun.summaries address summarised)
          (begun.functions known) (room_ room) fun other inside => shallow other (List.mem_cons_of_mem _ inside)

theorem addBlocks_quiet (contextId : Nat) (blocks : List SliceBlock) (before : Traversal σ) :
    Quiet limits before (blocks.foldl (addBlock contextId) before) := by
  induction blocks generalizing before with
  | nil => exact Quiet.refl before
  | cons block rest ih =>
    refine Quiet.trans ?_ (ih _)
    unfold addBlock
    split
    · exact Quiet.refl before
    split
    · exact ⟨rfl,rfl,rfl,rfl,rfl,rfl,rfl,fun _ known => known,fun within => within⟩
    · exact ⟨rfl,rfl,rfl,rfl,rfl,rfl,rfl,fun _ known => known,fun within => within⟩

theorem visitReference_within (reference : Reference) (depth : Nat) :
    Ends (visitReference limits world reference depth)
      (fun _ after => Advanced t after ∧
        (Within limits t → reference.contextId < t.contexts.length → t.nodes.length < limits.maxNodes →
          depth ≤ limits.maxDepth → Within limits after))
      (fun signal after => Within limits t → reference.contextId < t.contexts.length →
        t.nodes.length < limits.maxNodes → depth ≤ limits.maxDepth → Halted limits world signal after) t := by
  unfold visitReference
  rw [ends_bind,ends_get,ends_bind]
  cases context_ : t.contexts[reference.contextId]? with
  | none =>
    intro within caller
    rw [List.getElem?_eq_getElem caller] at context_
    cases context_
  | some context =>
    rw [ends_found_some,ends_bind]
    cases frame_ : t.frames[reference.contextId]? with
    | none =>
      intro within caller
      rw [← within.frames] at caller
      rw [List.getElem?_eq_getElem caller] at frame_
      cases frame_
    | some frame =>
      rw [ends_found_some,ends_bind]
      refine (charge_quiet _).weaken (fun scanned first quiet => ?_) fun signal after stopped within _ _ _ =>
        within.halted stopped
      cases scanned with
      | false => exact ⟨quiet.advanced,fun within _ _ _ => within.quiet quiet⟩
      | true =>
        simp only [if_true]
        rw [ends_bind]
        refine (summaryOf_quiet _ _).weaken (fun summary second post => ?_) fun signal after stopped within _ _ _ =>
          (within.quiet quiet).halted stopped
        replace quiet := quiet.trans post.1
        have summarised := post.2
        split
        · rename_i failure made
          intro within _ room _
          have positive : 0 < limits.maxNodes - t.nodes.length := by omega
          refine ⟨within.quiet quiet,by simp,?_,by simp⟩
          rcases backwardSlice_within frame.function reference.varId _ (limits.maxDepth - depth) positive
            with ⟨failed,_⟩ | ⟨slice,given,_⟩
          · rw [failed] at made
            cases made
            simp
          · rw [given] at made
            cases made
        · rename_i slice made
          cases slice with
          | none =>
            intro within _ room _
            have positive : 0 < limits.maxNodes - t.nodes.length := by omega
            rcases backwardSlice_within frame.function reference.varId _ (limits.maxDepth - depth) positive
              with ⟨failed,_⟩ | ⟨slice,given,_⟩
            · rw [failed] at made
              cases made
            · rw [given] at made
              cases made
          | some slice =>
            rw [ends_bind,ends_found_some,ends_bind,ends_modify,ends_bind]
            have third := @addBlocks_quiet _ limits reference.contextId slice.blocks
              { second with truncated := second.truncated || slice.truncated }
            generalize slice.blocks.foldl (addBlock reference.contextId)
              { second with truncated := second.truncated || slice.truncated } = local_ at third ⊢
            have cut : Quiet limits second { second with truncated := second.truncated || slice.truncated } :=
              ⟨rfl,rfl,rfl,rfl,rfl,rfl,rfl,fun _ known => known,fun within => within⟩
            have blocks : Quiet limits second local_ := cut.trans third
            replace quiet := quiet.trans blocks
            -- The slice is of the nodes and the depth that are left.
            have ready (within : Within limits t) (caller : reference.contextId < t.contexts.length)
                (room : t.nodes.length < limits.maxNodes) (shallow : depth ≤ limits.maxDepth) :
                Within limits local_ ∧ reference.contextId < local_.contexts.length ∧
                  local_.summaries context.functionAddress ≠ none ∧ context.functionAddress ∈ local_.functions ∧
                  local_.nodes.length + slice.nodes.length ≤ limits.maxNodes ∧
                  ∀ node ∈ slice.nodes, node.depth + depth ≤ limits.maxDepth := by
              have positive : 0 < limits.maxNodes - t.nodes.length := by omega
              rcases backwardSlice_within frame.function reference.varId _ (limits.maxDepth - depth) positive
                with ⟨failed,_⟩ | ⟨slice',given,few,depths⟩
              · rw [failed] at made
                cases made
              · rw [given] at made
                cases made
                refine ⟨within.quiet quiet,by rw [quiet.contexts]; exact caller,
                  blocks.summaries _ summarised,?_,?_,?_⟩
                · rw [quiet.functions]
                  exact within.contextFunctions context (List.mem_of_getElem? context_)
                · rw [quiet.nodes]
                  omega
                · intro node inside
                  have shallow' := depths node inside
                  omega
            refine (addNodes_within _ _ _ _ _).weaken (fun _ after post => ?_)
              fun signal after stopped within caller room shallow => ?_
            · rw [ends_pure]
              refine ⟨quiet.advanced.trans post.1,fun within caller room shallow => ?_⟩
              obtain ⟨within',caller',summarised',known,room',shallow'⟩ := ready within caller room shallow
              exact post.2 within' caller' summarised' known room' shallow'
            · obtain ⟨within',caller',summarised',known,room',shallow'⟩ := ready within caller room shallow
              exact stopped within' caller' summarised' known room' shallow'

theorem visitJob_within (reference : Reference) (depth : Nat) :
    Ends (visitJob limits world reference depth)
      (fun _ after => Advanced t after ∧ (t.nodes.length < after.nodes.length → t.nodes.length < limits.maxNodes) ∧
        (Within limits t → reference.contextId < t.contexts.length → Within limits after))
      (fun signal after => Within limits t → reference.contextId < t.contexts.length → Halted limits world signal after)
      t := by
  unfold visitJob
  rw [ends_bind,ends_get]
  split
  · exact ⟨Advanced.refl t,fun more => absurd more (Nat.lt_irrefl _),fun within _ => within⟩
  split
  · rw [ends_bind,ends_modify,ends_pure]
    have quiet : Quiet limits t
        { t with
          truncated := true
          stops := t.stops ++ [if limits.maxDepth < depth then "depth_limit" else "node_limit"] } :=
      ⟨rfl,rfl,rfl,rfl,rfl,rfl,rfl,fun _ known => known,fun within => within⟩
    exact ⟨quiet.advanced,fun more => absurd more (Nat.lt_irrefl _),fun within _ => within.quiet quiet⟩
  · rename_i left
    rw [not_or,Nat.not_lt,Nat.not_le] at left
    exact (visitReference_within reference depth).weaken
      (fun _ after post => ⟨post.1,fun _ => left.2,fun within caller => post.2 within caller left.2 left.1⟩)
      fun signal after stopped within caller => stopped within caller left.2 left.1

theorem outcome_of_ends {program : Run σ α} {returns : α → Traversal σ → Prop} {value : α} {after : Traversal σ}
    (ends : Ends program returns stops t) (ran : outcome program t = (.ok value,after)) : returns value after := by
  unfold Ends at ends
  rw [ran] at ends
  exact ends

theorem outcome_of_stop {program : Run σ α} {returns : α → Traversal σ → Prop} {signal : Signal} {after : Traversal σ}
    (ends : Ends program returns stops t) (ran : outcome program t = (.error signal,after)) : stops signal after := by
  unfold Ends at ends
  rw [ran] at ends
  exact ends

end Rules

section Traverse

variable {σ : Type} (limits : Limits) (world : World σ)

theorem visitJob_decreases {t after : Traversal σ} {reference : Reference} {depth : Nat}
    {rest : List (Reference × Nat)} {value : Bool} (queued : t.jobs = (reference,depth) :: rest)
    (ran : outcome (visitJob limits world reference depth) { t with jobs := rest } = (.ok value,after)) :
    Prod.Lex (· < ·) (· < ·) (limits.maxNodes - after.nodes.length,after.jobs.length)
      (limits.maxNodes - t.nodes.length,t.jobs.length) := by
  obtain ⟨advanced,room,_⟩ := outcome_of_ends (visitJob_within reference depth) ran
  rcases advanced.progress with ⟨nodes,jobs⟩ | more
  · rw [nodes,jobs,queued]
    exact .right _ (Nat.lt_succ_self _)
  · have free := room more
    refine .left _ _ ?_
    dsimp only at more free
    omega

def traverse (t : Traversal σ) : Except Signal Unit × Traversal σ :=
  match _queued : t.jobs with
  | [] => (.ok (),t)
  | (reference,depth) :: rest =>
    match _ran : outcome (visitJob limits world reference depth) { t with jobs := rest } with
    | (.ok true,next) => traverse next
    | (.ok false,next) => (.ok (),next)
    | (.error signal,next) => (.error signal,next)
termination_by (limits.maxNodes - t.nodes.length,t.jobs.length)
decreasing_by exact visitJob_decreases limits world _queued _ran

variable {limits world}

theorem traverse_done {t : Traversal σ} (empty : t.jobs = []) : traverse limits world t = (.ok (),t) := by
  rw [traverse]
  split
  · rfl
  · rename_i queued
    rw [empty] at queued
    cases queued

theorem traverse_round {t : Traversal σ} (queued : t.jobs = (reference,depth) :: rest) :
    traverse limits world t =
      match outcome (visitJob limits world reference depth) { t with jobs := rest } with
      | (.ok true,next) => traverse limits world next
      | (.ok false,next) => (.ok (),next)
      | (.error signal,next) => (.error signal,next) := by
  rw [traverse]
  split
  · rename_i none_
    rw [queued] at none_
    cases none_
  · rename_i queued'
    rw [queued] at queued'
    cases queued'
    split <;> rename_i ran <;> rw [ran]

theorem Within.next {t : Traversal σ} (within : Within limits t) (queued : t.jobs = job :: rest) :
    Within limits { t with jobs := rest } :=
  ⟨within.nodes,within.depths,within.contexts,within.callDepths,within.callers,within.functions,
    within.contextFunctions,within.nodeFunctions,within.work,within.inputs,within.inputsUsed,within.once,
    within.visited,within.frames,
    fun other inside => within.jobs other (by rw [queued]; exact List.mem_cons_of_mem _ inside),within.arguments⟩

theorem traverse_within (t : Traversal σ) (within : Within limits t) :
    Within limits (traverse limits world t).2 ∧
      ∀ signal, (traverse limits world t).1 = .error signal → Halted limits world signal (traverse limits world t).2 := by
  induction t using traverse.induct limits world with
  | case1 t empty =>
    rw [traverse_done empty]
    exact ⟨within,by simp⟩
  | case2 t reference depth rest queued next ran ih =>
    have job := within.jobs (reference,depth) (by rw [queued]; exact List.mem_cons_self)
    rw [traverse_round queued,ran]
    exact ih ((outcome_of_ends (visitJob_within reference depth) ran).2.2 (within.next queued) job)
  | case3 t reference depth rest queued next ran =>
    have job := within.jobs (reference,depth) (by rw [queued]; exact List.mem_cons_self)
    rw [traverse_round queued,ran]
    exact ⟨(outcome_of_ends (visitJob_within reference depth) ran).2.2 (within.next queued) job,by simp⟩
  | case4 t reference depth rest queued signal next ran =>
    have job := within.jobs (reference,depth) (by rw [queued]; exact List.mem_cons_self)
    rw [traverse_round queued,ran]
    have halted := outcome_of_stop (visitJob_within reference depth) ran (within.next queued) job
    refine ⟨halted.within,fun other same => ?_⟩
    cases same
    exact halted

end Traverse

-- The slice that is returned.
structure CrossSlice where
  root : VarId
  rootContext : Nat
  nodes : List CrossNode
  blocks : List (Nat × SliceBlock)
  contexts : List Context
  complete : Bool
  truncated : Bool
  limits : Limits
  functionsVisited : Nat
  contextsCreated : Nat
  traversalWork : Nat
  stops : List String

section Finish

variable {σ : Type}

-- The inputs and links whose target is not included stop there.
def markInput (included : List Reference) (contextId : Nat) (input : SliceInput) : SliceInput :=
  if input.stopReason.isNone ∧ (⟨contextId,input.varId⟩ : Reference) ∉ included then
    { input with stopReason := some .traversalLimit }
  else input

def markLink (included : List Reference) (link : Link) : Link :=
  if link.target ∉ included then { link with stopReason := some .traversalLimit } else link

def markNode (included : List Reference) (output : CrossNode) : CrossNode :=
  { output with
    node := { output.node with inputs := output.node.inputs.map (markInput included output.contextId) }
    links := output.links.map (markLink included) }

def finish (root : VarId) (limits : Limits) (t : Traversal σ) : CrossSlice :=
  let nodes := t.nodes.map (markNode (t.nodes.map CrossNode.reference))
  { root := root
    rootContext := 0
    nodes := nodes
    blocks := t.blocks
    contexts := t.contexts
    complete := !t.truncated && t.stops.isEmpty && nodes.all fun output =>
      output.node.boundary.isNone && output.node.inputs.all (fun input => input.stopReason.isNone) &&
        output.links.all fun link => link.stopReason.isNone
    truncated := t.truncated
    limits := limits
    functionsVisited := t.functions.length
    contextsCreated := t.contexts.length
    traversalWork := t.traversalWork
    stops := t.stops }

def start (address : UInt64) (root : VarId) (function : Snapshot) (s : σ) : Traversal σ where
  nodes := []
  blocks := []
  contexts := [⟨address,none,none,0⟩]
  truncated := false
  stops := []
  traversalWork := 0
  frames := [⟨function,[]⟩]
  summaries _ := none
  functions := [address]
  visited := []
  jobs := [(⟨0,root⟩,0)]
  inputsUsed := 0
  blockSeen := []
  world := s

-- Why there is no slice. What unwinds while the execution budget is stopped leaves a partial one.
inductive Failure where
  | limitsNotPositive
  | slice (failure : SliceFailure)
  | panicked
  deriving DecidableEq

def backward (world : World σ) (s : σ) (address : UInt64) (root : VarId) (function : Snapshot) (limits : Limits) :
    Except Failure CrossSlice :=
  let limits := limits.bounded
  if limits.maxNodes = 0 ∨ limits.maxFunctions = 0 then .error .limitsNotPositive
  else
    match traverse limits world (start address root function s) with
    | (.ok (),t) => .ok (finish root limits t)
    | (.error (.failed failure),_) => .error (.slice failure)
    | (.error _,t) =>
      if world.stopped t.world then
        .ok (finish root limits { t with truncated := true, stops := t.stops ++ ["execution_limit"] })
      else .error .panicked

end Finish

-- A slice that keeps its limits.
structure CrossSlice.Limited (limits : Limits) (slice : CrossSlice) : Prop where
  nodes : slice.nodes.length ≤ limits.maxNodes
  depths : ∀ output ∈ slice.nodes, output.node.depth ≤ limits.maxDepth
  contexts : slice.contexts.length ≤ limits.maxNodes
  callDepths : ∀ context ∈ slice.contexts, context.callDepth ≤ limits.maxCallDepth
  functionsVisited : slice.functionsVisited ≤ limits.maxFunctions
  functions : (slice.nodes.map CrossNode.functionAddress ++ slice.contexts.map Context.functionAddress).toFinset.card ≤
    slice.functionsVisited
  work : slice.traversalWork ≤ limits.maxWork
  inputs : (slice.nodes.map fun output => output.node.inputs.length + output.links.length).sum ≤ maxSliceInputs
  once : (slice.nodes.map CrossNode.reference).Nodup
  inputsStop : ∀ output ∈ slice.nodes, ∀ input ∈ output.node.inputs,
    ⟨output.contextId,input.varId⟩ ∉ slice.nodes.map CrossNode.reference → input.stopReason ≠ none
  linksStop : ∀ output ∈ slice.nodes, ∀ link ∈ output.links,
    link.target ∉ slice.nodes.map CrossNode.reference → link.stopReason ≠ none

section Limited

variable {σ : Type} {limits : Limits} {t : Traversal σ}

theorem markInput_stops (included : List Reference) (contextId : Nat) (input : SliceInput)
    (outside : ⟨contextId,(markInput included contextId input).varId⟩ ∉ included) :
    (markInput included contextId input).stopReason ≠ none := by
  unfold markInput at outside ⊢
  split
  · simp
  · rename_i kept
    rw [if_neg kept] at outside
    intro none_
    exact kept ⟨by rw [none_]; rfl,outside⟩

theorem markLink_stops (included : List Reference) (link : Link) (outside : (markLink included link).target ∉ included) :
    (markLink included link).stopReason ≠ none := by
  unfold markLink at outside ⊢
  split
  · simp
  · rename_i kept
    rw [if_neg kept] at outside
    exact absurd outside kept

theorem finish_limited (within : Within limits t) (root : VarId) : (finish root limits t).Limited limits := by
  have references : (finish root limits t).nodes.map CrossNode.reference = t.nodes.map CrossNode.reference := by
    simp [finish,markNode,CrossNode.reference,Function.comp_def]
  have each {P : CrossNode → Prop} (old : ∀ output ∈ t.nodes, P (markNode (t.nodes.map CrossNode.reference) output)) :
      ∀ output ∈ (finish root limits t).nodes, P output := by
    intro output inside
    obtain ⟨before,isNode,rfl⟩ := List.mem_map.mp inside
    exact old before isNode
  refine ⟨?_,each within.depths,within.contexts,within.callDepths,within.functions,?_,within.work,?_,?_,?_,?_⟩
  · rw [finish,List.length_map]
    exact within.nodes
  · have known : (((finish root limits t).nodes.map CrossNode.functionAddress ++
        (finish root limits t).contexts.map Context.functionAddress).toFinset) ⊆ t.functions.toFinset := by
      intro address inside
      rw [List.mem_toFinset] at inside ⊢
      rcases List.mem_append.mp inside with ofNode | ofContext
      · obtain ⟨output,isNode,rfl⟩ := List.mem_map.mp ofNode
        exact each (P := fun output => output.functionAddress ∈ t.functions) within.nodeFunctions output isNode
      · obtain ⟨context,isContext,rfl⟩ := List.mem_map.mp ofContext
        exact within.contextFunctions context isContext
    exact (Finset.card_le_card known).trans (List.toFinset_card_le _)
  · refine Nat.le_trans (Nat.le_of_eq ?_) (within.inputs.trans within.inputsUsed)
    simp [finish,markNode,Function.comp_def]
  · rw [references]
    exact within.once
  · rw [references]
    refine each fun output _ input inside outside => ?_
    obtain ⟨before,_,rfl⟩ := List.mem_map.mp inside
    exact markInput_stops _ _ before outside
  · rw [references]
    refine each fun output _ link inside outside => ?_
    obtain ⟨before,_,rfl⟩ := List.mem_map.mp inside
    exact markLink_stops _ before outside

theorem start_within (address : UInt64) (root : VarId) (function : Snapshot) (s : σ)
    (positive : 0 < limits.maxNodes ∧ 0 < limits.maxFunctions) : Within limits (start address root function s) := by
  refine ⟨Nat.zero_le _,by simp [start],positive.1,by simp [start],?_,positive.2,by simp [start],by simp [start],
    Nat.zero_le _,Nat.zero_le _,Nat.zero_le _,List.nodup_nil,by simp [start],rfl,by simp [start],by simp [start]⟩
  intro id context found caller isCaller
  have inside : context ∈ (start address root function s).contexts := List.mem_of_getElem? found
  rw [List.mem_singleton.mp inside] at isCaller
  cases isCaller

end Limited

-- Every traversal ends, within its limits: with a slice, also where the execution budget stopped it midway, or because
-- a variable to follow is not one of its function's, or because an analysis or the loader itself fails.
theorem backward_limited (world : World σ) (s : σ) (address : UInt64) (root : VarId) (function : Snapshot)
    (limits : Limits) (positive : 0 < limits.maxNodes ∧ 0 < limits.maxFunctions) :
    (traverse limits.bounded world (start address root function s)).1 ≠ .error .outOfRange ∧
    (∀ slice, backward world s address root function limits = .ok slice →
      slice.limits = limits.bounded ∧ slice.Limited limits.bounded) ∧
    ∀ failure, backward world s address root function limits = .error failure →
      (∃ id, failure = .slice (.missingVariable id)) ∨ failure = .panicked ∧ ¬ world.Answers := by
  have positive' : 0 < limits.bounded.maxNodes ∧ 0 < limits.bounded.maxFunctions := by
    simp only [Limits.bounded,maxSliceNodes]
    omega
  obtain ⟨within,stopped⟩ := @traverse_within _ _ world (start address root function s)
    (start_within address root function s positive')
  have noLimit : ¬ (limits.bounded.maxNodes = 0 ∨ limits.bounded.maxFunctions = 0) := by omega
  unfold backward
  simp only [if_neg noLimit]
  generalize traverse limits.bounded world (start address root function s) = ran at within stopped ⊢
  obtain ⟨result,t⟩ := ran
  have partial_ : Within limits.bounded { t with truncated := true, stops := t.stops ++ ["execution_limit"] } :=
    within.quiet ⟨rfl,rfl,rfl,rfl,rfl,rfl,rfl,fun _ known => known,fun work => work⟩
  cases result with
  | ok _ =>
    refine ⟨by simp,fun slice given => ?_,by simp⟩
    cases given
    exact ⟨rfl,finish_limited within root⟩
  | error signal =>
    have halted := stopped signal rfl
    refine ⟨fun same => halted.inRange (Except.error.inj same),?_,?_⟩
    · intro slice given
      cases signal with
      | failed failure => cases given
      | _ =>
        simp only at given
        split at given
        · cases given
          exact ⟨rfl,finish_limited partial_ root⟩
        · cases given
    · intro failure given
      cases signal with
      | failed failure' =>
        cases given
        cases failure' with
        | missingVariable id => exact .inl ⟨id,rfl⟩
        | nodesNotPositive => exact absurd rfl halted.room
      | outOfRange => exact absurd rfl halted.inRange
      | unwound =>
        simp only at given
        split at given
        · cases given
        · cases given
          exact .inr ⟨rfl,halted.unwound rfl⟩

-- A function that returns what its call of itself returns.
def recursiveFunction : Snapshot where
  ssa := {
    blocks := [⟨0x1000,[.assign 0],.ret (some 0)⟩]
    vars := [⟨⟨.register,0,8⟩,.unknown,none,8,true⟩]
    entry := 0
    diagnostics := []
  }
  paramName _ := none

def recursiveWorld : World Unit where
  load s _ := (some (.ok recursiveFunction),s)
  dependencySummary s _ := (some ⟨fun _ => none,[0],false⟩,s)
  dependencyCall s _ _ := (some (.ok ⟨some 0x1000,none,⟨0x1000,0⟩,[]⟩),s)
  stopped _ := false

theorem backward_limited_recursive :
    (traverse (Limits.bounded ⟨4,4,4,4,100⟩) recursiveWorld (start 0x1000 0 recursiveFunction ())).1 ≠
      .error .outOfRange ∧
    (∀ slice, backward recursiveWorld () 0x1000 0 recursiveFunction ⟨4,4,4,4,100⟩ = .ok slice →
      slice.limits = Limits.bounded ⟨4,4,4,4,100⟩ ∧ slice.Limited (Limits.bounded ⟨4,4,4,4,100⟩)) ∧
    ∀ failure, backward recursiveWorld () 0x1000 0 recursiveFunction ⟨4,4,4,4,100⟩ = .error failure →
      (∃ id, failure = .slice (.missingVariable id)) ∨ failure = .panicked ∧ ¬ recursiveWorld.Answers :=
  backward_limited recursiveWorld () 0x1000 0 recursiveFunction ⟨4,4,4,4,100⟩ (by decide)

end Rsleigh.Decompile.Interprocedural
