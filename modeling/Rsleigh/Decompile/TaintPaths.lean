import Rsleigh.Decompile.FunctionSummary
import Rsleigh.Lib.Branching

namespace Rsleigh.Decompile.TaintPaths

open Pcode Branching

-- A block is looked up by its id.
structure NamedBlock extends SsaBlock where
  id : BlockId

structure NamedCfg where
  blocks : List NamedBlock
  vars : List VarDef
  entry : BlockId

inductive PathRejection where
  | unsupportedTerminator (why : String)
  | phiInPath
  | indirectCall
  | noSinkFound
  deriving DecidableEq

inductive TaintEventKind where
  | assign (v : VarId)
  | store (addr val : VarId)
  | sourceCall (spec : SourceSpec) (args : List VarId) (out : Option VarId) (callChain : List UInt64)
  | sinkCall (spec : SinkSpec) (args : List VarId) (out : Option VarId) (callChain : List UInt64)
  | otherCall (targetAddr : Option UInt64) (args : List VarId) (out : Option VarId)

structure TaintEvent where
  stmtIndex : Nat
  kind : TaintEventKind

structure BranchDecision where
  blockAddr : Nat
  cond : VarId
  taken : Bool

structure TaintPath where
  source : SourceSpec
  sourceEvent : Nat
  sink : SinkSpec
  sinkEvent : Nat
  events : List TaintEvent
  branchDecisions : List BranchDecision

structure WalkState where
  current : BlockId
  events : List TaintEvent
  visited : List BlockId
  branchDecisions : List BranchDecision

def maxBranchDepth : Nat := 64

def maxWorklistSize : Nat := 16384

def maxPathsPerFn : Nat := 8192

section Calls

variable (imports : UInt64 → Option String) (vars : List VarDef)

inductive SpecRef where
  | source (spec : SourceSpec)
  | sink (spec : SinkSpec)

def resolveCall (targetAddr : UInt64) : Option SpecRef :=
  match imports targetAddr with
  | none => none
  | some raw =>
    match defaultSources.find? fun spec => spec.name.toList == normaliseLibcName raw with
    | some spec => some (.source spec)
    | none => (defaultSinks.find? fun spec => spec.name.toList == normaliseLibcName raw).map .sink

-- What an expression resolves to, or what is looked at after it.
def resolveExpr : Expr → Option UInt64 × List VarId
  | .const c _ =>
    if (imports c).isSome then (some c, [])
    else if (imports (c &&& 0x0fffffff)).isSome then (some (c &&& 0x0fffffff), [])
    else (none, [])
  | .var arg => (none, [arg])
  | .load addr =>
    match vars[addr]? with
    | some addrDef =>
      match addrDef.expr with
      | .const slot _ => ([slot, slot &&& 0x0fffffff].find? fun c => (imports c).isSome, [])
      | _ => (none, [])
    | none => (none, [])
  | _ => (none, [])

-- At most 32 variables are looked at.
def resolveFrom (stack visited : List VarId) : Option UInt64 :=
  match stack with
  | [] => none
  | id :: rest =>
    if visited.contains id then resolveFrom rest visited
    else if 32 < visited.length + 1 then none
    else
      match vars[id]? with
      | none => resolveFrom rest (id :: visited)
      | some v =>
        match resolveExpr imports vars v.expr with
        | (some addr, _) => some addr
        | (none, more) => resolveFrom (more ++ rest) (id :: visited)
termination_by (33 - visited.length, stack.length)
decreasing_by all_goals simp_wf; omega

def resolveIndirectTarget (target : Varnode) : Option UInt64 :=
  resolveFrom imports vars ((List.range vars.length).filter fun id => (vars[id]?).any (·.varnode == target)) []

def callKind (targetAddr : UInt64) (args : List VarId) (out : Option VarId) : TaintEventKind :=
  match resolveCall imports targetAddr with
  | some (.source spec) => .sourceCall spec args out []
  | some (.sink spec) => .sinkCall spec args out []
  | none => .otherCall (some targetAddr) args out

def targetAddr : CallTarget → Option UInt64
  | .direct addr => some addr
  | .indirect target => resolveIndirectTarget imports vars target

def classifyCall (stmtIndex : Nat) (target : CallTarget) (args : List VarId) (out : Option VarId) :
    Except PathRejection TaintEvent :=
  match targetAddr imports vars target with
  | some addr => .ok ⟨stmtIndex, callKind imports addr args out⟩
  | none => .error .indirectCall

end Calls

section Walks

variable (cfg : NamedCfg) (imports : UInt64 → Option String)

def isPhi (v : VarId) : Bool :=
  match cfg.vars[v]? with
  | some v =>
    match v.expr with
    | .phi _ => true
    | _ => false
  | none => false

-- Assignments of a phi are passed over.
def walkStmts : Nat → List Stmt → List TaintEvent → Except PathRejection (List TaintEvent)
  | _, [], events => .ok events
  | idx, .assign v :: rest, events =>
    if isPhi cfg v then walkStmts (idx + 1) rest events else walkStmts (idx + 1) rest (events ++ [⟨idx, .assign v⟩])
  | idx, .store addr val :: rest, events => walkStmts (idx + 1) rest (events ++ [⟨idx, .store addr val⟩])
  | idx, .call target args out :: rest, events =>
    match classifyCall imports cfg.vars idx target args out with
    | .ok ev => walkStmts (idx + 1) rest (events ++ [ev])
    | .error e => .error e

def walkTerminator (block : NamedBlock) (state : WalkState) : Expansion WalkState PathRejection :=
  match block.terminator with
  | .call target args out fallthrough =>
    match classifyCall imports cfg.vars block.stmts.length target args out with
    | .ok ev => .go { state with events := state.events ++ [ev], current := fallthrough }
    | .error e => .stop e
  | .fallthrough next | .branch next => .go { state with current := next }
  | .ret _ | .indirect _ => .finish state
  | .cbranch cond taken fallthrough =>
    if maxBranchDepth ≤ state.branchDecisions.length then .stop (.unsupportedTerminator "depth limit")
    else
      .fork { state with current := taken, branchDecisions := state.branchDecisions ++ [⟨block.addr, cond, true⟩] }
        { state with current := fallthrough, branchDecisions := state.branchDecisions ++ [⟨block.addr, cond, false⟩] }

def walkBlock (state : WalkState) : Expansion WalkState PathRejection :=
  if state.visited.contains state.current then .stop (.unsupportedTerminator "loop back-edge")
  else
    match cfg.blocks.find? (·.id == state.current) with
    | none => .stop (.unsupportedTerminator "dangling block id")
    | some block =>
      match walkStmts cfg imports 0 block.stmts state.events with
      | .error e => .stop e
      | .ok events => walkTerminator cfg imports block { state with events, visited := state.current :: state.visited }

def tooDeep (state : WalkState) : Option PathRejection :=
  if maxBranchDepth < state.branchDecisions.length then some (.unsupportedTerminator "depth limit") else none

-- No summaries are given and the function has no name, so that nothing is added to the events of its own calls.
def walks (fuel : Nat) : Option (Pending WalkState PathRejection) :=
  search (walkBlock cfg imports) tooDeep maxWorklistSize (.unsupportedTerminator "worklist cap") fuel none
    ⟨[⟨cfg.entry, [], [], []⟩], [], none, false⟩

end Walks

-- Each source is paired with every sink after it.
def pairFrom (events : List TaintEvent) (decisions : List BranchDecision) :
    Nat → List (Nat × SourceSpec) → List TaintEvent → List TaintPath
  | _, _, [] => []
  | i, sources, ev :: rest =>
    match ev.kind with
    | .sourceCall spec _ _ _ => pairFrom events decisions (i + 1) (sources ++ [(i, spec)]) rest
    | .sinkCall spec _ _ _ =>
      sources.map (fun source => ⟨source.2, source.1, spec, i, events, decisions⟩) ++
        pairFrom events decisions (i + 1) sources rest
    | _ => pairFrom events decisions (i + 1) sources rest

def pairUp (state : WalkState) : List TaintPath := pairFrom state.events state.branchDecisions 0 [] state.events

def allPairs (final : Pending WalkState PathRejection) : List TaintPath := final.completed.flatMap pairUp

def finish (final : Pending WalkState PathRejection) : Except PathRejection (List TaintPath) :=
  match (allPairs final).take maxPathsPerFn with
  | [] => .error (final.lastReject.getD .noSinkFound)
  | paths => .ok paths

def collectPaths (cfg : NamedCfg) (imports : UInt64 → Option String) (fuel : Nat) :
    Option (Except PathRejection (List TaintPath)) :=
  (walks cfg imports fuel).map finish

end Rsleigh.Decompile.TaintPaths
