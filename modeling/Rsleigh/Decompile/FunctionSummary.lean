import Rsleigh.Decompile.CallGraph
import Rsleigh.Decompile.Ir

namespace Rsleigh.Decompile

open Pcode

-- smt_explore.rs.
inductive AbiSlot where
  | arg (n : UInt8)
  | ret
  | global (va : UInt64)
  deriving DecidableEq

inductive SinkKind where
  | stackBuffer
  | formatArg
  | command
  | lengthArg
  | taintedStore
  | cStringRead
  deriving DecidableEq

structure SourceSpec where
  name : String
  tainted : AbiSlot

structure SinkSpec where
  name : String
  watched : AbiSlot
  kind : SinkKind

def defaultSources : List SourceSpec := [
  ⟨"recv", .arg 1⟩, ⟨"recvfrom", .arg 1⟩, ⟨"recvmsg", .arg 1⟩, ⟨"read", .arg 1⟩, ⟨"fread", .arg 0⟩, ⟨"fgets", .arg 0⟩,
  ⟨"gets", .arg 0⟩, ⟨"scanf", .arg 1⟩, ⟨"sscanf", .arg 2⟩, ⟨"fscanf", .arg 2⟩, ⟨"getenv", .ret⟩, ⟨"argv", .arg 1⟩]

def defaultSinks : List SinkSpec := [
  ⟨"strcpy", .arg 1, .stackBuffer⟩, ⟨"strcat", .arg 1, .stackBuffer⟩, ⟨"sprintf", .arg 1, .formatArg⟩,
  ⟨"vsprintf", .arg 1, .formatArg⟩, ⟨"printf", .arg 0, .formatArg⟩, ⟨"fprintf", .arg 1, .formatArg⟩,
  ⟨"memcpy", .arg 2, .lengthArg⟩, ⟨"memmove", .arg 2, .lengthArg⟩, ⟨"strncpy", .arg 2, .lengthArg⟩,
  ⟨"strncat", .arg 2, .lengthArg⟩, ⟨"system", .arg 0, .command⟩, ⟨"popen", .arg 0, .command⟩, ⟨"execve", .arg 0, .command⟩,
  ⟨"execlp", .arg 0, .command⟩, ⟨"execvp", .arg 0, .command⟩, ⟨"strlen", .arg 0, .cStringRead⟩,
  ⟨"strnlen", .arg 0, .cStringRead⟩, ⟨"strcmp", .arg 0, .cStringRead⟩, ⟨"strncmp", .arg 0, .cStringRead⟩,
  ⟨"strcasecmp", .arg 0, .cStringRead⟩, ⟨"strncasecmp", .arg 0, .cStringRead⟩, ⟨"strchr", .arg 0, .cStringRead⟩,
  ⟨"strrchr", .arg 0, .cStringRead⟩, ⟨"strstr", .arg 0, .cStringRead⟩, ⟨"strcasestr", .arg 0, .cStringRead⟩]

def storeSinkSpec : SinkSpec := ⟨"<tainted_store>", .arg 0, .taintedStore⟩

-- function_summary.rs. What is recorded of a call to a sink or to a source.
structure Invocation (σ : Type) where
  spec : σ
  callSite : Nat
  taintedCallerSlots : List AbiSlot

abbrev SinkInvocation := Invocation SinkSpec

abbrev SourceEmission := Invocation SourceSpec

structure FunctionSummary where
  func : FuncId
  sinks : List SinkInvocation
  sources : List SourceEmission

structure FunctionContext where
  ssa : SsaCfg
  argVars : List (UInt8 × VarId)

section Slots

-- The canonical form of an address, which the source writes as a text.
inductive AddrKey where
  | const (value : UInt64) (size : UInt32)
  | binOp (op : BinOpKind) (left right : AddrKey)
  | unaryOp (op : UnaryOpKind) (arg : AddrKey)
  | varnode (varnode : Varnode)
  | unknown
  deriving DecidableEq

def addrCanonFrom (vars : List VarDef) : Nat → VarId → Option AddrKey
  | 0, _ => none
  | depth + 1, id =>
    match vars[id]? with
    | none => none
    | some v =>
      match v.expr with
      | .var arg => addrCanonFrom vars depth arg
      | .const value size => some (.const value size)
      | .binOp op a b =>
        some (.binOp op ((addrCanonFrom vars depth a).getD .unknown) ((addrCanonFrom vars depth b).getD .unknown))
      | .unaryOp op a => some (.unaryOp op ((addrCanonFrom vars depth a).getD .unknown))
      | _ => some (.varnode v.varnode)

-- The depth is at most 16.
def addrCanon (vars : List VarDef) (id : VarId) : Option AddrKey := addrCanonFrom vars 17 id

def fieldAccessCanon (vars : List VarDef) (base : VarId) (offset : UInt64) : AddrKey :=
  .binOp .add ((addrCanon vars base).getD .unknown) (.const offset 8)

def addStore (vars : List VarDef) (stores : AddrKey → Option VarId) (stmt : Stmt) : AddrKey → Option VarId :=
  match stmt with
  | .store addr val =>
    match addrCanon vars addr with
    | some key => Function.update stores key (some val)
    | none => stores
  | _ => stores

def buildStoreMap (ssa : SsaCfg) : AddrKey → Option VarId :=
  ssa.blocks.foldl (fun stores block => block.stmts.foldl (addStore ssa.vars) stores) fun _ => none

def isGlobalVa (va : UInt64) : Bool := 0x1000 ≤ va && va < 0xffff000000000000

def addSlot (out : List AbiSlot) (slot : AbiSlot) : List AbiSlot := if out.contains slot then out else out ++ [slot]

def addOwnSlot (cur : VarId) (out : List AbiSlot) (argVar : UInt8 × VarId) : List AbiSlot :=
  if argVar.2 = cur then addSlot out (.arg argVar.1) else out

-- What an expression puts on the stack, and the slots with what it adds.
def exprSlots (ssa : SsaCfg) (out : List AbiSlot) : Expr → List VarId × List AbiSlot
  | .var arg => ([arg], out)
  | .const va _ => if isGlobalVa va && out.length < 4 then ([], addSlot out (.global va)) else ([], out)
  | .load addr => (addr :: ((addrCanon ssa.vars addr).bind (buildStoreMap ssa)).toList, out)
  | .fieldAccess base offset => ((buildStoreMap ssa (fieldAccessCanon ssa.vars base offset)).toList ++ [base], out)
  | .binOp _ a b => ([a, b], out)
  | .phi inputs => (inputs, out)
  | .unaryOp _ a => ([a], out)
  | _ => ([], out)

-- At most 64 variables are looked at.
def walkSlots (ctx : FunctionContext) (stack visited : List VarId) (out : List AbiSlot) : List AbiSlot :=
  match stack with
  | [] => out
  | cur :: rest =>
    if visited.contains cur then walkSlots ctx rest visited out
    else if 64 < visited.length + 1 then walkSlots ctx rest (cur :: visited) out
    else
      match ctx.ssa.vars[cur]? with
      | some v =>
        walkSlots ctx ((exprSlots ctx.ssa (ctx.argVars.foldl (addOwnSlot cur) out) v.expr).1.reverse ++ rest) (cur :: visited)
          (exprSlots ctx.ssa (ctx.argVars.foldl (addOwnSlot cur) out) v.expr).2
      | none => walkSlots ctx rest (cur :: visited) (ctx.argVars.foldl (addOwnSlot cur) out)
termination_by (64 - visited.length, stack.length)
decreasing_by
  all_goals
    simp_wf
    simp only [Prod.lex_def]
  · exact .inr ⟨trivial,Nat.lt_succ_self _⟩
  · omega
  · omega
  · omega

def argSlotsForVar (ctx : FunctionContext) (id : VarId) : List AbiSlot := walkSlots ctx [id] [] []

end Slots

section Summaries

-- The calls of a function in their order, the one that ends a block last.
structure CallSite where
  block : Nat
  target : CallTarget
  args : List VarId

def stmtCall (block : SsaBlock) : Stmt → Option CallSite
  | .call target args _ => some ⟨block.addr, target, args⟩
  | _ => none

def terminatorCall (block : SsaBlock) : Option CallSite :=
  match block.terminator with
  | .call target args _ _ => some ⟨block.addr, target, args⟩
  | _ => none

def blockCalls (block : SsaBlock) : List CallSite := block.stmts.filterMap (stmtCall block) ++ (terminatorCall block).toList

def callSites (ssa : SsaCfg) : List CallSite := ssa.blocks.flatMap blockCalls

def stripSuffix (suffix name : List Char) : List Char :=
  if suffix.isSuffixOf name then name.take (name.length - suffix.length) else name

def normaliseLibcName (raw : String) : List Char :=
  stripSuffix "_chk".toList ((raw.toList.takeWhile (· != '@')).dropWhile (· == '_'))

def specSlots (ctx : FunctionContext) (args : List VarId) : AbiSlot → List AbiSlot
  | .arg n => ((args[n.toNat]?).map (argSlotsForVar ctx)).getD []
  | .ret | .global _ => []

variable (imports : UInt64 → Option String)

def processCall (ctx : FunctionContext) (summary : FunctionSummary) (site : CallSite) : FunctionSummary :=
  match site.target with
  | .indirect _ => summary
  | .direct addr =>
    match imports addr with
    | none => summary
    | some rawName =>
      let name := normaliseLibcName rawName
      match defaultSources.find? fun spec => spec.name.toList == name with
      | some spec =>
        { summary with sources := summary.sources ++ [⟨spec, site.block, specSlots ctx site.args spec.tainted⟩] }
      | none =>
        match defaultSinks.find? fun spec => spec.name.toList == name with
        | some spec => { summary with sinks := summary.sinks ++ [⟨spec, site.block, specSlots ctx site.args spec.watched⟩] }
        | none => summary

-- How the stores of a function are judged: whether a loop is guarded by a null check, and whose buffers a store copies
-- from, which rests on the regions of pointers.
structure StoreRule where
  hasNullTerminatorLoop : SsaCfg → Bool
  detectTaintedStore : SsaCfg → VarId → VarId → Option (List AbiSlot)

variable (rule : StoreRule)

def processStmt (ctx : FunctionContext) (block : SsaBlock) (summary : FunctionSummary) (stmt : Stmt) : FunctionSummary :=
  match stmt with
  | .call target args _ => processCall imports ctx summary ⟨block.addr, target, args⟩
  | .store addr val =>
    if rule.hasNullTerminatorLoop ctx.ssa then
      match rule.detectTaintedStore ctx.ssa addr val with
      | some slots => { summary with sinks := summary.sinks ++ [⟨storeSinkSpec, block.addr, slots⟩] }
      | none => summary
    else summary
  | .assign _ => summary

def processBlock (ctx : FunctionContext) (summary : FunctionSummary) (block : SsaBlock) : FunctionSummary :=
  let summary := block.stmts.foldl (processStmt imports rule ctx block) summary
  match terminatorCall block with
  | some site => processCall imports ctx summary site
  | none => summary

def buildFunctionSummary (func : FuncId) (ctx : FunctionContext) : FunctionSummary :=
  ctx.ssa.blocks.foldl (processBlock imports rule ctx) ⟨func, [], []⟩

def remapSlot (ctx : FunctionContext) (callerArgs : List VarId) (out : List AbiSlot) : AbiSlot → List AbiSlot
  | .arg n =>
    match callerArgs[n.toNat]? with
    | some argVar => (argSlotsForVar ctx argVar).foldl addSlot out
    | none => out
  | .global va => addSlot out (.global va)
  | .ret => out

def remapSlots (ctx : FunctionContext) (callerArgs : List VarId) (calleeSlots : List AbiSlot) : List AbiSlot :=
  calleeSlots.foldl (remapSlot ctx callerArgs) []

def lift (ctx : FunctionContext) (site : CallSite) (invocation : Invocation σ) : Invocation σ :=
  ⟨invocation.spec, site.block, remapSlots ctx site.args invocation.taintedCallerSlots⟩

def propagateOne (ctx : FunctionContext) (summaries : FuncId → Option FunctionSummary) (out : FunctionSummary)
    (site : CallSite) : FunctionSummary :=
  match site.target with
  | .indirect _ => out
  | .direct addr =>
    if (imports addr).isSome then out
    else
      match summaries ⟨addr⟩ with
      | none => out
      | some callee =>
        { out with
          sinks := out.sinks ++ callee.sinks.map (lift ctx site)
          sources := out.sources ++ callee.sources.map (lift ctx site) }

def propagateCalleeSummaries (ctx : FunctionContext) (summaries : FuncId → Option FunctionSummary) (out : FunctionSummary) :
    FunctionSummary :=
  (callSites ctx.ssa).foldl (propagateOne imports ctx summaries) out

variable (graph : CallGraph) (sccs : Sccs) (contexts : FuncId → Option FunctionContext)

def sccIsRecursive (scc : List FuncId) : Bool :=
  scc.length > 1 || (scc.head?.map fun id => sccs.isRecursive id graph).getD false

def summarize (isRecursive : Bool) (summaries : FuncId → Option FunctionSummary) (id : FuncId) :
    FuncId → Option FunctionSummary :=
  match contexts id with
  | none => summaries
  | some ctx =>
    let summary := buildFunctionSummary imports rule id ctx
    Function.update summaries id
      (some (if isRecursive then summary else propagateCalleeSummaries imports ctx summaries summary))

def summarizeComponent (summaries : FuncId → Option FunctionSummary) (scc : List FuncId) : FuncId → Option FunctionSummary :=
  scc.foldl (summarize imports rule contexts (sccIsRecursive graph sccs scc)) summaries

def buildSummariesBottomUp : FuncId → Option FunctionSummary :=
  sccs.components.foldl (summarizeComponent imports rule graph sccs contexts) fun _ => none

end Summaries

section Building

-- callgraph.rs. The addresses that an indirect call is found to go to.
variable (resolve : List VarDef → Varnode → List UInt64) (imports : UInt64 → Option String) (funcs : List (FuncId × SsaCfg))

def classifyAddr (addr : UInt64) : CalleeRef :=
  match imports addr with
  | some name => .imported name addr
  | none => if (funcs.map Prod.fst).contains ⟨addr⟩ then .direct ⟨addr⟩ else .indirect

def classifyEdges (vars : List VarDef) : CallTarget → List CallEdge
  | .direct addr => [⟨classifyAddr imports funcs addr, 0⟩]
  | .indirect varnode =>
    match resolve vars varnode with
    | [] => [⟨.indirect, 0⟩]
    | entries => entries.map fun addr => ⟨classifyAddr imports funcs addr, 0⟩

-- An edge that was not seen yet.
def addUnseen (caller : FuncId) (state : List (UInt64 × CalleeRef) × CallGraph) (edge : CallEdge) :
    List (UInt64 × CalleeRef) × CallGraph :=
  if state.1.contains (edge.callSite, edge.callee) then state
  else (state.1 ++ [(edge.callSite, edge.callee)], state.2.addEdge caller edge)

def addCalls (graph : CallGraph) (func : FuncId × SsaCfg) : CallGraph :=
  (((callSites func.2).flatMap fun site => classifyEdges resolve imports funcs func.2.vars site.target).foldl
    (addUnseen func.1) ([], graph)).2

def buildCallGraph : CallGraph :=
  funcs.foldl (addCalls resolve imports funcs) (funcs.foldl (fun graph func => graph.addFunction func.1) .new)

end Building

section Chains

variable (imports : UInt64 → Option String) (graph : CallGraph) (contexts : FuncId → Option FunctionContext)

-- The calls, each by its index in its function, that lead from a function to another one past functions that are not
-- recursive.
inductive Chain : FuncId → List Nat → FuncId → Prop where
  | own : contexts f = some ctx → Chain f [] f
  | call : contexts f = some ctx → ¬Relation.TransGen graph.Calls f f → (callSites ctx.ssa)[i]? = some site →
      site.target = .direct addr → imports addr = none → Chain ⟨addr⟩ rest last → Chain f (i :: rest) last

-- From a slot of the callee through the argument to a slot of the caller.
inductive Hop (ctx : FunctionContext) (args : List VarId) : AbiSlot → AbiSlot → Prop where
  | arg : args[n.toNat]? = some v → slot ∈ argSlotsForVar ctx v → Hop ctx args (.arg n) slot
  | global : Hop ctx args (.global va) (.global va)

inductive Flows : FuncId → List Nat → AbiSlot → AbiSlot → Prop where
  | own : Flows f [] slot slot
  | call : contexts f = some ctx → (callSites ctx.ssa)[i]? = some site → site.target = .direct addr →
      Flows ⟨addr⟩ rest slot between → Hop ctx site.args between last → Flows f (i :: rest) slot last

-- What a chain makes of a call to a sink or source at its end.
structure Lifts (f : FuncId) (chain : List Nat) (invocation entry : Invocation σ) : Prop where
  spec : entry.spec = invocation.spec
  own : chain = [] → entry.callSite = invocation.callSite
  callSite : ∀ i rest ctx site, chain = i :: rest → contexts f = some ctx → (callSites ctx.ssa)[i]? = some site →
    entry.callSite = site.block
  slots : ∀ slot, slot ∈ entry.taintedCallerSlots ↔
    ∃ from_ ∈ invocation.taintedCallerSlots, Flows contexts f chain from_ slot

-- The entries of a function, one for each chain and each invocation at its end.
def Entries (own : FuncId → List (Invocation σ)) (f : FuncId) (chains : List (List Nat × FuncId))
    (entries : List (Invocation σ)) : Prop :=
  List.Forall₂ (fun lifted entry => Lifts contexts f lifted.1 lifted.2 entry)
    (chains.flatMap fun chain => (own chain.2).map fun invocation => (chain.1, invocation)) entries

variable (rule : StoreRule)

def ownSinks (f : FuncId) : List SinkInvocation :=
  match contexts f with
  | some ctx => (buildFunctionSummary imports rule f ctx).sinks
  | none => []

def ownSources (f : FuncId) : List SourceEmission :=
  match contexts f with
  | some ctx => (buildFunctionSummary imports rule f ctx).sources
  | none => []

def Summarised (f : FuncId) (summary : FunctionSummary) : Prop :=
  ∃ chains : List (List Nat × FuncId), chains.Nodup ∧
    (∀ chain last, (chain, last) ∈ chains ↔ Chain imports graph contexts f chain last) ∧
    Entries contexts (ownSinks imports contexts rule) f chains summary.sinks ∧
    Entries contexts (ownSources imports contexts rule) f chains summary.sources

end Chains

section Lifting

variable {imports : UInt64 → Option String} {graph : CallGraph} {contexts : FuncId → Option FunctionContext}
  {rule : StoreRule} {ctx : FunctionContext}

theorem mem_addSlot {out : List AbiSlot} {slot other : AbiSlot} : other ∈ addSlot out slot ↔ other ∈ out ∨ other = slot := by
  unfold addSlot
  by_cases known : slot ∈ out
  · simp only [List.contains_iff_mem,known,if_true]
    exact ⟨.inl,fun either => either.elim (fun member => member) fun same => same ▸ known⟩
  · simp [known]

theorem mem_addSlots {slots : List AbiSlot} {other : AbiSlot} : ∀ {out : List AbiSlot},
    other ∈ slots.foldl addSlot out ↔ other ∈ out ∨ other ∈ slots := by
  induction slots with
  | nil => simp
  | cons slot slots ih =>
    intro out
    rw [List.foldl_cons,ih,mem_addSlot,List.mem_cons,or_assoc]

theorem mem_remapSlot {args : List VarId} {out : List AbiSlot} {slot other : AbiSlot} :
    other ∈ remapSlot ctx args out slot ↔ other ∈ out ∨ Hop ctx args slot other := by
  cases slot with
  | arg n =>
    cases isArg : args[n.toNat]? with
    | none =>
      simp only [remapSlot,isArg]
      refine ⟨.inl,fun either => either.elim (fun member => member) fun hop => ?_⟩
      cases hop with
      | arg isSome _ =>
        rw [isArg] at isSome
        cases isSome
    | some v =>
      simp only [remapSlot,isArg,mem_addSlots]
      refine or_congr_right ⟨fun member => .arg isArg member,fun hop => ?_⟩
      cases hop with
      | arg isSome member =>
        rw [isArg] at isSome
        cases isSome
        exact member
  | ret =>
    refine ⟨.inl,fun either => either.elim (fun member => member) fun hop => ?_⟩
    cases hop
  | global va =>
    simp only [remapSlot,mem_addSlot]
    refine or_congr_right ⟨fun same => ?_,fun hop => ?_⟩
    · subst same
      exact .global
    · cases hop with
      | global => rfl

theorem mem_remapSlots {args : List VarId} {slots : List AbiSlot} {other : AbiSlot} :
    other ∈ remapSlots ctx args slots ↔ ∃ slot ∈ slots, Hop ctx args slot other := by
  have run : ∀ out : List AbiSlot, other ∈ slots.foldl (remapSlot ctx args) out ↔
      other ∈ out ∨ ∃ slot ∈ slots, Hop ctx args slot other := by
    induction slots with
    | nil => simp
    | cons slot slots ih =>
      intro out
      rw [List.foldl_cons,ih,mem_remapSlot]
      simp [or_assoc]
  unfold remapSlots
  simpa using run []

theorem lifts_own {f : FuncId} (invocation : Invocation σ) : Lifts contexts f [] invocation invocation := by
  refine ⟨rfl,fun _ => rfl,fun _ _ _ _ same => (by cases same),fun slot => ⟨fun member => ⟨slot,member,.own⟩,?_⟩⟩
  rintro ⟨other,member,flow⟩
  cases flow
  exact member

theorem lifts_call {f : FuncId} {invocation entry : Invocation σ} (isContext : contexts f = some ctx)
    (isSite : (callSites ctx.ssa)[i]? = some site) (isDirect : site.target = .direct addr)
    (lifts : Lifts contexts ⟨addr⟩ rest invocation entry) : Lifts contexts f (i :: rest) invocation (lift ctx site entry) := by
  refine ⟨lifts.spec,fun same => (by cases same),?_,fun slot => ?_⟩
  · intro j others other at_ same isOther isAt
    cases same
    rw [isContext] at isOther
    cases isOther
    rw [isSite] at isAt
    cases isAt
    rfl
  · change slot ∈ remapSlots ctx site.args entry.taintedCallerSlots ↔ _
    rw [mem_remapSlots]
    constructor
    · rintro ⟨between,member,hop⟩
      obtain ⟨first,isFirst,flow⟩ := (lifts.slots between).mp member
      exact ⟨first,isFirst,.call isContext isSite isDirect flow hop⟩
    · rintro ⟨first,isFirst,flow⟩
      cases flow with
      | call isOther isAt isTarget flow hop =>
        rw [isContext] at isOther
        cases isOther
        rw [isSite] at isAt
        cases isAt
        rw [isDirect] at isTarget
        cases isTarget
        exact ⟨_,(lifts.slots _).mpr ⟨first,isFirst,flow⟩,hop⟩

theorem entries_call {f : FuncId} {own : FuncId → List (Invocation σ)} {chains : List (List Nat × FuncId)}
    {entries : List (Invocation σ)} (isContext : contexts f = some ctx) (isSite : (callSites ctx.ssa)[i]? = some site)
    (isDirect : site.target = .direct addr) (lifted : Entries contexts own ⟨addr⟩ chains entries) :
    Entries contexts own f (chains.map fun chain => (i :: chain.1,chain.2)) (entries.map (lift ctx site)) := by
  unfold Entries at lifted ⊢
  have regrouped : (chains.map fun chain => (i :: chain.1,chain.2)).flatMap (fun chain => (own chain.2).map fun invocation =>
      (chain.1,invocation)) = (chains.flatMap fun chain => (own chain.2).map fun invocation => (chain.1,invocation)).map
        fun one => (i :: one.1,one.2) := by
    simp [List.flatMap_map,List.map_flatMap,Function.comp_def]
  rw [regrouped,List.forall₂_map_left_iff,List.forall₂_map_right_iff]
  exact lifted.imp fun _ _ lifts => lifts_call isContext isSite isDirect lifts

theorem entries_append {f : FuncId} {own : FuncId → List (Invocation σ)} {one two : List (List Nat × FuncId)}
    {first second : List (Invocation σ)} (isOne : Entries contexts own f one first) (isTwo : Entries contexts own f two second) :
    Entries contexts own f (one ++ two) (first ++ second) := by
  unfold Entries at isOne isTwo ⊢
  rw [List.flatMap_append]
  exact List.rel_append isOne isTwo

theorem entries_own {f : FuncId} {own : FuncId → List (Invocation σ)} : Entries contexts own f [([],f)] (own f) := by
  unfold Entries
  simp only [List.flatMap_cons,List.flatMap_nil,List.append_nil,List.forall₂_map_left_iff,List.forall₂_same]
  exact fun invocation _ => lifts_own invocation

theorem chain_context {f : FuncId} (chain : Chain imports graph contexts f sites last) : ∃ ctx, contexts f = some ctx := by
  cases chain with
  | own isContext => exact ⟨_,isContext⟩
  | call isContext => exact ⟨_,isContext⟩

-- The calls from the index on.
def From (imports : UInt64 → Option String) (graph : CallGraph) (contexts : FuncId → Option FunctionContext) (f : FuncId)
    (n : Nat) (chains : List (List Nat × FuncId)) : Prop :=
  chains.Nodup ∧ ∀ chain last, (chain,last) ∈ chains ↔
    Chain imports graph contexts f chain last ∧ ∃ i rest, chain = i :: rest ∧ n ≤ i

-- The summaries that a function's calls read.
structure Ready (imports : UInt64 → Option String) (graph : CallGraph) (contexts : FuncId → Option FunctionContext)
    (rule : StoreRule) (ctx : FunctionContext) (summaries : FuncId → Option FunctionSummary) : Prop where
  right : ∀ g summary, summaries g = some summary → Summarised imports graph contexts rule g summary
  known : ∀ site ∈ callSites ctx.ssa, ∀ addr, site.target = .direct addr → imports addr = none → contexts ⟨addr⟩ ≠ none →
    summaries ⟨addr⟩ ≠ none

-- What one call adds.
theorem propagateOne_adds {f : FuncId} {summaries : FuncId → Option FunctionSummary} (isContext : contexts f = some ctx)
    (notCycle : ¬Relation.TransGen graph.Calls f f) (ready : Ready imports graph contexts rule ctx summaries)
    (isSite : (callSites ctx.ssa)[n]? = some site) (out : FunctionSummary) : ∃ chains sinks sources,
      propagateOne imports ctx summaries out site =
        { out with sinks := out.sinks ++ sinks, sources := out.sources ++ sources } ∧
      chains.Nodup ∧ (∀ chain last, (chain,last) ∈ chains ↔
        Chain imports graph contexts f chain last ∧ ∃ rest, chain = n :: rest) ∧
      Entries contexts (ownSinks imports contexts rule) f chains sinks ∧
      Entries contexts (ownSources imports contexts rule) f chains sources := by
  have nothing (same : propagateOne imports ctx summaries out site = out)
      (noChain : ∀ rest last, ¬Chain imports graph contexts f (n :: rest) last) : ∃ chains sinks sources,
      propagateOne imports ctx summaries out site =
        { out with sinks := out.sinks ++ sinks, sources := out.sources ++ sources } ∧
      chains.Nodup ∧ (∀ chain last, (chain,last) ∈ chains ↔
        Chain imports graph contexts f chain last ∧ ∃ rest, chain = n :: rest) ∧
      Entries contexts (ownSinks imports contexts rule) f chains sinks ∧
      Entries contexts (ownSources imports contexts rule) f chains sources := by
    refine ⟨[],[],[],by simp [same],List.nodup_nil,fun chain last => ⟨fun member => (by cases member),?_⟩,.nil,.nil⟩
    rintro ⟨isChain,rest,rfl⟩
    exact absurd isChain (noChain rest last)
  cases isTarget : site.target with
  | indirect varnode =>
    refine nothing (by simp [propagateOne,isTarget]) fun rest last isChain => ?_
    cases isChain with
    | call isOther _ isAt isDirect =>
      rw [isContext] at isOther
      cases isOther
      rw [isSite] at isAt
      cases isAt
      rw [isTarget] at isDirect
      cases isDirect
  | direct addr =>
    have onward {rest : List Nat} {last : FuncId} (isChain : Chain imports graph contexts f (n :: rest) last) :
        imports addr = none ∧ Chain imports graph contexts ⟨addr⟩ rest last := by
      cases isChain with
      | call isOther _ isAt isDirect notImport isRest =>
        rw [isContext] at isOther
        cases isOther
        rw [isSite] at isAt
        cases isAt
        rw [isTarget] at isDirect
        cases isDirect
        exact ⟨notImport,isRest⟩
    cases isImport : imports addr with
    | some name =>
      refine nothing (by simp [propagateOne,isTarget,isImport]) fun rest last isChain => ?_
      rw [isImport] at onward
      cases (onward isChain).1
    | none =>
      cases isCallee : summaries ⟨addr⟩ with
      | none =>
        refine nothing (by simp [propagateOne,isTarget,isImport,isCallee]) fun rest last isChain => ?_
        obtain ⟨other,isOther⟩ := chain_context (onward isChain).2
        exact ready.known site (List.mem_of_getElem? isSite) addr isTarget isImport (by simp [isOther]) isCallee
      | some callee =>
        obtain ⟨chains,nodup,all,isSinks,isSources⟩ := ready.right ⟨addr⟩ callee isCallee
        refine ⟨chains.map fun chain => (n :: chain.1,chain.2),callee.sinks.map (lift ctx site),callee.sources.map (lift ctx site),
          by simp [propagateOne,isTarget,isImport,isCallee],?_,fun chain last => ?_,
          entries_call isContext isSite isTarget isSinks,entries_call isContext isSite isTarget isSources⟩
        · exact nodup.map fun one two same => by simpa [Prod.ext_iff] using same
        · rw [List.mem_map]
          constructor
          · rintro ⟨⟨rest,end_⟩,member,same⟩
            cases same
            exact ⟨.call isContext notCycle isSite isTarget isImport ((all rest _).mp member),rest,rfl⟩
          · rintro ⟨isChain,rest,rfl⟩
            exact ⟨(rest,last),(all rest last).mpr (onward isChain).2,rfl⟩

theorem propagate_run {f : FuncId} {summaries : FuncId → Option FunctionSummary} (isContext : contexts f = some ctx)
    (notCycle : ¬Relation.TransGen graph.Calls f f) (ready : Ready imports graph contexts rule ctx summaries)
    (sites : List CallSite) : ∀ (n : Nat) (out : FunctionSummary), (callSites ctx.ssa).drop n = sites →
      ∃ chains sinks sources, sites.foldl (propagateOne imports ctx summaries) out =
          { out with sinks := out.sinks ++ sinks, sources := out.sources ++ sources } ∧
        From imports graph contexts f n chains ∧ Entries contexts (ownSinks imports contexts rule) f chains sinks ∧
        Entries contexts (ownSources imports contexts rule) f chains sources := by
  induction sites with
  | nil =>
    intro n out isDrop
    refine ⟨[],[],[],by simp,⟨List.nodup_nil,fun chain last => ⟨fun member => (by cases member),?_⟩⟩,.nil,.nil⟩
    rintro ⟨isChain,i,rest,rfl,above⟩
    cases isChain with
    | call isOther _ isAt =>
      rw [isContext] at isOther
      cases isOther
      have inRange := (List.getElem?_eq_some_iff.mp isAt).1
      have short := List.drop_eq_nil_iff.mp isDrop
      omega
  | cons site sites ih =>
    intro n out isDrop
    have isSite : (callSites ctx.ssa)[n]? = some site := by
      have first := congrArg List.head? isDrop
      simpa using first
    have isRest : (callSites ctx.ssa).drop (n + 1) = sites := by
      rw [← List.drop_drop,isDrop]
      rfl
    obtain ⟨here,sinks,sources,isOne,nodup,all,isSinks,isSources⟩ := propagateOne_adds isContext notCycle ready isSite out
    obtain ⟨later,sinks',sources',isRun,⟨nodup',all'⟩,isSinks',isSources'⟩ := ih (n + 1)
      { out with sinks := out.sinks ++ sinks, sources := out.sources ++ sources } isRest
    refine ⟨here ++ later,sinks ++ sinks',sources ++ sources',?_,⟨?_,fun chain last => ?_⟩,entries_append isSinks isSinks',
      entries_append isSources isSources'⟩
    · rw [List.foldl_cons,isOne,isRun]
      simp
    · refine List.nodup_append.mpr ⟨nodup,nodup',?_⟩
      rintro ⟨chain,last⟩ one ⟨chain',last'⟩ two same
      cases same
      obtain ⟨_,rest,rfl⟩ := (all chain last).mp one
      obtain ⟨_,i,others,isSame,above⟩ := (all' _ last).mp two
      cases isSame
      omega
    · rw [List.mem_append,all,all']
      constructor
      · rintro (⟨isChain,rest,rfl⟩ | ⟨isChain,i,rest,rfl,above⟩)
        · exact ⟨isChain,n,rest,rfl,le_rfl⟩
        · exact ⟨isChain,i,rest,rfl,by omega⟩
      · rintro ⟨isChain,i,rest,rfl,above⟩
        rcases Nat.eq_or_lt_of_le above with rfl | later
        · exact .inl ⟨isChain,rest,rfl⟩
        · exact .inr ⟨isChain,i,rest,rfl,later⟩

theorem summarised_own {f : FuncId} (isContext : contexts f = some ctx) (cycle : Relation.TransGen graph.Calls f f) :
    Summarised imports graph contexts rule f (buildFunctionSummary imports rule f ctx) := by
  have isSinks : ownSinks imports contexts rule f = (buildFunctionSummary imports rule f ctx).sinks := by
    simp [ownSinks,isContext]
  have isSources : ownSources imports contexts rule f = (buildFunctionSummary imports rule f ctx).sources := by
    simp [ownSources,isContext]
  refine ⟨[([],f)],List.nodup_singleton _,fun chain last => ⟨fun member => ?_,fun isChain => ?_⟩,isSinks ▸ entries_own,
    isSources ▸ entries_own⟩
  · cases List.mem_singleton.mp member
    exact .own isContext
  · cases isChain with
    | own _ => exact List.mem_singleton_self _
    | call _ notCycle => exact absurd cycle notCycle

theorem summarised_calls {f : FuncId} {summaries : FuncId → Option FunctionSummary} (isContext : contexts f = some ctx)
    (notCycle : ¬Relation.TransGen graph.Calls f f) (ready : Ready imports graph contexts rule ctx summaries) :
    Summarised imports graph contexts rule f
      (propagateCalleeSummaries imports ctx summaries (buildFunctionSummary imports rule f ctx)) := by
  obtain ⟨chains,sinks,sources,isRun,⟨nodup,all⟩,isSinks,isSources⟩ := propagate_run isContext notCycle ready
    (callSites ctx.ssa) 0 (buildFunctionSummary imports rule f ctx) rfl
  have ownSinks_ : ownSinks imports contexts rule f = (buildFunctionSummary imports rule f ctx).sinks := by
    simp [ownSinks,isContext]
  have ownSources_ : ownSources imports contexts rule f = (buildFunctionSummary imports rule f ctx).sources := by
    simp [ownSources,isContext]
  unfold propagateCalleeSummaries
  rw [isRun,← ownSinks_,← ownSources_]
  refine ⟨([],f) :: chains,List.nodup_cons.mpr ⟨fun member => ?_,nodup⟩,fun chain last => ?_,
    entries_append entries_own isSinks,entries_append entries_own isSources⟩
  · obtain ⟨_,i,rest,same,_⟩ := (all [] f).mp member
    cases same
  · rw [List.mem_cons,all]
    constructor
    · rintro (same | ⟨isChain,_⟩)
      · cases same
        exact .own isContext
      · exact isChain
    · intro isChain
      cases chain with
      | nil =>
        cases isChain
        exact .inl rfl
      | cons i rest => exact .inr ⟨isChain,i,rest,rfl,Nat.zero_le _⟩

end Lifting

section BottomUp

variable {imports : UInt64 → Option String} {graph : CallGraph} {contexts : FuncId → Option FunctionContext}
  {rule : StoreRule} {sccs : Sccs}

-- The graph is that of the functions: it leads to each of them, and it has their direct calls to each other.
structure GraphCovers (graph : CallGraph) (contexts : FuncId → Option FunctionContext) (imports : UInt64 → Option String) : Prop where
  explored : ∀ f ctx, contexts f = some ctx → graph.Reachable f
  calls : ∀ f ctx, contexts f = some ctx → ∀ site ∈ callSites ctx.ssa, ∀ addr, site.target = .direct addr →
    imports addr = none → contexts ⟨addr⟩ ≠ none → graph.Calls f ⟨addr⟩

-- The summaries after some functions.
structure Done (imports : UInt64 → Option String) (graph : CallGraph) (contexts : FuncId → Option FunctionContext)
    (rule : StoreRule) (done : List FuncId) (summaries : FuncId → Option FunctionSummary) : Prop where
  right : ∀ g summary, summaries g = some summary → Summarised imports graph contexts rule g summary
  known : ∀ g ∈ done, contexts g ≠ none → summaries g ≠ none
  only : ∀ g, contexts g = none → summaries g = none

theorem summarize_done {done : List FuncId} {summaries : FuncId → Option FunctionSummary} {f : FuncId} {isRecursive : Bool}
    (before : Done imports graph contexts rule done summaries)
    (right : ∀ ctx, contexts f = some ctx → Summarised imports graph contexts rule f
      (if isRecursive then buildFunctionSummary imports rule f ctx
        else propagateCalleeSummaries imports ctx summaries (buildFunctionSummary imports rule f ctx))) :
    Done imports graph contexts rule (done ++ [f]) (summarize imports rule contexts isRecursive summaries f) := by
  unfold summarize
  cases isContext : contexts f with
  | none =>
    refine ⟨before.right,fun g member known => ?_,before.only⟩
    rcases List.mem_append.mp member with earlier | isLast
    · exact before.known g earlier known
    · rw [List.mem_singleton.mp isLast] at known
      exact absurd isContext known
  | some ctx =>
    dsimp only
    refine ⟨fun g summary isSummary => ?_,fun g member known => ?_,fun g unknown => ?_⟩
    · by_cases same : g = f
      · subst same
        rw [Function.update_self] at isSummary
        exact Option.some.inj isSummary ▸ right ctx isContext
      · rw [Function.update_of_ne same] at isSummary
        exact before.right g summary isSummary
    · by_cases same : g = f
      · rw [same,Function.update_self]
        exact Option.some_ne_none _
      · rw [Function.update_of_ne same]
        rcases List.mem_append.mp member with earlier | isLast
        · exact before.known g earlier known
        · exact absurd (List.mem_singleton.mp isLast) same
    · have other : g ≠ f := by
        rintro rfl
        rw [isContext] at unknown
        cases unknown
      rw [Function.update_of_ne other]
      exact before.only g unknown

theorem recursive_done (members : List FuncId) (cycles : ∀ f ∈ members, Relation.TransGen graph.Calls f f) :
    ∀ {done : List FuncId} {summaries : FuncId → Option FunctionSummary}, Done imports graph contexts rule done summaries →
      Done imports graph contexts rule (done ++ members) (members.foldl (summarize imports rule contexts true) summaries) := by
  induction members with
  | nil =>
    intro done summaries before
    simpa using before
  | cons f members ih =>
    intro done summaries before
    obtain ⟨isCycle,others⟩ := List.forall_mem_cons.mp cycles
    have first : Done imports graph contexts rule (done ++ [f]) (summarize imports rule contexts true summaries f) :=
      summarize_done before fun ctx isContext => summarised_own isContext isCycle
    simpa using ih others first

theorem sccIsRecursive_iff (emitted : Tarjan.Emitted graph.directSuccessors sccs.components) (member : scc ∈ sccs.components) :
    sccIsRecursive graph sccs scc = true ↔ ∀ f ∈ scc, Relation.TransGen graph.Calls f f := by
  cases scc with
  | nil => exact absurd rfl (emitted.filled [] member)
  | cons first rest =>
    have inside : first ∈ first :: rest := List.mem_cons_self
    have isFirst : sccs.isRecursive first graph = true ↔ Relation.TransGen graph.Calls first first := by
      rw [isRecursive_cycle emitted]
      exact ⟨fun both => both.2,fun cycle => ⟨List.mem_flatten.mpr ⟨_,member,inside⟩,cycle⟩⟩
    cases rest with
    | nil =>
      simpa [sccIsRecursive] using isFirst
    | cons second rest =>
      have long : sccIsRecursive graph sccs (first :: second :: rest) = true := by simp [sccIsRecursive]
      refine iff_of_true long fun f isMember => ?_
      exact (cycle_component emitted member isMember).mpr (.inl (by simp))

theorem component_done (covers : GraphCovers graph contexts imports)
    (emitted : Tarjan.Emitted graph.directSuccessors sccs.components) (split : sccs.components = before ++ scc :: after)
    {summaries : FuncId → Option FunctionSummary} (done : Done imports graph contexts rule before.flatten summaries) :
    Done imports graph contexts rule (before ++ [scc]).flatten (summarizeComponent imports rule graph sccs contexts summaries scc) := by
  have member : scc ∈ sccs.components := by simp [split]
  have isRecursive := sccIsRecursive_iff emitted member
  unfold summarizeComponent
  rw [List.flatten_append,List.flatten_singleton]
  by_cases cycles : sccIsRecursive graph sccs scc = true
  · rw [cycles]
    exact recursive_done scc (isRecursive.mp cycles) done
  · obtain ⟨f,rfl⟩ : ∃ f, scc = [f] := by
      cases scc with
      | nil => exact absurd rfl (emitted.filled [] member)
      | cons f rest =>
        cases rest with
        | nil => exact ⟨f,rfl⟩
        | cons g rest => exact absurd (by simp [sccIsRecursive]) cycles
    have notCycle : ¬Relation.TransGen graph.Calls f f := by
      intro cycle
      exact cycles (isRecursive.mpr (by simpa using cycle))
    rw [Bool.not_eq_true] at cycles
    rw [cycles]
    refine summarize_done done fun ctx isContext => summarised_calls isContext notCycle ⟨done.right,?_⟩
    intro site isSite addr isDirect notImport isKnown
    have isCall := covers.calls f ctx isContext site isSite addr isDirect notImport isKnown
    rcases emitted.back before [f] after split f List.mem_cons_self ⟨addr⟩ (CallGraph.mem_directSuccessors.mpr isCall) with
      own | earlier
    · rw [List.mem_singleton.mp own] at isCall
      exact absurd (.single isCall) notCycle
    · exact done.known ⟨addr⟩ earlier isKnown

theorem components_done (covers : GraphCovers graph contexts imports)
    (emitted : Tarjan.Emitted graph.directSuccessors sccs.components) (rest : List (List FuncId)) :
    ∀ {before : List (List FuncId)} {summaries : FuncId → Option FunctionSummary}, sccs.components = before ++ rest →
      Done imports graph contexts rule before.flatten summaries →
      Done imports graph contexts rule sccs.components.flatten
        (rest.foldl (summarizeComponent imports rule graph sccs contexts) summaries) := by
  induction rest with
  | nil =>
    intro before summaries split done
    rw [split,List.append_nil]
    exact done
  | cons scc rest ih =>
    intro before summaries split done
    exact ih (by simp [split]) (component_done covers emitted split done)

end BottomUp

section Built

variable {resolve : List VarDef → Varnode → List UInt64} {imports : UInt64 → Option String} {funcs : List (FuncId × SsaCfg)}
  {graph : CallGraph} {contexts : FuncId → Option FunctionContext}

theorem lookup_pushEdge (edges : List (FuncId × List CallEdge)) (caller f : FuncId) (edge : CallEdge) :
    (CallGraph.pushEdge caller edge edges).lookup f =
      if f = caller then some ((edges.lookup caller).getD [] ++ [edge]) else edges.lookup f := by
  induction edges with
  | nil =>
    by_cases same : f = caller
    · simp [CallGraph.pushEdge,same]
    · simp [CallGraph.pushEdge,List.lookup_cons,same,beq_false_of_ne same]
  | cons first rest ih =>
    obtain ⟨id,own⟩ := first
    by_cases isCaller : id = caller
    · subst isCaller
      by_cases same : f = id
      · simp [CallGraph.pushEdge,same]
      · simp [CallGraph.pushEdge,List.lookup_cons,same,beq_false_of_ne same]
    · by_cases same : f = id
      · subst same
        simp [CallGraph.pushEdge,isCaller]
      · simp [CallGraph.pushEdge,isCaller,List.lookup_cons,beq_false_of_ne same,beq_false_of_ne (Ne.symm isCaller),ih]

theorem calls_addEdge {caller f g : FuncId} {edge : CallEdge} :
    (graph.addEdge caller edge).Calls f g ↔ graph.Calls f g ∨ f = caller ∧ edge.callee = .direct g := by
  unfold CallGraph.Calls CallGraph.edgesOf CallGraph.addEdge
  rw [lookup_pushEdge]
  by_cases same : f = caller
  · subst same
    cases graph.edges.lookup f with
    | none => simp
    | some own => simp [or_and_right,exists_or]
  · simp [same]

theorem mem_addFunction {id f : FuncId} : f ∈ (graph.addFunction id).funcs ↔ f ∈ graph.funcs ∨ f = id := by
  unfold CallGraph.addFunction
  by_cases known : id ∈ graph.funcs
  · simp only [List.contains_iff_mem,known,if_true]
    exact ⟨.inl,fun either => either.elim (fun member => member) fun same => same ▸ known⟩
  · simp [known]

theorem mem_addFunctions (funcs : List (FuncId × SsaCfg)) : ∀ {graph : CallGraph},
    f ∈ (funcs.foldl (fun graph func => graph.addFunction func.1) graph).funcs ↔ f ∈ graph.funcs ∨ ∃ ssa, (f,ssa) ∈ funcs := by
  induction funcs with
  | nil => simp
  | cons func funcs ih =>
    intro graph
    obtain ⟨id,own⟩ := func
    rw [List.foldl_cons,ih,mem_addFunction]
    constructor
    · rintro ((before | rfl) | ⟨ssa,member⟩)
      · exact .inl before
      · exact .inr ⟨own,List.mem_cons_self⟩
      · exact .inr ⟨ssa,List.mem_cons_of_mem _ member⟩
    · rintro (before | ⟨ssa,member⟩)
      · exact .inl (.inl before)
      · rcases List.mem_cons.mp member with same | later
        · cases same
          exact .inl (.inr rfl)
        · exact .inr ⟨ssa,later⟩

-- The calls that were seen are in the graph.
theorem addUnseen_calls (caller : FuncId) (edges : List CallEdge) : ∀ {seen : List (UInt64 × CalleeRef)} {graph : CallGraph},
    (∀ key ∈ seen, ∀ g, key.2 = .direct g → graph.Calls caller g) →
      (edges.foldl (addUnseen caller) (seen,graph)).2.funcs = graph.funcs ∧
      (∀ f g, graph.Calls f g → (edges.foldl (addUnseen caller) (seen,graph)).2.Calls f g) ∧
      ∀ edge ∈ edges, ∀ g, edge.callee = .direct g → (edges.foldl (addUnseen caller) (seen,graph)).2.Calls caller g := by
  induction edges with
  | nil =>
    intro seen graph _
    exact ⟨rfl,fun _ _ isCall => isCall,List.forall_mem_nil _⟩
  | cons edge edges ih =>
    intro seen graph known
    rw [List.foldl_cons]
    by_cases isSeen : (edge.callSite,edge.callee) ∈ seen
    · have step : addUnseen caller (seen,graph) edge = (seen,graph) := by simp [addUnseen,isSeen]
      rw [step]
      obtain ⟨sameFuncs,kept,all⟩ := ih known
      refine ⟨sameFuncs,kept,List.forall_mem_cons.mpr ⟨fun g isDirect => ?_,all⟩⟩
      exact kept caller g (known _ isSeen g isDirect)
    · have step : addUnseen caller (seen,graph) edge = (seen ++ [(edge.callSite,edge.callee)],graph.addEdge caller edge) := by
        simp [addUnseen,isSeen]
      rw [step]
      have knownAll : ∀ key ∈ seen ++ [(edge.callSite,edge.callee)], ∀ g, key.2 = .direct g →
          (graph.addEdge caller edge).Calls caller g := by
        intro key member g isDirect
        rcases List.mem_append.mp member with before | isLast
        · exact calls_addEdge.mpr (.inl (known key before g isDirect))
        · rw [List.mem_singleton.mp isLast] at isDirect
          exact calls_addEdge.mpr (.inr ⟨rfl,isDirect⟩)
      obtain ⟨sameFuncs,kept,all⟩ := ih knownAll
      refine ⟨sameFuncs,fun f g isCall => kept f g (calls_addEdge.mpr (.inl isCall)),
        List.forall_mem_cons.mpr ⟨fun g isDirect => ?_,all⟩⟩
      exact kept caller g (calls_addEdge.mpr (.inr ⟨rfl,isDirect⟩))

theorem addCalls_run (all : List (FuncId × SsaCfg)) (rest : List (FuncId × SsaCfg)) : ∀ {graph : CallGraph},
    (rest.foldl (addCalls resolve imports all) graph).funcs = graph.funcs ∧
      (∀ f g, graph.Calls f g → (rest.foldl (addCalls resolve imports all) graph).Calls f g) ∧
      ∀ func ∈ rest, ∀ site ∈ callSites func.2, ∀ edge ∈ classifyEdges resolve imports all func.2.vars site.target, ∀ g,
        edge.callee = .direct g → (rest.foldl (addCalls resolve imports all) graph).Calls func.1 g := by
  induction rest with
  | nil =>
    intro graph
    exact ⟨rfl,fun _ _ isCall => isCall,List.forall_mem_nil _⟩
  | cons func rest ih =>
    intro graph
    rw [List.foldl_cons]
    have noneSeen : ∀ key ∈ ([] : List (UInt64 × CalleeRef)), ∀ g, key.2 = .direct g → graph.Calls func.1 g :=
      List.forall_mem_nil _
    obtain ⟨sameFuncs,kept,has⟩ := addUnseen_calls func.1
      ((callSites func.2).flatMap fun site => classifyEdges resolve imports all func.2.vars site.target) noneSeen
    obtain ⟨sameFuncs',kept',has'⟩ := @ih (addCalls resolve imports all graph func)
    refine ⟨sameFuncs'.trans sameFuncs,fun f g isCall => kept' f g (kept f g isCall),List.forall_mem_cons.mpr ⟨?_,has'⟩⟩
    intro site isSite edge isEdge g isDirect
    exact kept' func.1 g (has edge (List.mem_flatMap.mpr ⟨site,isSite,isEdge⟩) g isDirect)

theorem buildCallGraph_covers (within : ∀ f ctx, contexts f = some ctx → (f,ctx.ssa) ∈ funcs) :
    GraphCovers (buildCallGraph resolve imports funcs) contexts imports := by
  obtain ⟨sameFuncs,_,has⟩ := @addCalls_run resolve imports funcs funcs
    (funcs.foldl (fun graph func => graph.addFunction func.1) .new)
  constructor
  · intro f ctx isContext
    refine ⟨f,?_,.refl⟩
    unfold buildCallGraph
    rw [sameFuncs,mem_addFunctions]
    exact .inr ⟨ctx.ssa,within f ctx isContext⟩
  · intro f ctx isContext site isSite addr isDirect notImport isKnown
    obtain ⟨callee,isCallee⟩ := Option.ne_none_iff_exists'.mp isKnown
    have isFunc : (funcs.map Prod.fst).contains ⟨addr⟩ = true := by
      rw [List.contains_iff_mem]
      exact List.mem_map.mpr ⟨_,within ⟨addr⟩ callee isCallee,rfl⟩
    refine has (f,ctx.ssa) (within f ctx isContext) site isSite ⟨.direct ⟨addr⟩,0⟩ ?_ ⟨addr⟩ rfl
    simp only [isDirect,classifyEdges,classifyAddr,notImport,isFunc,if_true,List.mem_singleton]

end Built

-- Every function gets the invocations of its own and those that its chains of calls lead to.
theorem buildSummariesBottomUp_chains (rule : StoreRule) (covers : GraphCovers graph contexts imports) :
    ∃ enough, ∀ fuel ≥ enough, ∃ sccs, tarjanSccs fuel graph = some sccs ∧ ∀ f, ∀ ctx, contexts f = some ctx →
      ∃ summary, buildSummariesBottomUp imports rule graph sccs contexts f = some summary ∧
        Summarised imports graph contexts rule f summary := by
  obtain ⟨enough,all⟩ := tarjanSccs_emitted graph
  refine ⟨enough,fun fuel isEnough => ?_⟩
  obtain ⟨sccs,isSccs,emitted,reached⟩ := all fuel isEnough
  refine ⟨sccs,isSccs,fun f ctx isContext => ?_⟩
  have start : Done imports graph contexts rule [] fun _ => none :=
    ⟨fun g summary isSummary => (by cases isSummary),List.forall_mem_nil _,fun _ _ => rfl⟩
  have done := components_done covers emitted sccs.components (List.nil_append _).symm start
  have isKnown := done.known f ((reached f).mpr (covers.explored f ctx isContext)) (by simp [isContext])
  obtain ⟨summary,isSummary⟩ := Option.ne_none_iff_exists'.mp isKnown
  exact ⟨summary,isSummary,done.right f summary isSummary⟩

-- A wrapper passes its arguments on to a function that copies a string.
def wrappingFuncs : List (FuncId × SsaCfg) :=
  [(⟨0x2000⟩, ⟨[⟨0x2000, [.call (.direct 0x1000) [0, 1] none], .ret none⟩], [SsaCfg.sentinel, SsaCfg.sentinel], 0, []⟩),
   (⟨0x1000⟩, ⟨[⟨0x1000, [.call (.direct 0x3000) [0, 1] none], .ret none⟩], [SsaCfg.sentinel, SsaCfg.sentinel], 0, []⟩)]

def wrappingContexts (f : FuncId) : Option FunctionContext :=
  (wrappingFuncs.lookup f).map fun ssa => ⟨ssa, [(0, 0), (1, 1)]⟩

def wrappingImports (addr : UInt64) : Option String := if addr = 0x3000 then some "strcpy" else none

theorem wrapping_within (f : FuncId) (ctx : FunctionContext) (isContext : wrappingContexts f = some ctx) :
    (f,ctx.ssa) ∈ wrappingFuncs := by
  obtain ⟨ssa,isSsa,rfl⟩ := Option.map_eq_some_iff.mp isContext
  obtain ⟨before,after,split,_⟩ := List.lookup_eq_some_iff.mp isSsa
  rw [split]
  simp

theorem buildSummariesBottomUp_chains_wrapping :
    ∃ enough, ∀ fuel ≥ enough, ∃ sccs,
      tarjanSccs fuel (buildCallGraph (fun _ _ => []) wrappingImports wrappingFuncs) = some sccs ∧
      ∀ f, ∀ ctx, wrappingContexts f = some ctx → ∃ summary, buildSummariesBottomUp wrappingImports
          ⟨fun _ => false,fun _ _ _ => none⟩ (buildCallGraph (fun _ _ => []) wrappingImports wrappingFuncs) sccs wrappingContexts f =
          some summary ∧
        Summarised wrappingImports (buildCallGraph (fun _ _ => []) wrappingImports wrappingFuncs) wrappingContexts
          ⟨fun _ => false,fun _ _ _ => none⟩ f summary :=
  buildSummariesBottomUp_chains _ (buildCallGraph_covers wrapping_within)

end Rsleigh.Decompile
