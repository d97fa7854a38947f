import Mathlib
import Rsleigh.Agent.Evidence
import Rsleigh.Decompile.Ir

namespace Rsleigh.Agent

-- Why a node of a slice is left unresolved.
inductive Reason where
  | memory (boundary : Decompile.Boundary)
  | unmodeledUserOp
  | externalInput
  | unknownValue
  | unmodeledCall
  | missingCallArgument
  | unknownCall
  | ambiguousCall
  | externalCall
  | nodeLimit
  | callDepthLimit
  | recursionLimit
  | functionLimit
  | traversalWorkLimit
  | functionUnavailable
  | unsupportedSideEffects
  | unsupportedReturn
  | contextLimit
  | inputLimit
  deriving DecidableEq

def boundaryText : Decompile.Boundary → String
  | .unmodeledMemory => "unmodeled_memory"
  | .ambiguousAlias => "ambiguous_alias"
  | .overlappingStore => "overlapping_store"
  | .unsupportedSideEffects => "unsupported_side_effects"
  | .unsupportedAddressSpace => "unsupported_address_space"
  | .memoryStateLimit => "memory_state_limit"
  | .memoryTraversalLimit => "memory_traversal_limit"

def Reason.asText : Reason → String
  | .memory boundary => boundaryText boundary
  | .unmodeledUserOp => "unmodeled_user_op"
  | .externalInput => "external_input"
  | .unknownValue => "unknown_value"
  | .unmodeledCall => "unmodeled_call"
  | .missingCallArgument => "missing_call_argument"
  | .unknownCall => "unknown_call"
  | .ambiguousCall => "ambiguous_call"
  | .externalCall => "external_call"
  | .nodeLimit => "node_limit"
  | .callDepthLimit => "call_depth_limit"
  | .recursionLimit => "recursion_limit"
  | .functionLimit => "function_limit"
  | .traversalWorkLimit => "traversal_work_limit"
  | .functionUnavailable => "function_unavailable"
  | .unsupportedSideEffects => "unsupported_side_effects"
  | .unsupportedReturn => "unsupported_return"
  | .contextLimit => "context_limit"
  | .inputLimit => "input_limit"

structure OperationOrigin where
  instructionAddress : Nat
  operationIndex : Nat
  deriving DecidableEq

-- A node of an interprocedural slice, with the fields that its readers use.
structure SliceNode where
  varId : Nat
  origins : List OperationOrigin
  boundary : Option Reason
  contextId : Nat
  functionAddress : Nat
  call : Json

structure SliceContext where
  id : Nat
  functionAddress : Nat
  callerContext : Option Nat
  callOrigin : Option OperationOrigin

structure SliceLimits where
  maxNodes : Nat
  maxDepth : Nat
  maxCallDepth : Nat
  maxFunctions : Nat
  maxWork : Nat

structure BackwardSlice where
  nodes : List SliceNode
  contexts : List SliceContext
  complete : Bool
  truncated : Bool
  limits : SliceLimits
  stops : List String

def OperationOrigin.toJson (origin : OperationOrigin) : Json :=
  .record [
    ("instruction_address", .natural origin.instructionAddress),
    ("operation_index", .natural origin.operationIndex)
  ]

def SliceNode.toJson (node : SliceNode) : Json :=
  .record [
    ("var_id", .natural node.varId),
    ("origins", .record [("operations", .array (node.origins.map OperationOrigin.toJson))]),
    ("boundary", Json.optional (fun reason => .text (Reason.asText reason)) node.boundary),
    ("context_id", .natural node.contextId),
    ("function_address", .natural node.functionAddress),
    ("call", node.call)
  ]

def SliceContext.toJson (context : SliceContext) : Json :=
  .record [
    ("id", .natural context.id),
    ("function_address", .natural context.functionAddress),
    ("caller_context", Json.optional .natural context.callerContext),
    ("call_origin", Json.optional OperationOrigin.toJson context.callOrigin)
  ]

def SliceLimits.toJson (limits : SliceLimits) : Json :=
  .record [
    ("max_nodes", .natural limits.maxNodes),
    ("max_depth", .natural limits.maxDepth),
    ("max_call_depth", .natural limits.maxCallDepth),
    ("max_functions", .natural limits.maxFunctions),
    ("max_work", .natural limits.maxWork)
  ]

def BackwardSlice.toJson (slice : BackwardSlice) : Json :=
  .record [
    ("nodes", .array (slice.nodes.map SliceNode.toJson)),
    ("contexts", .array (slice.contexts.map SliceContext.toJson)),
    ("complete", .bool slice.complete),
    ("truncated", .bool slice.truncated),
    ("limits", slice.limits.toJson),
    ("stops", .texts slice.stops)
  ]

-- agent/slice.rs and slice/selector.rs.
inductive Selector where
  | variable (varId : Nat)
  | callArgument (address index : Nat)
  | return (address : Option Nat)
  | condition (address : Nat)

def Selector.toJson : Selector → Json
  | .variable varId => .record [("kind", .text "variable"),("var_id", .natural varId)]
  | .callArgument address index =>
    .record [("kind", .text "call_argument"),("address", .natural address),("index", .natural index)]
  | .return address => .record [("kind", .text "return"),("address", Json.optional .natural address)]
  | .condition address => .record [("kind", .text "condition"),("address", .natural address)]

def commandFailed (message : String) : AgentError :=
  ⟨"command_failed", message⟩

def selectorAddress (text : String) : Except String Nat :=
  match parseAddress text with
  | some address => .ok address
  | none =>
    if "0x".toList.isPrefixOf text.toList || "0X".toList.isPrefixOf text.toList then
      .error "invalid selector instruction address"
    else .error "selector addresses require a 0x-prefixed hexadecimal address"

-- `value_arg` where the error is kept as a message.
def messageArg (args : List String) (flag : String) : Except String (Option String) :=
  (valueArg args flag).mapError AgentError.message

def selectRoot (var call argument condition site : Option String) (returns : Nat) : Except String Selector :=
  if var.isSome.toNat + call.isSome.toNat + condition.isSome.toNat + returns ≠ 1 then
    .error ("select exactly one root: --var ID, --call-site ADDRESS --arg INDEX, --return [--at ADDRESS], " ++
      "or --condition ADDRESS")
  else if argument.isSome ≠ call.isSome then .error "--call-site and --arg must be used together"
  else if site.isSome ∧ returns ≠ 1 then .error "--at requires --return"
  else
    match var, call, condition, site with
    | some var, _, _, _ =>
      match (parseNumber var).filter fun varId => varId < 2 ^ 32 with
      | some varId => .ok (.variable varId)
      | none => .error "--var requires an unsigned SSA variable ID"
    | none, some call, _, _ =>
      (selectorAddress call).bind fun address =>
        match parseNumber (argument.getD "") with
        | some index => .ok (.callArgument address index)
        | none => .error "--arg requires a zero-based unsigned argument index"
    | none, none, some condition, _ => (selectorAddress condition).map Selector.condition
    | none, none, none, some site => (selectorAddress site).map fun address => .return (some address)
    | none, none, none, none => .ok (.return none)

def selectorFromArgs (args : List String) : Except String Selector := do
  let var ← messageArg args "--var"
  let call ← messageArg args "--call-site"
  let argument ← messageArg args "--arg"
  let condition ← messageArg args "--condition"
  let site ← messageArg args "--at"
  selectRoot var call argument condition site (args.count "--return")

def parseSelector (args : List String) : Outcome Selector :=
  (selectorFromArgs args).mapError fun message => ⟨"invalid_selector", message⟩

-- The outcome of a function's analysis under the execution limits.
inductive Analysis where
  | complete (diagnostics : List Json)
  | stopped (instructions diagnostics : List Json)

-- What the analyses behind one run of the operation return: the native parse, the target, the snapshot and its
-- metrics, the selected root, the traversal, and the evidence printed beside the slice.
structure SliceRun where
  native : Outcome Unit
  target : String → Outcome Nat
  analyze : Nat → Outcome (Analysis × Json)
  architecture : String
  select : Nat → Selector → Except (String × String) Json
  traverse : Nat → SliceLimits → Outcome BackwardSlice
  evidence : BackwardSlice → Json
  diagnostics : BackwardSlice → List Json
  metrics : BackwardSlice → Json

def maxInstructions : Nat := 40

def executionScope (args : List String) : Outcome Unit := do
  let _ ← numberArg args "--max-decode-instructions" 0
  let _ ← numberArg args "--max-ssa-work" 0
  let _ ← numberArg args "--deadline-ms" 0

def stoppedPayload (tool : Tool) (data : List UInt8) (address : Nat) (selector : Selector)
    (instructions diagnostics : List Json) (metrics : Json) : Json :=
  let status := if instructions.isEmpty then "failed" else "partial"
  let payload := Json.record [
    ("schema", .text "rsleigh.ssa-slice/v3"),
    ("status", .text status),
    ("error", .text "analysis execution limit reached"),
    ("file_sha256", .text (tool.sha256 data)),
    ("function_address", .text (addressText address)),
    ("tool_version", .text tool.version),
    ("selector", selector.toJson),
    ("slice", .null),
    ("diagnostics", .array diagnostics),
    ("metrics", metrics),
    ("evidence", .record [
      ("instructions", .array (instructions.take maxInstructions)),
      ("decoded_total", .natural instructions.length),
      ("truncated", .bool (maxInstructions < instructions.length))
    ])
  ]
  if instructions.isEmpty then payload.set "error_code" (.text "execution_limit") else payload

def refusedPayload (tool : Tool) (data : List UInt8) (address : Nat) (selector : Selector) (failure : String × String)
    (metrics : Json) : Json :=
  .record [
    ("schema", .text "rsleigh.ssa-slice/v3"),
    ("status", .text "failed"),
    ("file_sha256", .text (tool.sha256 data)),
    ("function_address", .text (addressText address)),
    ("tool_version", .text tool.version),
    ("snapshot", .text "post-fold/v3"),
    ("selector", selector.toJson),
    ("selection_error", .record [("code", .text failure.1),("message", .text failure.2)]),
    ("error", .text failure.2),
    ("error_code", .text "invalid_selector"),
    ("metrics", metrics)
  ]

def slicePayload (tool : Tool) (data : List UInt8) (address : Nat) (architecture : String)
    (diagnostics : List Json) (selection : Json) (slice : BackwardSlice) (metrics evidence : Json) : Json :=
  .record [
    ("schema", .text "rsleigh.ssa-slice/v3"),
    ("status", .text (if slice.complete ∧ diagnostics.isEmpty then "ok" else "partial")),
    ("file_sha256", .text (tool.sha256 data)),
    ("tool_version", .text tool.version),
    ("function_address", .text (addressText address)),
    ("arch", .text architecture),
    ("snapshot", .text "post-fold/v3"),
    ("diagnostics", .array diagnostics),
    ("selection", selection),
    ("slice", slice.toJson),
    ("metrics", metrics),
    ("evidence", evidence),
    ("scope", .text ("bounded expression, exact-location memory, and helper-call dependencies; remaining aliases, " ++
      "side effects, and traversal limits are explicit boundaries"))
  ]

-- The payload that the operation emits.
def sliceRun (tool : Tool) (run : SliceRun) (data : List UInt8) (args : List String) : Outcome Json := do
  executionScope args
  match ← valueArg args "--ssa-slice" with
  | none => .error (commandFailed "--ssa-slice requires a function")
  | some target =>
    let selector ← parseSelector args
    let maxNodes ← numberArg args "--max-nodes" 64
    let maxDepth ← numberArg args "--max-depth" 16
    run.native
    let address ← run.target target
    match ← run.analyze address with
    | (.stopped instructions diagnostics, metrics) =>
      .ok (stoppedPayload tool data address selector instructions diagnostics metrics)
    | (.complete diagnostics, metrics) =>
      match run.select address selector with
      | .error failure => .ok (refusedPayload tool data address selector failure metrics)
      | .ok selection => do
        let maxCallDepth ← numberArg args "--max-call-depth" 2
        let maxFunctions ← numberArg args "--max-functions" 16
        let maxWork ← numberArg args "--max-traversal-work" 100000
        let slice ← run.traverse address ⟨maxNodes, maxDepth, maxCallDepth, maxFunctions, maxWork⟩
        .ok (slicePayload tool data address run.architecture (diagnostics ++ run.diagnostics slice) selection slice
          (run.metrics slice) (run.evidence slice))

end Rsleigh.Agent
