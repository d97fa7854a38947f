import Mathlib
import Rsleigh.Agent.SsaSlice
import Rsleigh.Investigation.Document

namespace Rsleigh.Investigation

open Agent

def shortHash (tool : Tool) (value : Json) : String :=
  String.ofList ((tool.sha256 (canonicalBytes value)).toList.take 12)

def recordFunction (record : Json) : Option String :=
  (((record.get "payload").get "function").get "address").asText.or
    ((record.get "payload").get "function_address").asText

def satisfies (requirement : Requirement) (record : Json) : Bool :=
  decide (record.get "status" ≠ .text "failed") &&
    (requirement.operations.isEmpty || requirement.operations.any fun op => decide (record.get "kind" = .text op)) &&
    (requirement.functionAddress.isNull || decide (recordFunction record = requirement.functionAddress.asText))

-- Cited evidence must be in the store and describe the investigation's target.
def citeOne (tool : Tool) (store : Store) (doc : Document) (id : String) : Outcome Json :=
  (load tool store id).bind fun record =>
    if (record.get "subject").get "binary_sha256" ≠ doc.targetSha then
      .error ⟨"invalid_combination", id ++ " describes a different binary"⟩
    else .ok record

def citeAll (tool : Tool) (store : Store) (doc : Document) (ids : List String) : Outcome (List Json) :=
  ids.mapM (citeOne tool store doc)

def requirements (args : List String) : Outcome (List Requirement) :=
  (valuesArg args "--require").bind fun operations =>
    if operations.all fun op => op ∈ operationIds then .ok [⟨operations, .null⟩]
    else .error ⟨"invalid_value", "--require accepts agent-brief, card, ssa-slice, compare"⟩

def questionIssue (tool : Tool) (text : String) (requirements : List Requirement) (revision : Nat) (origin : Origin) :
    Issue where
  id := "q-" ++ shortHash tool (.record [("origin", .text "analyst"),("text", .text text)])
  origin := origin
  text := text
  state := .open
  source := none
  key := .null
  location := none
  supporting := []
  contradicting := []
  requirements := requirements
  resolution := none
  createdRevision := revision
  updatedRevision := revision

def limitReasons : List String :=
  ["node_limit","depth_limit","call_depth_limit","function_limit","traversal_work_limit"]

def selectorKeys : List String :=
  ["ssa-slice","var","call-site","arg","return","at","condition"]

-- `value.get(key)`.
def fieldOf (value : Json) (key : String) : Option Json :=
  match value with
  | .object fields => Json.field key fields
  | _ => none

-- The call origins from a context up to the root. A context is entered from an earlier one, so as many rounds as there
-- are contexts are enough.
def chainFrom (contexts : List Json) : Nat → Option Nat → List Json
  | 0, _ => []
  | _, none => []
  | rounds + 1, some id =>
    match contexts.find? fun context => context.get "id" = .natural id with
    | none => []
    | some entry =>
      let later := chainFrom contexts rounds (entry.get "caller_context").asNatural
      if (entry.get "call_origin").isNull then later else entry.get "call_origin" :: later

-- A slice record as its boundaries are read.
structure SliceView where
  record : Json
  slice : Json
  contexts : List Json
  rootFunction : Json
  parameters : Json
  selector : Json

def sliceView (record : Json) : SliceView where
  record := record
  slice := (record.get "payload").get "slice"
  contexts := (((record.get "payload").get "slice").get "contexts").items
  rootFunction := (record.get "payload").get "function_address"
  parameters := (record.get "operation").get "parameters"
  selector := .record (selectorKeys.filterMap fun key =>
    (fieldOf ((record.get "operation").get "parameters") key).map fun value => (key, value))

def SliceView.nodes (view : SliceView) : List Json :=
  (view.slice.get "nodes").items

def nodeFunction (node : Json) : String :=
  addressText ((node.get "function_address").asNatural.getD 0)

def boundaryKey (view : SliceView) (node : Json) (reason : String) : Json :=
  .record [
    ("target", (view.record.get "subject").get "binary_sha256"),
    ("profile", .record [
      ("build", (view.record.get "producer").get "build"),
      ("profile", (view.record.get "producer").get "profile")
    ]),
    ("selector", view.selector),
    ("context", .array (chainFrom view.contexts view.contexts.length (node.get "context_id").asNatural)),
    ("function_address", .text (nodeFunction node)),
    ("origin", .record [
      ("operations", (node.get "origins").get "operations"),
      ("var_id", node.get "var_id")
    ]),
    ("reason", .text reason)
  ]

def originText (node : Json) : String :=
  match (((node.get "origins").get "operations").items.head?.getD .null).get "instruction_address" |>.asNatural with
  | some address => " (origin " ++ addressText address ++ ")"
  | none => ""

def boundaryIssue (tool : Tool) (view : SliceView) (revision index : Nat) (node : Json) (reason : String) : Issue where
  id := "u-" ++ shortHash tool (boundaryKey view node reason)
  origin := .sliceBoundary
  text := "Unresolved " ++ reason ++ " in " ++ nodeFunction node ++ ", SSA variable " ++
    String.ofList (canonicalText (node.get "var_id")) ++ originText node
  state := .open
  source := (view.record.get "id").asText
  key := boundaryKey view node reason
  location := some {
    functionAddress := .text (nodeFunction node)
    rootFunction := view.rootFunction
    varId := node.get "var_id"
    nodeIndex := index
    call := node.get "call"
    limits := view.slice.get "limits"
    parameters := view.parameters
  }
  supporting := []
  contradicting := []
  requirements :=
    if reason ∈ limitReasons then [⟨["ssa-slice"], view.rootFunction⟩]
    else [⟨["card","ssa-slice"], .text (nodeFunction node)⟩]
  resolution := none
  createdRevision := revision
  updatedRevision := revision

def nodeIssue (tool : Tool) (view : SliceView) (revision index : Nat) : Outcome Issue :=
  match view.nodes[index]? with
  | none => .error ⟨"invalid_value", "slice has no node " ++ toString index⟩
  | some node =>
    match (node.get "boundary").asText with
    | none => .error ⟨"invalid_value", "node " ++ toString index ++ " has no unresolved boundary"⟩
    | some reason => .ok (boundaryIssue tool view revision index node reason)

def selectedNodes (view : SliceView) (nodes : List Nat) : List Nat :=
  if nodes.isEmpty then
    (List.range view.nodes.length).filter fun index =>
      ((view.nodes[index]?.getD .null).get "boundary").asText.isSome
  else nodes

def boundaryIssues (tool : Tool) (record : Json) (nodes : List Nat) (revision : Nat) : Outcome (List Issue) :=
  if record.get "kind" ≠ .text "ssa-slice" then
    .error ⟨"invalid_value", "--add-unknowns requires an ssa-slice evidence record"⟩
  else
    let view := sliceView record
    (selectedNodes view nodes).mapM (nodeIssue tool view revision)

-- The IDs become a set: in order, and once.
def mergeIds (target added : List String) : List String :=
  textSet (target ++ added)

def actions : List String :=
  ["--add-question","--add-unknowns","--observe","--infer","--support","--contradict","--resolve"]

def updateOnly : List String :=
  ["--expect-revision","--cite","--node","--disposition","--note","--require"]

def issueIndex (doc : Document) (id : String) : Outcome Nat :=
  match doc.issues.findIdx? fun issue => issue.id = id with
  | some index => .ok index
  | none => .error ⟨"target_not_found", "no issue " ++ id⟩

def addQuestion (tool : Tool) (args : List String) (revision : Nat) (text : String) (doc : Document) :
    Outcome (Document × String) :=
  (requirements args).bind fun requirements =>
    let issue := questionIssue tool text requirements revision .analyst
    if doc.issues.any fun other => other.id = issue.id then
      .error ⟨"invalid_value", "question " ++ issue.id ++ " already exists"⟩
    else .ok ({ doc with issues := doc.issues ++ [issue] }, issue.id)

-- The issues that are not tracked yet, in order.
def trackNew : List Issue → List Issue → List Issue
  | tracked, [] => tracked
  | tracked, issue :: rest =>
    if tracked.any fun other => other.id = issue.id then trackNew tracked rest
    else trackNew (tracked ++ [issue]) rest

def parseNode (text : String) : Outcome Nat :=
  match parseNumber text with
  | some node => .ok node
  | none => .error ⟨"invalid_value", "--node requires a node index"⟩

def addUnknowns (tool : Tool) (store : Store) (args : List String) (revision : Nat) (id : String) (doc : Document) :
    Outcome (Document × String) :=
  (citeOne tool store doc id).bind fun record =>
    ((valuesArg args "--node").bind fun texts => texts.mapM parseNode).bind fun nodes =>
      (boundaryIssues tool record nodes revision).bind fun found =>
        let issues := trackNew doc.issues found
        if issues.length = doc.issues.length then
          .error ⟨"invalid_value", "no new unresolved boundaries in " ++ id ++ " (" ++ toString found.length ++
            " already tracked)"⟩
        else .ok ({ doc with issues }, id)

def entryId (start : String) (section_ : List Entry) : String :=
  start ++ toString (section_.length + 1)

def observe (cited : List String) (revision : Nat) (text : String) (doc : Document) : Outcome (Document × String) :=
  if cited.isEmpty then .error ⟨"invalid_combination", "--observe requires at least one --cite ID"⟩
  else
    let id := entryId "obs-" doc.observations
    .ok ({ doc with observations := doc.observations ++ [⟨id, text, cited, revision, none, none⟩] }, id)

def infer (cited : List String) (revision : Nat) (text : String) (doc : Document) : Outcome (Document × String) :=
  let id := entryId "inf-" doc.inferences
  .ok ({ doc with inferences := doc.inferences ++
    [⟨id, text, cited, revision, some "provisional", some "analyst_inference"⟩] }, id)

def Issue.support (cited : List String) (revision : Nat) (issue : Issue) : Issue :=
  { issue with supporting := mergeIds issue.supporting cited, updatedRevision := revision }

def Issue.contradict (cited : List String) (revision : Nat) (issue : Issue) : Issue :=
  { issue with contradicting := mergeIds issue.contradicting cited, updatedRevision := revision }

def attach (action : String) (change : Issue → Issue) (cited : List String) (id : String) (doc : Document) :
    Outcome (Document × String) :=
  if cited.isEmpty then .error ⟨"invalid_combination", action ++ " requires at least one --cite ID"⟩
  else
    (issueIndex doc id).bind fun index => .ok ({ doc with issues := doc.issues.modify index change }, id)

def dispositionState (disposition : String) : Outcome State :=
  if disposition = "answered" then .ok .answered
  else if disposition = "withdrawn" then .ok .withdrawn
  else if disposition = "out-of-scope" then .ok .outOfScope
  else .error ⟨"invalid_value", "unknown disposition " ++ disposition⟩

def givenDisposition (args : List String) : Outcome State :=
  (valueArg args "--disposition").bind fun disposition =>
    match disposition with
    | some disposition => dispositionState disposition
    | none => .error ⟨"invalid_combination", "--resolve requires --disposition answered|withdrawn|out-of-scope"⟩

def Requirement.toJson (requirement : Requirement) : Json :=
  .record [("operations", .texts requirement.operations),("function_address", requirement.functionAddress)]

def checkRequirements (id : String) (available : List Json) : List Requirement → Outcome Unit
  | [] => .ok ()
  | requirement :: rest =>
    if available.any (satisfies requirement) then checkRequirements id available rest
    else .error ⟨"requirements_unmet", id ++ ": no cited evidence satisfies requirement " ++
      String.ofList (canonicalText requirement.toJson)⟩

-- The evidence of a resolution, and how it was checked. Supporting evidence counts towards an answer while it is in
-- the store.
def resolutionEvidence (tool : Tool) (store : Store) (doc : Document) (id : String) (issue : Issue) (state : State)
    (cited : List String) : Outcome (List String × String) :=
  if state = .answered then
    let evidence := textSet (cited ++ issue.supporting)
    (citeAll tool store doc evidence).bind fun available =>
      if available.isEmpty then .error ⟨"requirements_unmet", "an answer must cite available evidence"⟩
      else
        (checkRequirements id available issue.requirements).bind fun _ =>
          .ok (evidence, "references_and_requirements_checked")
  else .ok (textSet cited, "analyst_disposition_only")

def Issue.close (state : State) (note : Option String) (evidence : List String) (validation : String)
    (revision : Nat) (issue : Issue) : Issue :=
  { issue with
    state := state
    updatedRevision := revision
    resolution := some ⟨state, note, evidence, revision, validation⟩ }

def resolve (tool : Tool) (store : Store) (args cited : List String) (revision : Nat) (id : String) (doc : Document) :
    Outcome (Document × String) :=
  (issueIndex doc id).bind fun index =>
    match doc.issues[index]? with
    | none => .error ⟨"target_not_found", "no issue " ++ id⟩
    | some issue =>
      if issue.state ≠ .open then .error ⟨"invalid_combination", id ++ " is already closed"⟩
      else
        (givenDisposition args).bind fun state =>
          (resolutionEvidence tool store doc id issue state cited).bind fun (evidence, validation) =>
            (valueArg args "--note").bind fun note =>
              .ok ({ doc with
                issues := doc.issues.modify index (Issue.close state note evidence validation revision) }, id)

-- What one action makes of the document, before its number and its history are set.
def edit (tool : Tool) (store : Store) (args cited : List String) (revision : Nat) (action text : String)
    (doc : Document) : Outcome (Document × String) :=
  if action = "--add-question" then addQuestion tool args revision text doc
  else if action = "--add-unknowns" then addUnknowns tool store args revision text doc
  else if action = "--observe" then observe cited revision text doc
  else if action = "--infer" then infer cited revision text doc
  else if action = "--support" then attach action (Issue.support cited revision) cited text doc
  else if action = "--contradict" then attach action (Issue.contradict cited revision) cited text doc
  else if action = "--resolve" then resolve tool store args cited revision text doc
  else .error (commandFailed "cataloged action")

def checkSource (tool : Tool) (source : Option (List UInt8)) (doc : Document) : Outcome Unit :=
  match source with
  | none => .ok ()
  | some data =>
    if doc.targetSha ≠ .text (tool.sha256 data) then
      .error ⟨"verification_failed", "investigation target SHA-256 does not match the supplied binary"⟩
    else .ok ()

def checkRevision (args : List String) (doc : Document) : Outcome Unit :=
  (valueArg args "--expect-revision").bind fun expected =>
    match expected with
    | none => .error ⟨"invalid_combination", "updates require --expect-revision N"⟩
    | some expected =>
      if parseNumber expected ≠ some doc.revision then
        .error ⟨"stale_revision", "investigation is at revision " ++ toString doc.revision ++ ", not " ++ expected ++
          "; reload before updating"⟩
      else .ok ()

-- An argument of the catalog that has been checked to be there.
def actionValue (args : List String) (action : String) : Outcome String :=
  (valueArg args action).bind fun given =>
    match given with
    | some text => .ok text
    | none => .error (commandFailed "validated action value")

def commitTo (revision : Nat) (action subject : String) (doc : Document) : Document :=
  { doc with
    revision := revision
    history := doc.history ++ [⟨revision, String.ofList (trimDashes action.toList), subject⟩] }

-- The document that an update means to commit, after all of its own checks. There is none where the investigation is
-- only shown.
def draft (tool : Tool) (store : Store) (source : Option (List UInt8)) (args : List String) (doc : Document) :
    Outcome (Option Document) :=
  (checkSource tool source doc).bind fun _ =>
    match actions.filter fun action => action ∈ args with
    | [] =>
      match updateOnly.find? fun flag => flag ∈ args with
      | some flag => .error ⟨"invalid_combination", flag ++ " needs an update action"⟩
      | none => .ok none
    | _ :: _ :: _ =>
      .error ⟨"invalid_combination", "apply exactly one update action per revision, without --handoff"⟩
    | [action] =>
      if "--handoff" ∈ args then
        .error ⟨"invalid_combination", "apply exactly one update action per revision, without --handoff"⟩
      else
        (checkRevision args doc).bind fun _ =>
          (valuesArg args "--cite").bind fun cited =>
            (citeAll tool store doc cited).bind fun _ =>
              (actionValue args action).bind fun text =>
                (edit tool store args cited (doc.revision + 1) action text doc).bind fun (edited, subject) =>
                  .ok (some (commitTo (doc.revision + 1) action subject edited))

-- What is committed.
def update (tool : Tool) (store : Store) (source : Option (List UInt8)) (args : List String) (doc : Document) :
    Outcome (Option Document) :=
  (draft tool store source args doc).bind fun next =>
    match next with
    | none => .ok none
    | some next =>
      match validateDocument next with
      | .ok _ => .ok (some next)
      | .error message => .error (commandFailed message)

def createdDocument (tool : Tool) (binaryPath : String) (data : List UInt8) (question : String)
    (requirements : List Requirement) (nonce : Nat) : Document :=
  let id := "inv-" ++ shortHash tool (.record [
    ("target", subject tool data),
    ("question", .text question),
    ("nonce", .text (toString nonce))
  ])
  { schema := documentSchema
    id := id
    revision := 1
    question := question
    target := subject tool data
    fileHint := binaryPath
    createdBy := .record [("name", .text "rsleigh"),("version", .text tool.version),("build", tool.build)]
    issues := [questionIssue tool question requirements 1 .question]
    observations := []
    inferences := []
    history := [⟨1, "create", id⟩] }

def create (tool : Tool) (binaryPath : String) (data : List UInt8) (args : List String) (nonce : Nat) :
    Outcome Document :=
  (valueArg args "--question").bind fun question =>
    match question with
    | none => .error ⟨"invalid_combination", "--investigate requires --question TEXT"⟩
    | some question =>
      (requirements args).bind fun requirements =>
        let doc := createdDocument tool binaryPath data question requirements nonce
        match validateDocument doc with
        | .ok _ => .ok doc
        | .error message => .error (commandFailed message)

end Rsleigh.Investigation
