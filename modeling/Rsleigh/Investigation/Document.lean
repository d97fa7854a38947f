import Mathlib
import Rsleigh.Agent.Evidence

namespace Rsleigh.Investigation

open Agent

-- agent/investigation.rs.
def documentSchema : String := "rsleigh.investigation/v1"

def operationIds : List String := ["agent-brief","card","ssa-slice","compare"]

inductive State where
  | open
  | answered
  | withdrawn
  | outOfScope
  deriving DecidableEq

inductive Origin where
  | question
  | analyst
  | sliceBoundary
  deriving DecidableEq

structure Requirement where
  operations : List String
  functionAddress : Json
  deriving DecidableEq

structure Resolution where
  disposition : State
  note : Option String
  evidence : List String
  revision : Nat
  validation : String
  deriving DecidableEq

structure Location where
  functionAddress : Json
  rootFunction : Json
  varId : Json
  nodeIndex : Nat
  call : Json
  limits : Json
  parameters : Json
  deriving DecidableEq

structure Issue where
  id : String
  origin : Origin
  text : String
  state : State
  source : Option String
  key : Json
  location : Option Location
  supporting : List String
  contradicting : List String
  requirements : List Requirement
  resolution : Option Resolution
  createdRevision : Nat
  updatedRevision : Nat
  deriving DecidableEq

-- An observation or an inference.
structure Entry where
  id : String
  text : String
  evidence : List String
  revision : Nat
  assessment : Option String
  kind : Option String
  deriving DecidableEq

structure HistoryEntry where
  revision : Nat
  action : String
  subject : String
  deriving DecidableEq

structure Document where
  schema : String
  id : String
  revision : Nat
  question : String
  target : Json
  fileHint : String
  createdBy : Json
  issues : List Issue
  observations : List Entry
  inferences : List Entry
  history : List HistoryEntry
  deriving DecidableEq

def Document.targetSha (doc : Document) : Json :=
  doc.target.get "binary_sha256"

def cited (issue : Issue) : List String :=
  issue.source.toList ++ issue.supporting ++ issue.contradicting ++ (issue.resolution.map Resolution.evidence).getD []

def referenced (doc : Document) : List String :=
  textSet (doc.issues.flatMap cited ++ doc.observations.flatMap Entry.evidence ++ doc.inferences.flatMap Entry.evidence)

-- Flags of a suggested rerun, from recorded parameters.
def parameterArgv (key : String) (value : Json) : Option (List String) :=
  if key = "ssa-slice" then
    if value.asText.any isAddress then some [] else none
  else
    let name := "--" ++ key
    match sliceOperation.flags.find? fun flag => flag.name = name ∧ flag.role = .semantic with
    | none => none
    | some flag =>
      match flag.kind, value with
      | .switch, .bool true => some [name]
      | .count, value => value.asNatural.map fun count => [name,toString count]
      | .address, value => (value.asText.filter isAddress).map fun address => [name,address]
      | .function, value => (value.asText.filter isAddress).map fun address => [name,address]
      | _, _ => none

def sliceParameterArgv (parameters : Json) : Option (List String) :=
  match parameters with
  | .object fields => (fields.mapM fun entry => parameterArgv entry.1 entry.2).map List.flatten
  | _ => none

def isReason (text : String) : Bool :=
  !text.toList.isEmpty && text.toList.all fun c => ('a' ≤ c && c ≤ 'z') || c = '_'

def Location.wellFormed (location : Location) : Bool :=
  location.functionAddress.asText.any isAddress && location.rootFunction.asText.any isAddress &&
    (sliceParameterArgv location.parameters).isSome

def Requirement.wellFormed (requirement : Requirement) : Bool :=
  (requirement.functionAddress.isNull || requirement.functionAddress.asText.any isAddress) &&
    requirement.operations.all fun op => op ∈ operationIds

def checkIssue (issue : Issue) : Except String Unit :=
  if decide (issue.state = .open) ≠ issue.resolution.isNone then
    .error (issue.id ++ ": resolution must accompany a closed state")
  else if issue.state = .answered ∧ ((issue.resolution.map Resolution.evidence).getD []).isEmpty then
    .error (issue.id ++ ": an answer must cite evidence")
  else if issue.origin = .sliceBoundary ∧ ¬(issue.location.any Location.wellFormed ∧
      isReason ((issue.key.get "reason").asText.getD "")) then
    .error (issue.id ++ ": invalid boundary location or reason")
  else if issue.requirements.all Requirement.wellFormed = false then
    .error (issue.id ++ ": invalid requirement")
  else .ok ()

-- The IDs seen are returned.
def checkIssues : List Issue → List String → Except String (List String)
  | [], seen => .ok seen
  | issue :: rest, seen =>
    if issue.id ∈ seen then .error ("duplicate issue " ++ issue.id)
    else (checkIssue issue).bind fun _ => checkIssues rest (issue.id :: seen)

def checkEntries : List Entry → List String → Except String (List String)
  | [], seen => .ok seen
  | entry :: rest, seen =>
    if entry.id ∈ seen then .error ("duplicate entry " ++ entry.id)
    else checkEntries rest (entry.id :: seen)

def isControl (c : Char) : Bool :=
  c.toNat < 32 || (127 ≤ c.toNat && c.toNat < 160)

def checkIds : List String → Except String Unit
  | [] => .ok ()
  | id :: rest =>
    match parseId id with
    | .ok _ => checkIds rest
    | .error failure => .error failure.message

def validateDocument (doc : Document) : Except String Unit :=
  if doc.schema ≠ documentSchema then .error ("expected " ++ documentSchema)
  else if doc.revision = 0 then .error "invalid revision"
  else if doc.history.length ≠ doc.revision then .error "history does not match revision"
  else if (doc.targetSha.asText.map fun sha => (utf8 sha).length) ≠ some 64 then
    .error "missing question or target identity"
  else
    (checkIssues doc.issues []).bind fun seen =>
      if doc.fileHint.toList.any isControl then .error "invalid file hint"
      else
        (checkEntries doc.observations seen).bind fun seen =>
          (checkEntries doc.inferences seen).bind fun _ => checkIds (referenced doc)

end Rsleigh.Investigation
