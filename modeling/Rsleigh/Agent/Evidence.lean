import Mathlib
import Rsleigh.Lib.Json
import Rsleigh.Agent.Contracts

namespace Rsleigh.Agent

-- agent/evidence.rs.
def recordSchema : String := "rsleigh.evidence/v1"

def canonicalization : String := "rsleigh.evidence-canonical/v1"

-- Payload fields that describe one execution.
def incidental : List (List String) := [
  ["metrics"],
  ["tool_version"],
  ["file","path"],
  ["source"],
  ["findings","*","binary"],
  ["old","file","path"],
  ["new","file","path"]
]

-- What the operations take from outside the repository and from the running tool: the hash, the container parser,
-- the tool's own version and build.
structure Tool where
  sha256 : List UInt8 → String
  container : List UInt8 → Option (String × String × Nat)
  version : String
  build : Json

inductive ReadError where
  | notFound
  | unreadable
  deriving DecidableEq

-- The files, by path, as one run finds them.
abbrev Files := String → Except ReadError (List UInt8)

def utf8 (text : String) : List UInt8 :=
  text.toList.flatMap String.utf8EncodeChar

def escapeChar (c : Char) : List Char :=
  let digit : Nat → Char := Nat.digitChar
  if c = '"' then ['\\','"']
  else if c = '\\' then ['\\','\\']
  else if c = '\n' then ['\\','n']
  else if c = '\r' then ['\\','r']
  else if c = '\t' then ['\\','t']
  else if c.toNat = 8 then ['\\','b']
  else if c.toNat = 12 then ['\\','f']
  else if c.toNat < 32 then ['\\','u','0','0',digit (c.toNat / 16),digit (c.toNat % 16)]
  else [c]

def quoted (text : String) : List Char :=
  '"' :: text.toList.flatMap escapeChar ++ ['"']

mutual

-- Compact JSON; the fields of an object are in the order of their keys already.
def canonicalText : Json → List Char
  | .null => "null".toList
  | .bool true => "true".toList
  | .bool false => "false".toList
  | .number value => (toString value).toList
  | .real digits => digits.toList
  | .text value => quoted value
  | .array items => '[' :: canonicalItems items ++ [']']
  | .object fields => '{' :: canonicalFields fields ++ ['}']

def canonicalItems : List Json → List Char
  | [] => []
  | [item] => canonicalText item
  | item :: rest => canonicalText item ++ ',' :: canonicalItems rest

def canonicalFields : List (String × Json) → List Char
  | [] => []
  | [(key, value)] => quoted key ++ ':' :: canonicalText value
  | (key, value) :: rest => quoted key ++ ':' :: canonicalText value ++ ',' :: canonicalFields rest

end

def canonicalBytes (value : Json) : List UInt8 :=
  utf8 (String.ofList (canonicalText value))

def removeField (key : String) (fields : List (String × Json)) : List (String × Json) :=
  fields.filter fun (other, _) => other ≠ key

def mapField (key : String) (change : Json → Json) (fields : List (String × Json)) : List (String × Json) :=
  fields.map fun (other, value) => if other = key then (other, change value) else (other, value)

def strip : List String → Json → Json
  | [], value => value
  | step :: rest, value =>
    if step = "*" then
      match value with
      | .array items => .array (items.map (strip rest))
      | other => other
    else if rest.isEmpty then
      match value with
      | .object fields => .object (removeField step fields)
      | other => other
    else
      match value with
      | .object fields => .object (mapField step (strip rest) fields)
      | other => other

def stripAll (paths : List (List String)) (payload : Json) : Json :=
  paths.foldl (fun payload path => strip path payload) payload

def projection (record : Json) : Json :=
  match record with
  | .object fields =>
    .object (mapField "payload" (stripAll incidental) (removeField "execution" (removeField "id" fields)))
  | other => other

def contentId (tool : Tool) (record : Json) : String :=
  "sha256:" ++ tool.sha256 (canonicalBytes (projection record))

def stripPrefix (start text : List Char) : Option (List Char) :=
  if start.isPrefixOf text then some (text.drop start.length) else none

def parseId (id : String) : Outcome String :=
  match (stripPrefix "sha256:".toList id.toList).filter fun hex => hex.length = 64 ∧ hex.all isLowerHex with
  | some hex => .ok (String.ofList hex)
  | none => .error ⟨"invalid_value", "invalid evidence ID: " ++ id⟩

def countBoundaries (nodes : List Json) : List (String × Json) :=
  nodes.foldl (fun counts node =>
    match (node.get "boundary").asText with
    | some reason =>
      let before := ((Json.field reason counts).bind Json.asNatural).getD 0
      Json.insertField reason (.natural (before + 1)) counts
    | none => counts) []

def coverage (kind : String) (payload : Json) : Json :=
  let ok := decide (payload.get "status" = .text "ok")
  if kind = "card" then
    let pages := payload.get "pagination"
    let pseudocode := payload.get "pseudocode"
    let truncated := decide ((pages.get "instructions").get "truncated" = .bool true) ||
      decide ((pages.get "operations").get "truncated" = .bool true) ||
      decide (pseudocode.get "truncated" = .bool true)
    .record [
      ("instructions", pages.get "instructions"),
      ("operations", pages.get "operations"),
      ("pseudocode", if pseudocode.isNull then .null else
        .record [("bytes_total", pseudocode.get "bytes_total"),("truncated", pseudocode.get "truncated")]),
      ("complete", .bool (ok && !truncated && !pages.isNull))
    ]
  else if kind = "ssa-slice" then
    let slice := payload.get "slice"
    .record [
      ("nodes", Json.optional (fun nodes => .natural nodes.length) (slice.get "nodes").asArray),
      ("boundaries", .object (countBoundaries (slice.get "nodes").items)),
      ("stops", slice.get "stops"),
      ("truncated", slice.get "truncated"),
      ("complete", .bool (ok && decide (slice.get "complete" = .bool true)))
    ]
  else if kind = "agent-brief" then
    let limits := payload.get "limits"
    .record [
      ("functions_returned", limits.get "functions_returned"),
      ("functions_total", limits.get "functions_total"),
      ("findings_returned", limits.get "findings_returned"),
      ("findings_total", limits.get "findings_total"),
      ("complete", .bool (ok && decide (limits.get "functions_returned" = limits.get "functions_total") &&
        decide (limits.get "findings_returned" = limits.get "findings_total")))
    ]
  else if kind = "compare" then
    .record [
      ("summary", payload.get "summary"),
      ("limits", payload.get "limits"),
      ("complete", .bool (ok && decide ((payload.get "limits").get "pairs_truncated" = .bool false)))
    ]
  else .record [("complete", .bool ok)]

-- A set of texts, in order.
def insertText (text : String) : List String → List String
  | [] => [text]
  | other :: rest =>
    if text < other then text :: other :: rest
    else if text = other then other :: rest
    else other :: insertText text rest

def textSet (texts : List String) : List String :=
  texts.foldl (fun seen text => insertText text seen) []

def limitations (payload : Json) : Json :=
  .record [
    ("warnings", .array (payload.get "warnings").items),
    ("diagnostic_codes", .texts (textSet ((payload.get "diagnostics").items.filterMap fun diagnostic =>
      (diagnostic.get "code").asText))),
    ("selection_error", (payload.get "selection_error").get "code"),
    ("error", payload.get "error")
  ]

def subject (tool : Tool) (data : List UInt8) : Json :=
  match tool.container data with
  | some (format, architecture, imagebase) =>
    .record [
      ("binary_sha256", .text (tool.sha256 data)),
      ("format", .text format),
      ("architecture", .text architecture),
      ("imagebase", .text (addressText imagebase)),
      ("mode", .text "native")
    ]
  | none =>
    .record [
      ("binary_sha256", .text (tool.sha256 data)),
      ("format", .text "unknown"),
      ("architecture", .null),
      ("imagebase", .null),
      ("mode", .text "native")
    ]

-- `Path::file_name` and `Path::with_extension` of a path that ends in a file's name.
def fileName (path : String) : List Char :=
  (path.toList.reverse.takeWhile (· ≠ '/')).reverse

def fileStem (name : List Char) : List Char :=
  let stem := (name.reverse.dropWhile (· ≠ '.')).drop 1
  if stem.isEmpty then name else stem.reverse

def withExtension (path extension : String) : String :=
  let parent := (path.toList.reverse.dropWhile (· ≠ '/')).reverse
  String.ofList (parent ++ fileStem (fileName path) ++ '.' :: extension.toList)

def dsymPath (path : String) : String :=
  path ++ ".dSYM/Contents/Resources/DWARF/" ++ String.ofList (fileName path)

def companion (tool : Tool) (files : Files) (kind path : String) : Json :=
  match files path with
  | .ok bytes => .record [("kind", .text kind),("sha256", .text (tool.sha256 bytes))]
  | .error .notFound => .record [("kind", .text kind),("present", .bool false)]
  | .error .unreadable => .record [("kind", .text kind),("unreadable", .bool true)]

def profile (tool : Tool) (files : Files) (opaqueFold : Bool) (binaryPath : String) : Json :=
  .record [
    ("opaque_fold", .bool opaqueFold),
    ("debug_companions", .array [
      companion tool files "pdb" (withExtension binaryPath "pdb"),
      companion tool files "dsym" (dsymPath binaryPath)
    ])
  ]

def resolvedFunction (payload : Json) : Option String :=
  ((payload.get "function").get "address").asText.or (payload.get "function_address").asText

def parseAddress (raw : String) : Option Nat :=
  match raw.toList with
  | '0' :: 'x' :: hex => fromStrRadix 16 hex
  | '0' :: 'X' :: hex => fromStrRadix 16 hex
  | _ => none

def normalizeParameter (tool : Tool) (files : Files) (resolved : Option String) (kind : Kind) (raw : String) : Json :=
  match kind with
  | .count =>
    match parseNumber raw with
    | some count => .natural count
    | none => .text raw
  | .address =>
    match parseAddress raw with
    | some address => .text (addressText address)
    | none => .text raw
  | .function => .text (resolved.getD raw)
  | .binary =>
    match files raw with
    | .ok bytes => .record [("sha256", .text (tool.sha256 bytes))]
    | .error _ => .record [("unreadable", .bool true)]
  | .switch => .text raw
  | .path => .text raw
  | .text => .text raw

-- `trim_start_matches("--")`.
def trimDashes : List Char → List Char
  | '-' :: '-' :: rest => trimDashes rest
  | rest => rest

def parameterKey (arg : String) : String :=
  String.ofList (trimDashes arg.toList)

def pushParameter (key : String) (value : Json) (fields : List (String × Json)) : List (String × Json) :=
  match Json.field key fields with
  | none => Json.insertField key (.array [value]) fields
  | some (.array values) => Json.insertField key (.array (values ++ [value])) fields
  | some _ => fields

def addParameter (op : Operation) (flag : Flag) (arg : String) (value : Json) (fields : List (String × Json)) :
    List (String × Json) :=
  let selectsMode := flag.name = op.mode.name ∧ flag.takesValue = false
  if flag.role = .semantic ∧ ¬selectsMode then
    if flag.repeatable then pushParameter (parameterKey arg) value fields
    else Json.insertField (parameterKey arg) value fields
  else fields

-- `skip` says that the next argument is the value of the flag before it.
def parametersFrom (op : Operation) (normal : Kind → String → Json) :
    Bool → List String → List (String × Json) → List (String × Json)
  | _, [], fields => fields
  | true, _ :: rest, fields => parametersFrom op normal false rest fields
  | false, arg :: rest, fields =>
    match op.flag arg with
    | some flag =>
      if flag.takesValue then
        parametersFrom op normal true rest
          (addParameter op flag arg (normal flag.kind (rest.head?.getD "")) fields)
      else parametersFrom op normal false rest (addParameter op flag arg (.bool true) fields)
    | none =>
      match op.positional with
      | some positional =>
        parametersFrom op normal false rest
          (Json.insertField positional.toLower (normal .function arg) fields)
      | none => parametersFrom op normal false rest fields

def parameters (tool : Tool) (files : Files) (op : Operation) (args : List String) (start : Nat) (payload : Json) :
    Json :=
  .object (parametersFrom op (normalizeParameter tool files (resolvedFunction payload)) false (args.drop start) [])

def trustJson : Json :=
  .record [
    ("primary", .texts ["decoder","pcode"]),
    ("hypothesis", .texts ["pseudocode"]),
    ("leads", .texts ["ioc","vulnscan","vm_helpers"]),
    ("proved_claim", .text
      "SMT record with verdict == Reachable (confidence == proved alone is not a positive verdict)"),
    ("disagreement_rule", .text "If pseudocode and P-code disagree, use P-code and report the conflict")
  ]

-- The fields of a record that its ID hashes, before the incidental ones are stripped.
def identified (tool : Tool) (files : Files) (opaqueFold : Bool) (op : Operation) (args : List String)
    (binaryPath : String) (data : List UInt8) (payload : Json) (references : List String) : Json :=
  .record [
    ("schema", .text recordSchema),
    ("canonicalization", .text canonicalization),
    ("kind", .text op.id),
    ("subject", subject tool data),
    ("producer", .record [
      ("tool", .text "rsleigh"),
      ("version", .text tool.version),
      ("build", tool.build),
      ("profile", profile tool files opaqueFold binaryPath)
    ]),
    ("operation", .record [
      ("id", .text op.id),
      ("schema", .text op.schema),
      ("parameters", parameters tool files op args 2 payload)
    ]),
    ("status", payload.get "status"),
    ("coverage", coverage op.id payload),
    ("limitations", limitations payload),
    ("interpretation", .record [
      ("trust", trustJson),
      ("finding_confidence", .text
        "pattern | heuristic | proved, scoped to each finding's producer and model")
    ]),
    ("references", .texts references),
    ("payload", payload)
  ]

-- What a record says of its own execution.
structure Execution where
  exitCode : Nat
  recordedAt : Nat

def build (tool : Tool) (files : Files) (opaqueFold : Bool) (op : Operation) (args : List String)
    (binaryPath : String) (data : List UInt8) (payload : Json) (references : List String) (execution : Execution) :
    Json :=
  let record := identified tool files opaqueFold op args binaryPath data payload references
  let record := record.set "id" (.text (contentId tool record))
  record.set "execution" (.record [
    ("argv", .texts (args.drop 1)),
    ("exit_code", .natural execution.exitCode),
    ("recorded_at_unix_ms", .natural execution.recordedAt)
  ])

def checkReferences (id : String) : Option String → List Json → Except String Unit
  | _, [] => .ok ()
  | previous, reference :: rest =>
    match reference.asText with
    | none => .error (id ++ ": invalid reference")
    | some reference =>
      match parseId reference with
      | .error failure => .error failure.message
      | .ok _ =>
        if reference = id ∨ previous.any (fun before => decide (reference ≤ before)) then
          .error (id ++ ": references must be sorted, unique, and not self")
        else checkReferences id (some reference) rest

def isHexDigit (c : Char) : Bool :=
  isLowerHex c || ('A' ≤ c && c ≤ 'F')

def validateRecord (tool : Tool) (record : Json) : Except String Unit :=
  if record.get "schema" ≠ .text recordSchema then .error ("expected " ++ recordSchema)
  else if record.get "canonicalization" ≠ .text canonicalization then
    .error ("unsupported canonicalization " ++ String.ofList (canonicalText (record.get "canonicalization")))
  else
    match (record.get "id").asText with
    | none => .error "record has no ID"
    | some id =>
      match parseId id with
      | .error failure => .error failure.message
      | .ok _ =>
        if contentId tool record ≠ id then .error (id ++ ": content ID does not match record contents")
        else
          let payload := record.get "payload"
          match (record.get "kind").asText with
          | none => .error "record has no kind"
          | some kind =>
            if (record.get "operation").get "schema" ≠ payload.get "schema" then
              .error (id ++ ": payload schema differs from operation")
            else if record.get "status" ≠ payload.get "status" ∨
                ¬((record.get "status").asText.any fun status => status ∈ ["ok","partial","failed"]) then
              .error (id ++ ": status differs from payload")
            else if record.get "coverage" ≠ coverage kind payload then
              .error (id ++ ": declared coverage differs from payload")
            else if record.get "limitations" ≠ limitations payload then
              .error (id ++ ": declared limitations differ from payload")
            else
              let sha := (((record.get "subject").get "binary_sha256").asText.getD "").toList
              if sha.length ≠ 64 ∨ sha.all isHexDigit = false then .error (id ++ ": invalid subject hash")
              else
                match (record.get "references").asArray with
                | none => .error (id ++ ": references must be an array")
                | some references => checkReferences id none references

-- The parsed contents of the files of a store's `records` directory, by the hexadecimal part of the record's ID.
abbrev Store := String → Option Json

def load (tool : Tool) (store : Store) (id : String) : Outcome Json := do
  let hex ← parseId id
  match store hex with
  | none => .error ⟨"missing_evidence", "evidence " ++ id ++ " is unavailable"⟩
  | some record =>
    match validateRecord tool record with
    | .error message => .error ⟨"verification_failed", message⟩
    | .ok _ =>
      if record.get "id" ≠ .text id then
        .error ⟨"verification_failed", id ++ ": stored under another record's ID"⟩
      else .ok record

end Rsleigh.Agent
