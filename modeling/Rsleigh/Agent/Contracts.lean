import Mathlib
import Rsleigh.Lib.Json

namespace Rsleigh.Agent

-- agent/contracts.rs.
structure AgentError where
  code : String
  message : String
  deriving DecidableEq, Inhabited

abbrev Outcome (α : Type) := Except AgentError α

inductive Kind where
  | switch
  | count
  | address
  | function
  | path
  | binary
  | text
  deriving DecidableEq

inductive Role where
  | semantic
  | execution
  | output
  | evidence
  deriving DecidableEq

structure Flag where
  name : String
  kind : Kind
  repeatable : Bool
  role : Role
  deriving DecidableEq

def Flag.takesValue (flag : Flag) : Bool :=
  flag.kind != .switch

def Flag.withRole (flag : Flag) (role : Role) : Flag :=
  { flag with role }

def switch (name : String) : Flag :=
  ⟨name, .switch, false, .semantic⟩

def value (name : String) (kind : Kind) : Flag :=
  ⟨name, kind, false, .semantic⟩

def repeated (name : String) (kind : Kind) : Flag :=
  ⟨name, kind, true, .semantic⟩

structure Operation where
  id : String
  mode : Flag
  schema : String
  positional : Option String
  flags : List Flag

def Operation.allFlags (op : Operation) : List Flag :=
  op.mode :: op.flags

def Operation.flag (op : Operation) (name : String) : Option Flag :=
  op.allFlags.find? fun flag => flag.name = name

def jsonFlag : Flag := (switch "--json").withRole .output
def cacheFlag : Flag := (value "--analysis-cache" .path).withRole .execution
def maxDecodeFlag : Flag := (value "--max-decode-instructions" .count).withRole .execution
def maxSsaFlag : Flag := (value "--max-ssa-work" .count).withRole .execution
def deadlineFlag : Flag := (value "--deadline-ms" .count).withRole .execution
def evidenceFlag : Flag := (switch "--evidence").withRole .evidence
def evidenceStoreFlag : Flag := (value "--evidence-store" .path).withRole .evidence
def derivedFromFlag : Flag := (repeated "--derived-from" .text).withRole .evidence

def agentBriefOperation : Operation where
  id := "agent-brief"
  mode := switch "--agent-brief"
  schema := "rsleigh.agent-brief/v1"
  positional := none
  flags := [value "--limit" .count,jsonFlag,evidenceFlag,evidenceStoreFlag,derivedFromFlag]

def cardOperation : Operation where
  id := "card"
  mode := switch "--card"
  schema := "rsleigh.card/v2"
  positional := some "FUNCTION"
  flags := [
    jsonFlag,
    switch "--pcode",
    switch "--decompile",
    value "--instruction-cursor" .count,
    value "--operation-cursor" .count,
    cacheFlag,
    maxDecodeFlag,
    maxSsaFlag,
    deadlineFlag,
    evidenceFlag,
    evidenceStoreFlag,
    derivedFromFlag
  ]

def sliceOperation : Operation where
  id := "ssa-slice"
  mode := value "--ssa-slice" .function
  schema := "rsleigh.ssa-slice/v3"
  positional := none
  flags := [
    value "--var" .count,
    value "--call-site" .address,
    value "--arg" .count,
    switch "--return",
    value "--at" .address,
    value "--condition" .address,
    cacheFlag,
    maxDecodeFlag,
    maxSsaFlag,
    deadlineFlag,
    value "--max-nodes" .count,
    value "--max-depth" .count,
    value "--max-call-depth" .count,
    value "--max-functions" .count,
    value "--max-traversal-work" .count,
    jsonFlag,
    evidenceFlag,
    evidenceStoreFlag,
    derivedFromFlag
  ]

def compareOperation : Operation where
  id := "compare"
  mode := value "--compare" .binary
  schema := "rsleigh.function-comparison/v1"
  positional := none
  flags := [
    repeated "--pair" .text,
    value "--limit" .count,
    jsonFlag,
    evidenceFlag,
    evidenceStoreFlag,
    derivedFromFlag
  ]

-- The operations that accept `--evidence`.
def evidenceOperations : List Operation :=
  [agentBriefOperation,cardOperation,sliceOperation,compareOperation]

def isFlag (arg : String) : Bool :=
  "--".toList.isPrefixOf arg.toList

-- For each place of a flag in argv, the argument after it.
def following (flag : String) : List String → List (Option String)
  | [] => []
  | arg :: rest => if arg = flag then rest.head? :: following flag rest else following flag rest

def requiresValue (flag : String) : AgentError :=
  ⟨"missing_value", flag ++ " requires a value"⟩

def givenValue (flag : String) (next : Option String) : Outcome String :=
  match next with
  | some value => if isFlag value then .error (requiresValue flag) else .ok value
  | none => .error (requiresValue flag)

def valueArg (args : List String) (flag : String) : Outcome (Option String) :=
  match following flag args with
  | [] => .ok none
  | [next] => (givenValue flag next).map some
  | _ :: _ :: _ => .error ⟨"duplicate_option", "duplicate " ++ flag⟩

def valuesArg (args : List String) (flag : String) : Outcome (List String) :=
  (following flag args).mapM (givenValue flag)

-- The value of a digit in a base of at most sixteen, in either case.
def digitOf (base : Nat) (c : Char) : Option Nat :=
  let digit := if c.isDigit then some (c.toNat - '0'.toNat)
    else if 'a' ≤ c ∧ c ≤ 'f' then some (c.toNat - 'a'.toNat + 10)
    else if 'A' ≤ c ∧ c ≤ 'F' then some (c.toNat - 'A'.toNat + 10)
    else none
  digit.filter fun digit => digit < base

def digitsValue (base : Nat) : Nat → List Char → Option Nat
  | read, [] => some read
  | read, c :: rest => (digitOf base c).bind fun digit => digitsValue base (read * base + digit) rest

def stripPlus : List Char → List Char
  | '+' :: digits => digits
  | digits => digits

-- `u64::from_str_radix`, and `str::parse` for base ten: one leading plus sign is allowed.
def fromStrRadix (base : Nat) (text : List Char) : Option Nat :=
  if (stripPlus text).isEmpty then none
  else (digitsValue base 0 (stripPlus text)).filter fun value => value < 2 ^ 64

def parseNumber (text : String) : Option Nat :=
  fromStrRadix 10 text.toList

def numberArg (args : List String) (flag : String) (default : Nat) : Outcome Nat := do
  match ← valueArg args flag with
  | none => .ok default
  | some text =>
    match parseNumber text with
    | some number => .ok number
    | none => .error ⟨"invalid_value", flag ++ " requires an unsigned integer"⟩

-- The arguments from `start` on; `skip` says that the next one is the value of the flag before it.
def validateFrom (op : Operation) (args : List String) : Bool → List String → Outcome (List String)
  | _, [] => .ok []
  | true, _ :: rest => validateFrom op args false rest
  | false, arg :: rest =>
    if isFlag arg then
      match op.flag arg with
      | none => .error ⟨"unsupported_option", "unsupported " ++ op.mode.name ++ " option: " ++ arg⟩
      | some flag =>
        if flag.takesValue then
          if flag.repeatable then
            (givenValue arg rest.head?).bind fun _ => validateFrom op args true rest
          else (valueArg args arg).bind fun _ => validateFrom op args true rest
        else validateFrom op args false rest
    else if op.positional.isSome then (validateFrom op args false rest).map fun positionals => arg :: positionals
    else .error ⟨"unexpected_argument", "unexpected argument: " ++ arg⟩

def checkCounts (args : List String) : List Flag → Outcome Unit
  | [] => .ok ()
  | flag :: rest =>
    if flag.kind = .count ∧ flag.repeatable = false then
      (valueArg args flag.name).bind fun given =>
        if given.isSome then (numberArg args flag.name 0).bind fun _ => checkCounts args rest
        else checkCounts args rest
    else checkCounts args rest

def validate (op : Operation) (args : List String) (start : Nat) : Outcome (List String) := do
  let positionals ← validateFrom op args false (args.drop start)
  checkCounts args op.allFlags
  if (op.flag "--limit").isSome then
    if (← valueArg args "--limit").isSome then
      if (← numberArg args "--limit" 1) = 0 then
        throw ⟨"invalid_value", "--limit must be positive"⟩
  return positionals

-- `0x` and lowercase hexadecimal, as addresses are printed.
def addressText (address : Nat) : String :=
  "0x" ++ String.ofList (Nat.toDigits 16 address)

def isLowerHex (c : Char) : Bool :=
  c.isDigit || ('a' ≤ c && c ≤ 'f')

def isAddress (text : String) : Bool :=
  match text.toList with
  | '0' :: 'x' :: digits => !digits.isEmpty && digits.all isLowerHex
  | _ => false

end Rsleigh.Agent
