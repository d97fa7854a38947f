import Rsleigh.Pcode.Optimize

namespace Rsleigh.Decode

open Pcode

-- What the code generated for a specification provides to the decoder: its root parser, which gives
-- the length, the instruction and the context after the pattern; its display, which also lists the
-- `globalset`s it executes, in order, each with its address if it has one; its lifter; and its
-- context fields. `χ` is the context memory and `ι` the parsed instruction.
structure Generated (χ ι : Type) where
  addrBits : Nat
  parse : List UInt8 → χ → Nat → Option (Nat × ι × χ)
  display : ι → χ → Nat → Nat → List String
  globalSets : ι → χ → Nat → Nat → List (Option Nat × Nat)
  lift : ι → Nat → Nat → List PcodeOp
  constructorSpan : ι → Nat
  readField : Nat → χ → Int
  writeField : Nat → Int → χ → χ

variable {χ ι : Type}

-- codegen/builder/context.rs.
structure GlobalSet (χ : Type) where
  default : χ
  branches : Nat → Option χ

def GlobalSet.new (default : χ) : GlobalSet χ where
  default := default
  branches := fun _ => none

def GlobalSet.set (globalSet : GlobalSet χ) (address : Option Nat) (set : χ → χ) : GlobalSet χ :=
  match address with
  | none => globalSet
  | some address =>
    let entry := (globalSet.branches address).getD globalSet.default
    { globalSet with branches := fun other => if other = address then some (set entry) else globalSet.branches other }

namespace Generated

variable (generated : Generated χ ι)

-- The closure that the display hands to `set`. Its parameter has the name of the context of the
-- display, so the value that is written is read from the entry itself.
def commit (field : Nat) (entry : χ) : χ :=
  generated.writeField field (generated.readField field entry) entry

structure Parsed where
  instNext : Nat
  display : List String
  ops : List PcodeOp
  constructor : Nat

-- codegen/builder/disassembler/mod.rs. The context and the global set are passed by reference.
def parseInstructionWithConstructor (tokens : List UInt8) (context : χ) (instStart : Nat) (globalSet : GlobalSet χ) :
    Option Parsed × χ × GlobalSet χ :=
  match generated.parse tokens context instStart with
  | none => (none, context, globalSet)
  | some (instLen, instruction, after) =>
    let instNext := (instStart + instLen) % 2 ^ generated.addrBits
    let globalSet := (generated.globalSets instruction after instStart instNext).foldl
      (fun globalSet (address, field) => globalSet.set address (generated.commit field)) globalSet
    (some {
      instNext := instNext
      display := generated.display instruction after instStart instNext
      ops := generated.lift instruction instStart instNext
      constructor := generated.constructorSpan instruction
    }, after, globalSet)

end Generated

-- rsleigh-api/src/lib.rs.
structure Instruction where
  len : Nat
  disassembly : String
  ops : List PcodeOp
  constructor : Option Nat
  deriving DecidableEq

inductive DecodeError where
  | unknownInstruction
  deriving DecidableEq

structure Decoder (χ : Type) where
  context : χ
  globalSet : GlobalSet χ

def Decoder.new (context : χ) : Decoder χ where
  context := context
  globalSet := .new context

def decodeWindow : Nat := 32

-- The zero-padded copy of short input.
def padded (bytes : List UInt8) : List UInt8 :=
  bytes ++ List.replicate (decodeWindow - bytes.length) 0

namespace Decoder

variable (generated : Generated χ ι) (decoder : Decoder χ)

-- The parser works on a copy of the context.
def decodeFrom (bytes : List UInt8) (addr : Nat) : Except DecodeError Instruction × Decoder χ :=
  let addr := addr % 2 ^ generated.addrBits
  match generated.parseInstructionWithConstructor bytes decoder.context addr decoder.globalSet with
  | (none, _, globalSet) => (.error .unknownInstruction, { decoder with globalSet := globalSet })
  | (some parsed, _, globalSet) =>
    (.ok {
      len := (parsed.instNext + 2 ^ generated.addrBits - addr) % 2 ^ generated.addrBits
      disassembly := String.join parsed.display
      ops := parsed.ops
      constructor := some parsed.constructor
    }, { decoder with globalSet := globalSet })

def decodeUnoptimized (bytes : List UInt8) (addr : Nat) : Except DecodeError Instruction × Decoder χ :=
  if bytes.length < decodeWindow then
    match decoder.decodeFrom generated (padded bytes) addr with
    | (.error error, decoder) => (.error error, decoder)
    | (.ok instruction, decoder) =>
      if bytes.length < instruction.len then (.error .unknownInstruction, decoder) else (.ok instruction, decoder)
  else decoder.decodeFrom generated bytes addr

def decode (bytes : List UInt8) (addr : Nat) : Except DecodeError Instruction × Decoder χ :=
  match decoder.decodeUnoptimized generated bytes addr with
  | (.error error, decoder) => (.error error, decoder)
  | (.ok instruction, decoder) => (.ok { instruction with ops := optimize instruction.ops }, decoder)

-- The results of a sequence of calls.
def run : Decoder χ → List (List UInt8 × Nat) → List (Except DecodeError Instruction)
  | _, [] => []
  | decoder, (bytes, addr) :: calls =>
    let (result, decoder) := decoder.decode generated bytes addr
    result :: run decoder calls

end Decoder

-- What the decoding history should be: a log of the fields that decoded instructions committed, each
-- with its address and its value in the context of the instruction.
structure Commit where
  address : Nat
  field : Nat
  value : Int

namespace Generated

variable (generated : Generated χ ι)

-- The context at an address: the initial one with the fields committed for the address, in order.
def overlay (initial : χ) (log : List Commit) (addr : Nat) : χ :=
  (log.filter (·.address = addr)).foldl (fun context commit => generated.writeField commit.field commit.value context)
    initial

-- The commits of an instruction that was decoded in a context.
def commits (context : χ) (bytes : List UInt8) (addr : Nat) : List Commit :=
  let addr := addr % 2 ^ generated.addrBits
  let tokens := if bytes.length < decodeWindow then padded bytes else bytes
  match generated.parse tokens context addr with
  | none => []
  | some (instLen, instruction, after) =>
    let instNext := (addr + instLen) % 2 ^ generated.addrBits
    (generated.globalSets instruction after addr instNext).filterMap fun (address, field) =>
      address.map fun address => { address := address, field := field, value := generated.readField field after }

-- The sequence of calls in which every decode sees the context of its address, and a decode that
-- fails commits nothing.
def ideal (initial : χ) : List Commit → List (List UInt8 × Nat) → List (Except DecodeError Instruction)
  | _, [] => []
  | log, (bytes, addr) :: calls =>
    let context := generated.overlay initial log (addr % 2 ^ generated.addrBits)
    match ((Decoder.new context).decode generated bytes addr).1 with
    | .error error => .error error :: ideal initial log calls
    | .ok instruction => .ok instruction :: ideal initial (log ++ generated.commits context bytes addr) calls

-- The condition: no call is made at an address whose commits so far change the initial context.
def Unchanged (initial : χ) : List Commit → List (List UInt8 × Nat) → Prop
  | _, [] => True
  | log, (bytes, addr) :: calls =>
    generated.overlay initial log (addr % 2 ^ generated.addrBits) = initial ∧
      match ((Decoder.new initial).decode generated bytes addr).1 with
      | .error _ => Unchanged initial log calls
      | .ok _ => Unchanged initial (log ++ generated.commits initial bytes addr) calls

end Generated

theorem decodeFrom_context (generated : Generated χ ι) (decoder : Decoder χ) (bytes : List UInt8) (addr : Nat) :
    (decoder.decodeFrom generated bytes addr).1 =
        ((Decoder.new decoder.context).decodeFrom generated bytes addr).1 ∧
      (decoder.decodeFrom generated bytes addr).2.context = decoder.context := by
  unfold Decoder.decodeFrom Generated.parseInstructionWithConstructor
  simp only [Decoder.new]
  cases generated.parse bytes decoder.context (addr % 2 ^ generated.addrBits) with
  | none => exact ⟨rfl,rfl⟩
  | some parsed => exact ⟨rfl,rfl⟩

theorem decodeUnoptimized_context (generated : Generated χ ι) (decoder : Decoder χ) (bytes : List UInt8) (addr : Nat) :
    (decoder.decodeUnoptimized generated bytes addr).1 =
        ((Decoder.new decoder.context).decodeUnoptimized generated bytes addr).1 ∧
      (decoder.decodeUnoptimized generated bytes addr).2.context = decoder.context := by
  unfold Decoder.decodeUnoptimized
  split
  · obtain ⟨sameResult,sameContext⟩ := decodeFrom_context generated decoder (padded bytes) addr
    revert sameResult sameContext
    generalize decoder.decodeFrom generated (padded bytes) addr = this
    generalize (Decoder.new decoder.context).decodeFrom generated (padded bytes) addr = fresh
    rcases this with ⟨result,decoder'⟩
    rcases fresh with ⟨result',fresh'⟩
    intro sameResult sameContext
    subst sameResult
    cases result with
    | error error => exact ⟨rfl,sameContext⟩
    | ok instruction =>
      -- Input that is shorter than the instruction found in its padding is refused in the same context.
      by_cases short : bytes.length < instruction.len
      · simp only [if_pos short]
        exact ⟨trivial,sameContext⟩
      · simp only [if_neg short]
        exact ⟨trivial,sameContext⟩
  · exact decodeFrom_context generated decoder bytes addr

theorem decode_context (generated : Generated χ ι) (decoder : Decoder χ) (bytes : List UInt8) (addr : Nat) :
    (decoder.decode generated bytes addr).1 = ((Decoder.new decoder.context).decode generated bytes addr).1 ∧
      (decoder.decode generated bytes addr).2.context = decoder.context := by
  unfold Decoder.decode
  obtain ⟨sameResult,sameContext⟩ := decodeUnoptimized_context generated decoder bytes addr
  revert sameResult sameContext
  generalize decoder.decodeUnoptimized generated bytes addr = this
  generalize (Decoder.new decoder.context).decodeUnoptimized generated bytes addr = fresh
  rcases this with ⟨result,decoder'⟩
  rcases fresh with ⟨result',fresh'⟩
  intro sameResult sameContext
  subst sameResult
  cases result with
  | error error => exact ⟨rfl,sameContext⟩
  | ok instruction => exact ⟨rfl,sameContext⟩

-- A call in the middle of a run gives what the first call of a new decoder would give, and leaves a
-- decoder of the same context.
theorem run_cons (generated : Generated χ ι) (decoder : Decoder χ) (bytes : List UInt8) (addr : Nat)
    (calls : List (List UInt8 × Nat)) :
    ∃ decoder' : Decoder χ, decoder'.context = decoder.context ∧
      decoder.run generated ((bytes,addr) :: calls) =
        ((Decoder.new decoder.context).decode generated bytes addr).1 :: decoder'.run generated calls := by
  obtain ⟨sameResult,sameContext⟩ := decode_context generated decoder bytes addr
  refine ⟨(decoder.decode generated bytes addr).2,sameContext,?_⟩
  rw [← sameResult]
  rfl

theorem run_initial (generated : Generated χ ι) (calls : List (List UInt8 × Nat)) :
    ∀ decoder : Decoder χ, decoder.run generated calls =
      calls.map fun (bytes, addr) => ((Decoder.new decoder.context).decode generated bytes addr).1 := by
  induction calls with
  | nil =>
    intro decoder
    rfl
  | cons call calls next =>
    intro decoder
    rcases call with ⟨bytes,addr⟩
    obtain ⟨decoder',sameContext,result⟩ := run_cons generated decoder bytes addr calls
    rw [result,next decoder',sameContext]
    rfl

theorem ideal_initial (generated : Generated χ ι) (initial : χ) (calls : List (List UInt8 × Nat)) :
    ∀ log, generated.Unchanged initial log calls →
      generated.ideal initial log calls =
        calls.map fun (bytes, addr) => ((Decoder.new initial).decode generated bytes addr).1 := by
  induction calls with
  | nil =>
    intro log unchanged
    rfl
  | cons call calls next =>
    intro log unchanged
    rcases call with ⟨bytes,addr⟩
    rcases unchanged with ⟨here,later⟩
    simp only [Generated.ideal,here,List.map_cons]
    revert later
    cases result : ((Decoder.new initial).decode generated bytes addr).1 with
    | error error =>
      intro later
      apply congrArg (Except.error error :: ·)
      apply next
      exact later
    | ok instruction =>
      intro later
      apply congrArg (Except.ok instruction :: ·)
      apply next
      exact later

-- Over every sequence of calls that meets the condition, the decoder gives what it should.
theorem run_ideal (generated : Generated χ ι) (initial : χ) (calls : List (List UInt8 × Nat))
    (unchanged : generated.Unchanged initial [] calls) :
    (Decoder.new initial).run generated calls = generated.ideal initial [] calls := by
  rw [run_initial,ideal_initial generated initial calls [] unchanged]
  rfl

-- An instruction set with one mode bit: the byte 1 switches the mode for the instruction after it, and
-- every other byte has a mnemonic for each mode.
def modes : Generated Bool Bool where
  addrBits := 32
  parse := fun tokens context _ =>
    match tokens with
    | [] => none
    | token :: _ => some (1, token == 1, token == 1 || context)
  display := fun switch context _ _ => [if switch then "switch" else if context then "wide" else "narrow"]
  globalSets := fun switch _ _ instNext => if switch then [(some instNext, 0)] else []
  lift := fun _ _ _ => []
  constructorSpan := fun switch => if switch then 1 else 0
  readField := fun _ context => if context then 1 else 0
  writeField := fun _ value _ => value == 1

-- A switch, a call without bytes, and an instruction that does not follow the switch.
theorem run_ideal_modes :
    (Decoder.new false).run modes [([1], 0), ([], 4), ([0], 8)] =
      modes.ideal false [] [([1], 0), ([], 4), ([0], 8)] :=
  run_ideal modes false [([1], 0), ([], 4), ([0], 8)] ⟨rfl,⟨rfl,⟨rfl,trivial⟩⟩⟩

-- The instruction after a switch is decoded in the initial mode.
theorem run_forgets_commit :
    (Decoder.new false).run modes [([1], 0), ([0], 1)] ≠ modes.ideal false [] [([1], 0), ([0], 1)] := by
  decide +kernel

end Rsleigh.Decode
