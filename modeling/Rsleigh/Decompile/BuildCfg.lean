import Rsleigh.Decompile.Ir
import Rsleigh.Decode.History

namespace Rsleigh.Decompile

open Pcode
open Decode (Instruction)

-- An op with the address of its instruction.
abbrev Op := Nat × PcodeOp

-- jump_table.rs.
structure JumpTable where
  jump : Nat
  index : Varnode
  copyBefore : Option Nat
  targets : List Nat
  first : Int

-- What is recovered from the values in the program: jump_table::find, and resolve_callind_target.
structure Recovery where
  find : List (Nat × Instruction) → List JumpTable
  resolveCallindTarget : List Op → Varnode → Nat → List Op → CallTarget

-- A block that continues a tail call or a switch: the address of the jump, its ops and its terminator.
structure Synthetic where
  addr : Nat
  ops : List Op
  terminator : Terminator

-- What the blocks add to as they are built.
structure Building where
  synthetic : List Synthetic
  diagnostics : List Diagnostic

section Text

def hex (value : Nat) : String :=
  "0x" ++ String.ofList (Nat.toDigits 16 value)

def debugSpace : AddressSpaceId → String
  | .register => "Register"
  | .ram => "Ram"
  | .unique => "Unique"
  | .const => "Const"

def debugVarnode (varnode : Varnode) : String :=
  "Varnode \x7b space: " ++ debugSpace varnode.space ++ ", offset: " ++ toString varnode.offset.toNat ++ ", size: " ++
    toString varnode.size.toNat ++ " \x7d"

def debugTarget : CallTarget → String
  | .direct addr => "Direct(" ++ toString addr.toNat ++ ")"
  | .indirect varnode => "Indirect(" ++ debugVarnode varnode ++ ")"

end Text

section Ops

def isEsp (varnode : Varnode) : Bool :=
  varnode.space = .register ∧ varnode.offset = 16 ∧ varnode.size = 4

def popIf (strip : PcodeOp → Bool) (ops : List Op) : List Op :=
  match ops.getLast? with
  | some (_, op) => if strip op then ops.dropLast else ops
  | none => ops

def stripCallPushOps (ops : List Op) : List Op :=
  let ops := popIf (fun | .store _ ptr _ => isEsp ptr ∨ ptr.space = .unique | _ => false) ops
  let ops := popIf (fun | .binary .intSub out _ _ => isEsp out | _ => false) ops
  popIf (fun | .subpiece _ _ _ => true | _ => false) ops

def stripReturnPopOps (ops : List Op) : List Op :=
  let ops := popIf (fun | .binary .intAdd out _ _ => isEsp out | _ => false) ops
  popIf (fun | .load out _ _ => out.space = .register ∧ out.offset = 256 | _ => false) ops

-- The last op that writes the varnode, with the ops before it.
def producer (ops : List Op) (varnode : Varnode) : Option (List Op × PcodeOp) :=
  let writes := fun (op : Op) => (getOutput op.2).any fun out => out.space = varnode.space ∧ out.offset = varnode.offset
  match ops.reverse.dropWhile (fun op => !writes op) with
  | (_, op) :: before => some (before.reverse, op)
  | [] => none

-- `left` is what is left of the depth.
def constantDerived : Nat → List Op → Varnode → Bool
  | left, ops, varnode =>
    if varnode.space = .const then true
    else
      match left with
      | 0 => false
      | left + 1 =>
        match producer ops varnode with
        | some (before, .copy _ input) | some (before, .unary .intSext _ input)
        | some (before, .unary .intZext _ input) | some (before, .subpiece _ input _) =>
          constantDerived left before input
        | _ => false

def computesIndex : Nat → List Op → PcodeOp → Bool
  | 0, _, _ => false
  | left + 1, before, op =>
    let ofInput := fun input => (producer before input).any fun (before, op) => computesIndex left before op
    match op with
    | .binary .intMult _ _ _ | .binary .intLsl _ _ _ => true
    | .binary .intAdd _ a b =>
      !constantDerived 5 before a && !constantDerived 5 before b || ofInput a || ofInput b
    | .copy _ input | .unary .intSext _ input | .unary .intZext _ input => ofInput input
    | .load _ _ ptr => ofInput ptr
    | _ => false

-- The jump through a register: at most `left` steps back.
def registerTailTarget (dest : Varnode) : Nat → List Op → Varnode → Option CallTarget
  | 0, _, _ => none
  | left + 1, ops, varnode =>
    match producer ops varnode with
    | none => some (.indirect dest)
    | some (before, op) =>
      match op with
      | .copy _ input | .unary .intZext _ input | .unary .intSext _ input =>
        if input.space = .const then some (.direct input.offset) else registerTailTarget dest left before input
      | .load _ _ ptr =>
        if ptr.space = .const then some (.direct ptr.offset)
        else if !computesIndex 7 before op then some (.indirect dest)
        else none
      | _ => none

def indirectJumpTailTarget (ops : List Op) (dest : Varnode) (at_ : Nat) : Option CallTarget × List Op :=
  if dest.space = .ram then
    let address := { dest with space := .unique }
    match producer ops address with
    | none => (some (.direct dest.offset), ops)
    | some (before, op) =>
      if computesIndex 7 before op then (none, ops)
      else
        let pointer : Varnode := ⟨.unique, dest.offset ||| ((1 : UInt64) <<< 62), dest.size⟩
        (some (.indirect pointer), ops ++ [(at_, .load pointer .ram address)])
  else (registerTailTarget dest 8 ops dest, ops)

-- The ops before the call, from the last one back, with their indices.
def userOpSource (want : Varnode) : List (Op × Nat) → Option Nat
  | [] => none
  | ((_, op), at_) :: rest =>
    match op with
    | .copy out input => userOpSource (if out = want then input else want) rest
    | .callOther (some out) _ _ => if out = want then some at_ else userOpSource want rest
    | op => if getOutput op = some want then none else userOpSource want rest

def userOpCallTarget (ops : List Op) (dest : Varnode) : Option Nat :=
  if dest.space ≠ .unique then none else userOpSource dest ops.dropLast.zipIdx.reverse

def x86Swi : UInt64 := 16

def copiedConstant (ops : List Op) (varnode : Varnode) : Option UInt64 :=
  if varnode.space = .const then some varnode.offset
  else
    ops.reverse.findSome? fun (_, op) =>
      match op with
      | .copy out input => if out = varnode ∧ input.space = .const then some input.offset else none
      | _ => none

def makeUserOpStatement (ops : List Op) (at_ : Nat) (pointerSize : UInt32) : List Op :=
  ops.modify at_ fun (address, op) =>
    match op with
    | .callOther _ funcId inputs =>
      let fastfail := funcId = x86Swi ∧ inputs.head?.bind (copiedConstant (ops.take at_)) = some 0x29
      let ecx := if pointerSize = 8 then 8 else 4
      (address, .callOther none funcId (if fastfail then inputs ++ [.register ecx 4] else inputs))
    | op => (address, op)

def switchTemp (at_ k : Nat) (size : UInt32) : Varnode :=
  ⟨.unique, ((3 : UInt64) <<< 61) ||| (UInt64.ofNat at_ <<< 16) ||| UInt64.ofNat k, size⟩

def copyAside (ops : List Op) (jump before : Nat) (index : Varnode) : Varnode × List Op :=
  let out := switchTemp jump 65535 index.size
  let at_ := (ops.findIdx? fun op => op.1 = before).getD 0
  (out, ops.insertIdx at_ (jump, .copy out index))

def switchTest (at_ : Nat) (index : Varnode) (first : Int) (k : Nat) : Varnode × Op :=
  let cond := switchTemp at_ k 1
  let value := UInt64.ofInt (first + k) &&& (0xffffffffffffffff >>> UInt64.ofNat (64 - 8 * min index.size.toNat 8))
  (cond, (at_, .binary .intEq cond index (.constant value index.size)))

-- The tests after the first one: each in a block of its own.
def switchTests (firstSynthetic at_ : Nat) (index : Varnode) (first : Int) (last : BlockId) :
    Nat → List BlockId → List Synthetic → List Synthetic
  | _, [], synthetic => synthetic
  | k, case_ :: rest, synthetic =>
    let (cond, op) := switchTest at_ index first k
    let next := if rest.isEmpty then last else firstSynthetic + synthetic.length + 1
    switchTests firstSynthetic at_ index first last (k + 1) rest
      (synthetic ++ [⟨at_, [op], .cbranch cond case_ next⟩])

def switchChain (ops : List Op) (synthetic : List Synthetic) (firstSynthetic at_ : Nat) (index : Varnode) (first : Int)
    (cases_ : List BlockId) : List Op × List Synthetic × Terminator :=
  match cases_.getLast? with
  | none => (ops, synthetic, .indirect index)
  | some last =>
    match cases_.dropLast with
    | [] => (ops, synthetic, .branch last)
    | case_ :: rest =>
      let (cond, op) := switchTest at_ index first 0
      let next := if rest.isEmpty then last else firstSynthetic + synthetic.length
      (ops ++ [op], switchTests firstSynthetic at_ index first last 1 rest synthetic, .cbranch cond case_ next)

end Ops

section Leaders

variable (recovery : Recovery) (instructions : List (Nat × Instruction))

-- The addresses that an op makes the start of a block.
def opLeaders (next : Nat) : PcodeOp → List Nat
  | .branch dest => if dest.space = .ram then [dest.offset.toNat, next] else [next]
  | .cbranch dest _ => if dest.space = .ram then [dest.offset.toNat, next] else []
  | .branchInd _ | .call _ | .callInd _ | .ret _ => [next]
  | _ => []

-- A map by the address of the jump: of two tables of one jump the last one stays.
def tables : List JumpTable :=
  (recovery.find instructions).foldl (fun tables table => table :: tables.filter (·.jump ≠ table.jump)) []

def validAddrs : List Nat :=
  instructions.map Prod.fst

def entryAddr : Nat :=
  (validAddrs instructions).headD 0

def rawLeaders : List Nat :=
  entryAddr instructions ::
    instructions.flatMap (fun (addr, inst) => inst.ops.flatMap (opLeaders (addr + inst.len))) ++
    (tables recovery instructions).flatMap JumpTable.targets

-- Of equal neighbours the first one stays.
def dedupSorted : List Nat → List Nat
  | [] => []
  | first :: rest =>
    match dedupSorted rest with
    | [] => [first]
    | second :: rest => if first = second then second :: rest else first :: second :: rest

def leaders : List Nat :=
  (dedupSorted ((rawLeaders recovery instructions).mergeSort fun a b => a ≤ b)).filter (· ∈ validAddrs instructions)

-- The entry is the first block, wherever it is. The others follow by address.
def order : List Nat :=
  entryAddr instructions :: (leaders recovery instructions).filter (· ≠ entryAddr instructions)

def leaderToBlock (addr : Nat) : Option BlockId :=
  (order recovery instructions).idxOf? addr

def isCovered (target : Nat) : Bool :=
  let covered := (instructions.map fun (addr, inst) => (addr, addr + inst.len)).mergeSort fun a b =>
    a.1 < b.1 ∨ a.1 = b.1 ∧ a.2 ≤ b.2
  match (covered.takeWhile fun (start, _) => start ≤ target).getLast? with
  | some (_, stop) => target < stop
  | none => false

def funcEnd : Nat :=
  (instructions.map fun (addr, inst) => addr + inst.len).foldl max 0

def nextLeader (leader : Nat) : Nat :=
  (((leaders recovery instructions).dropWhile (· ≤ leader)).head?).getD (funcEnd instructions)

-- The instructions of a block.
def members (leader : Nat) : List (Nat × Instruction) :=
  (instructions.filter fun (addr, _) => leader ≤ addr ∧ addr < nextLeader recovery instructions leader).mergeSort
    fun a b => a.1 ≤ b.1

def instOps (instructions : List (Nat × Instruction)) : List Op :=
  instructions.flatMap fun (addr, inst) => inst.ops.map fun op => (addr, op)

end Leaders

section Blocks

variable (recovery : Recovery) (instructions : List (Nat × Instruction))

def firstSynthetic : Nat :=
  (order recovery instructions).length

def Building.note (building : Building) (severity : Severity) (kind : DiagKind) (addr : Nat) (detail : String) :
    Building :=
  { building with diagnostics := building.diagnostics ++ [⟨severity, kind, some addr, detail⟩] }

def Building.push (building : Building) (addr : Nat) (ops : List Op) (terminator : Terminator) : Building :=
  { building with synthetic := building.synthetic ++ [⟨addr, ops, terminator⟩] }

def tailCall (building : Building) (at_ : Nat) (target : CallTarget) : Terminator × Building :=
  (.call target (firstSynthetic recovery instructions + building.synthetic.length), building.push at_ [] .ret)

def branchTo (building : Building) (at_ : Nat) (dest : Varnode) : Terminator × Building :=
  let target := dest.offset.toNat
  match leaderToBlock recovery instructions target with
  | some block => (.branch block, building)
  | none =>
    if !isCovered instructions target then
      tailCall recovery instructions (building.note .info .tailCall at_
        ("Branch to " ++ hex target ++ " leaves the body; tail call")) at_ (.direct dest.offset)
    else
      (.indirect dest, building.note .warn .unresolvedBranchTarget at_
        ("Branch target " ++ hex target ++ " not in instruction set"))

def cbranchTo (building : Building) (at_ next : Nat) (dest cond : Varnode) : Terminator × Building :=
  let target := dest.offset.toNat
  match leaderToBlock recovery instructions target, leaderToBlock recovery instructions next with
  | some taken, some fall => (.cbranch cond taken fall, building)
  | taken, fall =>
    match fall, !isCovered instructions target && taken.isNone with
    | some fall, true =>
      let building := building.note .info .tailCall at_
        ("CBranch to " ++ hex target ++ " leaves the body; conditional tail call")
      let taken := firstSynthetic recovery instructions + building.synthetic.length
      (.cbranch cond taken fall,
        (building.push at_ [] (.call (.direct dest.offset) (taken + 1))).push at_ [] .ret)
    | fall, _ =>
      let building := building.note .warn .unresolvedBranchTarget at_
        ("CBranch target " ++ hex target ++ " or fallthrough " ++ hex next ++ " not in instruction set")
      match taken, fall with
      | some taken, _ => (.branch taken, building)
      | none, some fall => (.fallthrough fall, building)
      | none, none => (.indirect dest, building)

-- A jump table that is followed: its cases are blocks, and its index is there to be copied.
def usableTable (at_ : Nat) (ops : List Op) : Option JumpTable :=
  (((tables recovery instructions).find? fun table => table.jump = at_).filter fun table =>
    table.targets.all fun target => (leaderToBlock recovery instructions target).isSome).filter fun table =>
      match table.copyBefore with
      | none => true
      | some before => ops.any fun op => op.1 = before

-- The ops are those before the jump.
def jumpThrough (building : Building) (at_ : Nat) (dest : Varnode) (ops : List Op) :
    List Op × Terminator × Building :=
  match usableTable recovery instructions at_ ops with
  | some table =>
    let cases_ := table.targets.map fun target => (leaderToBlock recovery instructions target).getD 0
    let (index, ops) := match table.copyBefore with
      | some before => copyAside ops at_ before table.index
      | none => (table.index, ops)
    let (ops, synthetic, terminator) := switchChain ops building.synthetic (firstSynthetic recovery instructions) at_
      index table.first cases_
    (ops, terminator, { building with synthetic := synthetic })
  | none =>
    let isStackReturn := (ops.reverse.take 10).any fun (_, op) =>
      match op with
      | .load out _ _ => out.offset = dest.offset ∧ out.space = dest.space
      | _ => false
    let isBxLr : Bool := dest.space = .register ∧ (dest.offset = 88 ∨ dest.offset = 240)
    if isStackReturn ∨ isBxLr then (ops, .ret, building)
    else
      match indirectJumpTailTarget ops dest at_ with
      | (some target, ops) =>
        let (terminator, building) := tailCall recovery instructions (building.note .info .tailCall at_
          ("indirect jump via " ++ debugTarget target ++ " treated as a tail call")) at_ target
        (ops, terminator, building)
      | (none, ops) =>
        (ops, .indirect dest, building.note .warn .unrecoveredIndirectJump at_
          ("indirect jump via " ++ debugVarnode dest ++ " computes its target; successors not recovered"))

-- Control stops after a call where nothing is decoded.
def callTo (building : Building) (at_ next : Nat) (target : CallTarget) : Terminator × Building :=
  match leaderToBlock recovery instructions next with
  | some block => (.call target block, building)
  | none =>
    (.call target (firstSynthetic recovery instructions + building.synthetic.length),
      building.push at_ [] (.indirect (.constant 0 8)))

def fallsThrough (next : Nat) : Terminator :=
  match leaderToBlock recovery instructions next with
  | some block => .fallthrough block
  | none => .ret

def callThrough (building : Building) (at_ next : Nat) (dest : Varnode) (ops : List Op) :
    List Op × Terminator × Building :=
  match userOpCallTarget ops dest with
  | some userOp => (makeUserOpStatement ops.dropLast userOp dest.size, fallsThrough recovery instructions next, building)
  | none =>
    let target := recovery.resolveCallindTarget ops dest (entryAddr instructions) (instOps instructions)
    let building := match target with
      | .indirect _ => building.note .info .unresolvedIndirectCall at_
        ("CallInd via " ++ debugVarnode dest ++ " not resolved through Load chain or GP-relative trace")
      | .direct _ => building
    let (terminator, building) := callTo recovery instructions building at_ next target
    (stripCallPushOps ops.dropLast, terminator, building)

-- The terminator is made of the last op. `at_` is the address of the last instruction, `next` is its end.
def terminate (building : Building) (at_ next : Nat) (ops : List Op) : List Op × Terminator × Building :=
  match ops.getLast? with
  | none => (ops, .ret, building)
  | some (_, op) =>
    match op with
    | .ret _ => (stripReturnPopOps ops.dropLast, .ret, building)
    | .branch dest =>
      if dest.space = .ram then
        let (terminator, building) := branchTo recovery instructions building at_ dest
        (ops.dropLast, terminator, building)
      else (ops, fallsThrough recovery instructions next, building)
    | .cbranch dest cond =>
      if dest.space = .ram then
        let (terminator, building) := cbranchTo recovery instructions building at_ next dest cond
        (ops.dropLast, terminator, building)
      else (ops, fallsThrough recovery instructions next, building)
    | .branchInd dest => jumpThrough recovery instructions building at_ dest ops.dropLast
    | .call dest =>
      let target : CallTarget := if dest.space = .ram then .direct dest.offset else .indirect dest
      let (terminator, building) := callTo recovery instructions building at_ next target
      (stripCallPushOps ops.dropLast, terminator, building)
    | .callInd dest => callThrough recovery instructions building at_ next dest ops
    | _ => (ops, fallsThrough recovery instructions next, building)

def lastInst (leader : Nat) : Nat × Nat :=
  match (members recovery instructions leader).getLast? with
  | some (addr, inst) => (addr, inst.len)
  | none => (leader, 0)

def buildBlock (building : Building) (id : BlockId) (leader : Nat) : BasicBlock × Building :=
  let (at_, len) := lastInst recovery instructions leader
  let (ops, terminator, building) := terminate recovery instructions building at_ (at_ + len)
    (instOps (members recovery instructions leader))
  (⟨id, leader, ops, terminator⟩, building)

def buildBlocks : List Nat → BlockId → Building → List BasicBlock × Building
  | [], _, building => ([], building)
  | leader :: rest, id, building =>
    let (block, building) := buildBlock recovery instructions building id leader
    let (blocks, building) := buildBlocks rest (id + 1) building
    (block :: blocks, building)

def buildCfg : Cfg :=
  if instructions.isEmpty then ⟨[], 0, []⟩
  else
    let (blocks, building) := buildBlocks recovery instructions (order recovery instructions) 0 ⟨[], []⟩
    { blocks := blocks ++ building.synthetic.mapIdx fun offset synthetic =>
        ⟨firstSynthetic recovery instructions + offset, synthetic.addr, synthetic.ops, synthetic.terminator⟩
      entry := 0
      diagnostics := building.diagnostics }

end Blocks

end Rsleigh.Decompile
