import Mathlib.Data.List.Nodup
import Mathlib.Tactic.Positivity
import Rsleigh.Lib.ByteStore
import Rsleigh.Pcode.Op

namespace Rsleigh.Pcode

-- One byte of one address space. Offsets wrap as the source's u64 does.
abbrev Cell := AddressSpaceId × UInt64

inductive Effect where
  | store (space : AddressSpaceId) (ptr : Nat) (size : UInt32) (value : Nat)
  | callOther (funcId : UInt64) (inputs : List Nat)
deriving DecidableEq, Repr

-- What P-code leaves open: byte order, floating point, and user operations.
-- A user operation may depend on everything that has happened before it.
structure Env where
  bigEndian : Bool
  floatUnary : UnaryOp → UInt32 → UInt32 → Nat → Nat
  floatBinary : BinaryOp → UInt32 → UInt32 → Nat → Nat → Nat
  userOp : List Effect → UInt64 → List Nat → UInt32 → Nat

def plainEnv : Env := ⟨false,fun _ _ _ => id,fun _ _ _ x _ => x,fun _ _ _ _ => 0⟩

structure Machine where
  mem : Cell → UInt8
  effects : List Effect
  left : Bool

def emptyMachine : Machine := ⟨fun _ => 0,[],false⟩

def Varnode.cells (env : Env) (v : Varnode) : List Cell :=
  let ascending := (List.range v.size.toNat).map fun i => (v.space,v.offset + UInt64.ofNat i)
  if env.bigEndian then ascending.reverse else ascending

def readMem (env : Env) (mem : Cell → UInt8) (v : Varnode) : Nat :=
  if v.space = .const then v.offset.toNat % 256 ^ v.size.toNat
  else ByteStore.load mem (v.cells env)

def Machine.read (env : Env) (s : Machine) (v : Varnode) : Nat := readMem env s.mem v

def Machine.write (env : Env) (s : Machine) (v : Varnode) (value : Nat) : Machine :=
  { s with mem := ByteStore.store s.mem (v.cells env) value }

def evalUnary (env : Env) (op : UnaryOp) (inSize outSize : UInt32) (x : Nat) : Nat :=
  let a := BitVec.ofNat (8 * inSize.toNat) x
  match op with
  | .intNeg => (-a).toNat
  | .intNot => (~~~a).toNat
  | .intZext => a.toNat
  | .intSext => (a.signExtend (8 * outSize.toNat)).toNat
  | .boolNot => (x == 0).toNat
  | .popcount => a.cpop.toNat
  | .lzcount => a.clz.toNat
  | op => env.floatUnary op inSize outSize x

-- Integer operations work at the width of the left operand. A shift by the
-- width or more gives zero, or the sign fill.
def evalBinary (env : Env) (op : BinaryOp) (size outSize : UInt32) (x y : Nat) : Nat :=
  let w := 8 * size.toNat
  let a := BitVec.ofNat w x
  let b := BitVec.ofNat w y
  match op with
  | .intAdd => (a + b).toNat
  | .intSub => (a - b).toNat
  | .intMult => (a * b).toNat
  | .intDiv => (a / b).toNat
  | .intSDiv => (a.sdiv b).toNat
  | .intRem => (a % b).toNat
  | .intSRem => (a.srem b).toNat
  | .intEq => (a == b).toNat
  | .intNotEq => (a != b).toNat
  | .intLess => (a.ult b).toNat
  | .intLessEq => (a.ule b).toNat
  | .intSLess => (a.slt b).toNat
  | .intSLessEq => (a.sle b).toNat
  | .intAnd => (a &&& b).toNat
  | .intOr => (a ||| b).toNat
  | .intXor => (a ^^^ b).toNat
  | .intLsl => if w ≤ y then 0 else (a <<< y).toNat
  | .intLsr => if w ≤ y then 0 else (a >>> y).toNat
  | .intAsr => (a.sshiftRight (min y w)).toNat
  | .intCarry => (decide (2 ^ w ≤ a.toNat + b.toNat)).toNat
  | .intSCarry => (a.saddOverflow b).toNat
  | .intSBorrow => (a.ssubOverflow b).toNat
  | .boolAnd => (x != 0 && y != 0).toNat
  | .boolOr => (x != 0 || y != 0).toNat
  | .boolXor => ((x != 0) ^^ (y != 0)).toNat
  | op => env.floatBinary op size outSize x y

-- The location a Load reads, or a Store writes, through its pointer.
def pointee (env : Env) (s : Machine) (space : AddressSpaceId) (ptr : Varnode) (size : UInt32) : Varnode :=
  ⟨space,UInt64.ofNat (s.read env ptr),size⟩

-- The value an op computes for its output varnode.
def compute (env : Env) (s : Machine) : PcodeOp → Nat
  | .copy _ input => s.read env input
  | .load out space ptr => s.read env (pointee env s space ptr out.size)
  | .unary op out input => evalUnary env op input.size out.size (s.read env input)
  | .binary op out left right =>
    evalBinary env op left.size out.size (s.read env left) (s.read env right)
  | .subpiece _ input lsb => s.read env input / 256 ^ lsb.toNat
  | .callOther (some out) funcId inputs =>
    env.userOp s.effects funcId (inputs.map (s.read env)) out.size
  | _ => 0

-- The location an op writes: a static output, or the target of a Store.
def written (env : Env) (s : Machine) : PcodeOp → Option Varnode
  | .store space ptr val => some (pointee env s space ptr val.size)
  | op => writes op

def writtenValue (env : Env) (s : Machine) : PcodeOp → Nat
  | .store _ _ val => s.read env val
  | op => compute env s op

def emitted (env : Env) (s : Machine) : PcodeOp → List Effect
  | .store space ptr val => [.store space (s.read env ptr) val.size (s.read env val)]
  | .callOther _ funcId inputs => [.callOther funcId (inputs.map (s.read env))]
  | _ => []

-- Control that leaves the instruction: a taken CBranch, or any other transfer.
def leaves (env : Env) (s : Machine) : PcodeOp → Bool
  | .cbranch _ cond => s.read env cond != 0
  | .branch _ | .branchInd _ | .call _ | .callInd _ | .ret _ => true
  | _ => false

def step (env : Env) (s : Machine) (op : PcodeOp) : Machine :=
  if s.left then s else
  { mem := match written env s op with
      | some v => ByteStore.store s.mem (v.cells env) (writtenValue env s op)
      | none => s.mem
    effects := s.effects ++ emitted env s op
    left := leaves env s op }

def exec (env : Env) (ops : List PcodeOp) (s : Machine) : Machine := ops.foldl (step env) s

@[simp] theorem exec_nil (env : Env) (s : Machine) : exec env [] s = s := rfl
@[simp] theorem exec_cons (env : Env) (op : PcodeOp) (ops : List PcodeOp) (s : Machine) :
    exec env (op :: ops) s = exec env ops (step env s op) := rfl
theorem exec_append (env : Env) (before after : List PcodeOp) (s : Machine) :
    exec env (before ++ after) s = exec env after (exec env before s) := List.foldl_append

theorem step_left (stopped : s.left = true) (op : PcodeOp) : step env s op = s := by
  simp [step,stopped]

theorem exec_left (stopped : s.left = true) (ops : List PcodeOp) : exec env ops s = s := by
  induction ops with
  | nil => rfl
  | cons op ops ih => rw [exec_cons,step_left stopped,ih]

theorem mem_cells {env : Env} {v : Varnode} {c : Cell} :
    c ∈ v.cells env ↔ c.1 = v.space ∧ (c.2 - v.offset).toNat < v.size.toNat := by
  have member : c ∈ v.cells env ↔ ∃ i < v.size.toNat, (v.space,v.offset + UInt64.ofNat i) = c := by
    unfold Varnode.cells
    split <;> simp
  have width := v.size.toNat_lt
  rw [member]
  constructor
  · rintro ⟨i,bound,rfl⟩
    refine ⟨rfl,?_⟩
    have index : v.offset + UInt64.ofNat i - v.offset = UInt64.ofNat i := by
      rw [UInt64.add_comm,UInt64.add_sub_cancel]
    have small : i < UInt64.size := by simp only [UInt64.size]; omega
    rw [index,UInt64.toNat_ofNat_of_lt' small]
    exact bound
  · rintro ⟨space,bound⟩
    refine ⟨_,bound,?_⟩
    rw [UInt64.ofNat_toNat,← space,UInt64.add_comm,UInt64.sub_add_cancel]

theorem length_cells (env : Env) (v : Varnode) : (v.cells env).length = v.size.toNat := by
  unfold Varnode.cells
  split <;> simp

theorem nodup_cells (env : Env) (v : Varnode) : (v.cells env).Nodup := by
  have ascending : ((List.range v.size.toNat).map fun i => (v.space,v.offset + UInt64.ofNat i)).Nodup := by
    refine List.Nodup.map_on ?_ List.nodup_range
    intro i left j right equal
    have width := v.size.toNat_lt
    simp only [List.mem_range] at left right
    have offsets : UInt64.ofNat i = UInt64.ofNat j :=
      (UInt64.add_right_inj _).mp (Prod.mk.inj equal).2
    have first : i < UInt64.size := by simp only [UInt64.size]; omega
    have second : j < UInt64.size := by simp only [UInt64.size]; omega
    have values := congrArg UInt64.toNat offsets
    rwa [UInt64.toNat_ofNat_of_lt' first,UInt64.toNat_ofNat_of_lt' second] at values
  unfold Varnode.cells
  split
  · exact List.nodup_reverse.mpr ascending
  · exact ascending

-- The bytes of a varnode; byte order does not matter here.
def Varnode.bytes (v : Varnode) : Set Cell := {c | c.1 = v.space ∧ (c.2 - v.offset).toNat < v.size.toNat}

theorem cells_eq_bytes (env : Env) (v : Varnode) : {c | c ∈ v.cells env} = v.bytes := by
  ext c
  exact mem_cells

def overlaps (v w : Varnode) : Bool :=
  v.space == w.space &&
    ((w.offset - v.offset).toNat < v.size.toNat || (v.offset - w.offset).toNat < w.size.toNat)

theorem overlaps_of_shared (left : c ∈ v.bytes) (right : c ∈ w.bytes) : overlaps v w = true := by
  obtain ⟨space,first⟩ := left
  obtain ⟨space',second⟩ := right
  have a := UInt64.toNat_sub c.2 v.offset
  have b := UInt64.toNat_sub c.2 w.offset
  have d := UInt64.toNat_sub w.offset v.offset
  have e := UInt64.toNat_sub v.offset w.offset
  have cb := c.2.toNat_lt
  have vb := v.offset.toNat_lt
  have wb := w.offset.toNat_lt
  simp only [overlaps,← space,← space',beq_self_eq_true,Bool.true_and,Bool.or_eq_true,decide_eq_true_eq]
  omega

-- What an access to v cannot touch.
def Varnode.Avoids (region : Set Cell) (v : Varnode) : Prop := v.space = .const ∨ ∀ c ∈ v.bytes, c ∉ region

theorem avoids_of_apart (apart : overlaps v w = false) : v.Avoids w.bytes :=
  .inr fun _ member other => by simp [overlaps_of_shared member other] at apart

theorem avoids_of_space {v w : Varnode} (apart : v.space ≠ w.space) : v.Avoids w.bytes :=
  .inr fun _ member other => apart (member.1.symm.trans other.1)

theorem readMem_agree {m m' : Cell → UInt8} (agree : ByteStore.AgreeOff region m m')
    (avoids : v.Avoids region) : readMem env m v = readMem env m' v := by
  unfold readMem
  split
  · rfl
  · rename_i located
    exact agree.load fun c member => avoids.resolve_left located c (mem_cells.mp member)

theorem readMem_lt (env : Env) (mem : Cell → UInt8) (v : Varnode) : readMem env mem v < 256 ^ v.size.toNat := by
  unfold readMem
  split
  · exact Nat.mod_lt _ (by positivity)
  · rw [← length_cells env v]
    exact ByteStore.load_lt _ _

theorem readMem_store_same {v : Varnode} (located : v.space ≠ .const) (mem : Cell → UInt8) (value : Nat) :
    readMem env (ByteStore.store mem (v.cells env) value) v = value % 256 ^ v.size.toNat := by
  rw [readMem,if_neg located,ByteStore.load_store _ _ (nodup_cells env v),length_cells]

theorem Machine.read_lt (env : Env) (s : Machine) (v : Varnode) : s.read env v < 256 ^ v.size.toNat :=
  readMem_lt env s.mem v

theorem Machine.read_write {v : Varnode} (located : v.space ≠ .const) (env : Env) (s : Machine) (value : Nat) :
    (s.write env v value).read env v = value % 256 ^ v.size.toNat := readMem_store_same located s.mem value

@[simp] theorem Machine.left_write (env : Env) (s : Machine) (v : Varnode) (value : Nat) :
    (s.write env v value).left = s.left := rfl

end Rsleigh.Pcode
