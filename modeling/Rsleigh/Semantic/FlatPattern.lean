import Rsleigh.Decode.Tables
import Rsleigh.Semantic.Variants

namespace Rsleigh.Semantic.Variants

open Decode

-- How a pattern limits a bit: not at all, to one value, or depending on other bits.
inductive BitConstraint where
  | unrestrained
  | defined (bit : Bool)
  | restrained
  deriving DecidableEq

namespace BitConstraint

def define (bit : Bool) : BitConstraint → Option BitConstraint
  | .unrestrained => some (.defined bit)
  | .defined old => if old = bit then some (.defined old) else none
  | .restrained => some (.defined bit)

def mostRestrictive : BitConstraint → BitConstraint → Option BitConstraint
  | .unrestrained, other | other, .unrestrained => some other
  | .restrained, .restrained => some .restrained
  | .defined bit, .defined other => if bit = other then some (.defined bit) else none
  | .defined bit, .restrained | .restrained, .defined bit => some (.defined bit)

end BitConstraint

-- codegen/builder/context.rs: a field of the context memory, whose first bit is the highest.
structure ContextField where
  start : Nat
  len : Nat
  signed : Bool

-- The context memory, and the bits of the integer type that holds it.
structure ContextMemory where
  memoryBits : Nat
  width : Nat
  field : Nat → ContextField
  inside : ∀ id, (field id).start + (field id).len ≤ width
  narrow : width ≤ 128

-- `WorkType::new_int_bits`.
def intTypeBits (bits : Nat) : Nat :=
  if bits ≤ 8 then 8 else if bits ≤ 16 then 16 else if bits ≤ 32 then 32 else if bits ≤ 64 then 64 else 128

def ContextField.value (field : ContextField) (raw : Nat) : Word :=
  if field.signed then castSigned (intTypeBits field.len) raw else BitVec.ofNat 128 raw

namespace ContextMemory

variable (memory : ContextMemory)

def raw (id : Nat) (context : BitVec memory.width) : Nat :=
  let field := memory.field id
  context.reverse.toNat >>> (memory.width - (field.start + field.len)) % 2 ^ field.len

def read (id : Nat) (context : BitVec memory.width) : Word :=
  (memory.field id).value (memory.raw id context)

def write (id : Nat) (value : Word) (context : BitVec memory.width) : BitVec memory.width :=
  let field := memory.field id
  let rotation := memory.width - (field.start + field.len)
  let mask := BitVec.ofNat memory.width (2 ^ field.len - 1)
  ((context.reverse &&& ~~~(mask <<< rotation)) |||
    ((BitVec.ofNat memory.width value.toNat &&& mask) <<< rotation)).reverse

end ContextMemory

-- What a specification provides to the patterns of its constructors.
structure Layout where
  addrBits : Nat
  tokenField : Nat → TokenField
  memory : ContextMemory

abbrev Layout.Context (layout : Layout) := BitVec layout.memory.width

-- The debug mode is a parameter of the parser below.
def Layout.sleigh (layout : Layout) : Sleigh layout.Context where
  addrBits := layout.addrBits
  debug := false
  tokenField := layout.tokenField
  readContext := layout.memory.read
  writeContext := layout.memory.write

-- The order of the bits of a field in its slice of the constraints, and of the value in the field.
def fieldInLe (valueBit _fieldBits : Nat) : Nat :=
  valueBit

def fieldInBe (valueBit fieldBits : Nat) : Nat :=
  ((fieldBits + 7) / 8 - 1 - valueBit / 8) * 8 + valueBit % 8

def tokenOrder (field : TokenField) : Nat → Nat → Nat :=
  if field.bigEndian then fieldInBe else fieldInLe

def valueInToken (valueBit _fieldBits : Nat) : Nat :=
  valueBit

def valueInContext (valueBit fieldBits : Nat) : Nat :=
  fieldBits - 1 - valueBit

-- inner/pattern/constraint.rs. A literal defines the bits of the field one by one, up to the first one that is defined
-- otherwise; the result says whether there is none.
def applyValue (offset sliceLen start len : Nat) (fieldOrder valueOrder : Nat → Nat → Nat) (value : Option Word) :
    List Nat → List BitConstraint → Except Failure (Bool × List BitConstraint)
  | [], bits => .ok (true, bits)
  | valueBit :: rest, bits =>
    if sliceLen ≤ start + valueBit then .error .panic
    else
      let index := offset + fieldOrder (start + valueBit) sliceLen
      match bits[index]? with
      | none => .error .panic
      | some bit =>
        match value with
        | some literal =>
          match bit.define (literal.getLsbD (valueOrder valueBit len)) with
          | none => .ok (false, bits)
          | some bit =>
            applyValue offset sliceLen start len fieldOrder valueOrder value rest (bits.set index bit)
        | none =>
          match bit.mostRestrictive .restrained with
          | none => .error .panic
          | some bit =>
            applyValue offset sliceLen start len fieldOrder valueOrder value rest (bits.set index bit)

-- The bits of the context memory and of the tokens that a variant asks for.
structure ConstraintBits where
  context : List BitConstraint
  token : List BitConstraint

-- The value is only used in an equality with a literal.
def literal (op : CmpOp) (value : Expr) : Option Word :=
  match op, value with
  | .eq, .value (.integer number) => some (BitVec.ofInt 128 number)
  | _, _ => none

section Constraint

variable (layout : Layout)

-- semantic/pattern.rs. The tokens start at the byte `offset` of the pattern.
def Check.constraint (offset : Nat) (bits : ConstraintBits) : Check → Except Failure (Bool × ConstraintBits)
  | .tableBuild _ => .ok (true, bits)
  | .contextCheck id op value => do
    let field := layout.memory.field id
    let (met, context) ← applyValue 0 bits.context.length field.start field.len fieldInLe valueInContext
      (literal op value) (List.range field.len) bits.context
    return (met, { bits with context := context })
  | .tokenFieldCheck id op value => do
    let field := layout.tokenField id
    if bits.token.length < 8 * offset + 8 * field.tokenLen then .error .panic
    else
      let (met, token) ← applyValue (8 * offset) (8 * field.tokenLen) field.start field.len (tokenOrder field)
        valueInToken (literal op value) (List.range field.len) bits.token
      return (met, { bits with token := token })

-- A block stops at the first value that cannot be met, a pattern goes on with its next block.
mutual

def Verification.constraint (offset variantId : Nat) (bits : ConstraintBits) :
    Verification BlockPhase2 → Except Failure (Bool × ConstraintBits)
  | .check check => check.constraint layout offset bits
  | .subPattern pattern => do
    let bits ← patternConstraint offset variantId bits pattern
    return (true, bits)

def allConstraint (offset variantId : Nat) (bits : ConstraintBits) :
    List (Verification BlockPhase2) → Except Failure (Bool × ConstraintBits)
  | [] => .ok (true, bits)
  | verification :: rest => do
    let (met, bits) ← verification.constraint offset variantId bits
    if met then allConstraint offset variantId bits rest else return (false, bits)

def branchConstraint (offset variantId verificationId : Nat) (bits : ConstraintBits) :
    List (Verification BlockPhase2) → Except Failure (Bool × ConstraintBits)
  | [] => .error .panic
  | branch :: rest =>
    if verificationId < branch.variantsNumber then branch.constraint offset variantId bits
    else branchConstraint offset variantId (verificationId - branch.variantsNumber) bits rest

def Block.constraint (offset variantId : Nat) (bits : ConstraintBits) :
    Block BlockPhase2 → Except Failure (Bool × ConstraintBits)
  | .and _ verifications => allConstraint offset variantId bits verifications
  | .or phase first rest =>
    let verificationId := variantId / phase.variantsPrior % phase.variantsNumber
    if verificationId < first.variantsNumber then first.constraint offset variantId bits
    else branchConstraint offset variantId (verificationId - first.variantsNumber) bits rest

def patternConstraint (offset variantId : Nat) (bits : ConstraintBits) :
    Pattern BlockPhase2 → Except Failure ConstraintBits
  | [] => .ok bits
  | block :: rest => do
    let (_, bits) ← block.constraint offset variantId bits
    let next := offset + (block.phase.len.singleLen.getD block.phase.len.least)
    if bits.token.length < 8 * next then .error .panic else patternConstraint next variantId bits rest

end

def freshBits (least : Nat) : ConstraintBits where
  context := List.replicate layout.memory.memoryBits .unrestrained
  token := List.replicate (8 * least) .unrestrained

-- `pattern_bits_variants`, for a pattern of a least length.
def variantsBits (least : Nat) (pattern : Pattern BlockPhase2) : List Nat → Except Failure (List ConstraintBits)
  | [] => .ok []
  | variantId :: rest => do
    let bits ← patternConstraint layout 0 variantId (freshBits layout least) pattern
    let others ← variantsBits least pattern rest
    return bits :: others

end Constraint

-- codegen/builder/helper.rs: the defined bits as a mask and a value, for the context memory as a whole and for each byte
-- of the tokens.
def maskOf : List BitConstraint → Nat
  | [] => 0
  | .defined _ :: rest => 2 * maskOf rest + 1
  | _ :: rest => 2 * maskOf rest

def valueOf : List BitConstraint → Nat
  | [] => 0
  | .defined true :: rest => 2 * valueOf rest + 1
  | _ :: rest => 2 * valueOf rest

def patternBytes (bits : List BitConstraint) : List (Nat × Nat) :=
  (List.range ((bits.length + 7) / 8)).map fun byte =>
    let own := (bits.drop (8 * byte)).take 8
    (maskOf own, valueOf own)

-- The masks of a variant hold.
def ConstraintBits.applies (bits : ConstraintBits) (tokens : List UInt8) (context : BitVec width) :
    Except Failure Bool :=
  if context.toNat &&& maskOf bits.context = valueOf bits.context then tokenConstraint tokens 0 (patternBytes bits.token)
  else .ok false

end Rsleigh.Semantic.Variants
