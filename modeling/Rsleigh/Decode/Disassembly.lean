import Rsleigh.Lib.Fallible
import Rsleigh.Syntax.Disassembly
import Mathlib.Data.Nat.Bitwise
import Mathlib.Tactic.Ring

namespace Rsleigh.Decode

open Syntax.Disassembly

-- How a generated parser ends without a match: it returns `None`, it panics, or it calls itself without end.
inductive Failure where
  | noMatch
  | panic
  | outOfFuel
  deriving DecidableEq, Repr

-- The work type of disassembly actions, `i128`.
abbrev Word := BitVec 128

-- codegen/builder/disassembly.rs. The shifts are checked: an amount that is no `u32` below the width gives 0.
def disassemblyOp (op : Op) (x y : Word) : Except Failure Word :=
  match op with
  | .add => .ok (x + y)
  | .sub => .ok (x - y)
  | .mul => .ok (x * y)
  | .div => if y = 0 then .error .panic else .ok (x.sdiv y)
  | .asr => .ok (if y.toNat < 128 then x.sshiftRight y.toNat else 0)
  | .lsl => .ok (if y.toNat < 128 then x <<< y.toNat else 0)
  | .and => .ok (x &&& y)
  | .or => .ok (x ||| y)
  | .xor => .ok (x ^^^ y)

def opUnary (op : OpUnary) (x : Word) : Word :=
  match op with
  | .negation => ~~~x
  | .negative => -x

-- The three ways in which the generated functions sign-extend a field of some bits: the cast through a signed type
-- of the same width, where there is one, and otherwise a mask over the sign bit (parser) or a
-- shift there and back (lifter). The display works in the smallest signed type that holds the field.
def castSigned (bits raw : Nat) : Word :=
  (BitVec.ofNat bits raw).signExtend 128

def patternSigned (bits raw : Nat) : Word :=
  if bits = 8 ∨ bits = 16 ∨ bits = 32 then castSigned bits raw
  else
    let val := BitVec.ofNat 128 raw
    if val &&& BitVec.ofNat 128 (2 ^ (bits - 1)) ≠ 0 then val ||| ~~~BitVec.ofNat 128 (2 ^ bits - 1) else val

def liftSigned (bits raw : Nat) : Word :=
  if bits = 8 ∨ bits = 16 ∨ bits = 32 ∨ bits = 64 then castSigned bits raw
  else (BitVec.ofNat 128 raw <<< (128 - bits)).sshiftRight (128 - bits)

def intBits (bits : Nat) : Nat :=
  if bits ≤ 8 then 8 else if bits ≤ 16 then 16 else if bits ≤ 32 then 32 else 64

def signFromValue (bits raw : Nat) : Word :=
  let width := intBits bits
  let val := BitVec.ofNat width raw
  let sign :=
    if val &&& BitVec.ofNat width (2 ^ (bits - 1)) ≠ 0 then
      BitVec.allOnes width &&& ~~~BitVec.ofNat width (2 ^ (bits - 1) - 1)
    else 0
  (sign ||| val).signExtend 128

theorem raw_bit {bits raw : Nat} (fits : raw < 2 ^ bits) {i : Nat} (out : bits ≤ i) : raw.testBit i = false :=
  Nat.testBit_lt_two_pow (Nat.lt_of_lt_of_le fits (Nat.pow_le_pow_right (by decide) out))

theorem castSigned_bit {bits raw i : Nat} (positive : 0 < bits) (inside : i < 128) :
    (castSigned bits raw).getLsbD i = if i < bits then raw.testBit i else raw.testBit (bits - 1) := by
  unfold castSigned
  simp only [BitVec.getLsbD_signExtend,inside,decide_true,Bool.true_and,BitVec.msb_eq_getLsbD_last,
    BitVec.getLsbD_ofNat]
  split
  · rename_i low
    simp [low]
  · have last : bits - 1 < bits := by omega
    simp [last]

theorem sign_bit_set {width bits raw : Nat} (positive : 0 < bits) (inside : bits ≤ width) :
    BitVec.ofNat width raw &&& BitVec.ofNat width (2 ^ (bits - 1)) ≠ 0 ↔ raw.testBit (bits - 1) = true := by
  have last : bits - 1 < width := by omega
  constructor
  · intro set
    by_contra clear
    apply set
    apply BitVec.eq_of_getLsbD_eq
    intro i inWidth
    simp only [BitVec.getLsbD_and,BitVec.getLsbD_ofNat,Nat.testBit_two_pow]
    by_cases same : bits - 1 = i
    · subst same
      simp [clear]
    · simp [same]
  · intro set zero
    have bit := congrArg (·.getLsbD (bits - 1)) zero
    have clear : (0 : BitVec width).getLsbD (bits - 1) = false := BitVec.getLsbD_zero
    simp only [BitVec.getLsbD_and,BitVec.getLsbD_ofNat,Nat.testBit_two_pow_self,clear,set,last,decide_true,
      Bool.and_self,Bool.true_eq_false] at bit

theorem patternSigned_cast {bits raw : Nat} (positive : 0 < bits) (short : bits ≤ 64) (fits : raw < 2 ^ bits) :
    patternSigned bits raw = castSigned bits raw := by
  unfold patternSigned
  split
  · rfl
  · apply BitVec.eq_of_getLsbD_eq
    intro i inside
    rw [castSigned_bit positive inside]
    simp only [sign_bit_set positive (by omega : bits ≤ 128)]
    have ones : (2 ^ bits - 1).testBit i = decide (i < bits) := Nat.testBit_two_pow_sub_one bits i
    by_cases low : i < bits
    · split
      · simp only [BitVec.getLsbD_or,BitVec.getLsbD_not,BitVec.getLsbD_ofNat,ones]
        simp [low,inside]
      · simp only [BitVec.getLsbD_ofNat]
        simp [inside]
    · have high := raw_bit fits (Nat.le_of_not_lt low)
      split
      · rename_i set
        simp only [BitVec.getLsbD_or,BitVec.getLsbD_not,BitVec.getLsbD_ofNat,ones]
        simp [low,inside,set]
      · rename_i clear
        simp only [BitVec.getLsbD_ofNat]
        simp [inside,high,clear]

theorem liftSigned_cast {bits raw : Nat} (positive : 0 < bits) (short : bits ≤ 64) :
    liftSigned bits raw = castSigned bits raw := by
  unfold liftSigned
  split
  · rfl
  · apply BitVec.eq_of_getLsbD_eq
    intro i inside
    rw [castSigned_bit positive inside]
    simp only [BitVec.getLsbD_sshiftRight,BitVec.getLsbD_shiftLeft,BitVec.msb_eq_getLsbD_last,BitVec.getLsbD_ofNat]
    by_cases low : i < bits
    · have inWord : 128 - bits + i < 128 := by omega
      have back : 128 - bits + i - (128 - bits) = i := by omega
      simp [low,inside,inWord,back,Nat.not_le.mpr inside]
    · have outWord : ¬ 128 - bits + i < 128 := by omega
      have notBelow : ¬ 127 < 128 - bits := by omega
      have back : 127 - (128 - bits) = bits - 1 := by omega
      have lastInside : bits - 1 < 128 := by omega
      simp [low,outWord,notBelow,back,lastInside,Nat.not_le.mpr inside]

theorem signFromValue_cast {bits raw : Nat} (positive : 0 < bits) (short : bits ≤ 64) (fits : raw < 2 ^ bits) :
    signFromValue bits raw = castSigned bits raw := by
  have wide : bits ≤ intBits bits := by unfold intBits; split_ifs <;> omega
  have inWord : intBits bits ≤ 64 := by unfold intBits; split_ifs <;> omega
  apply BitVec.eq_of_getLsbD_eq
  intro i inside
  rw [castSigned_bit positive inside]
  unfold signFromValue
  simp only [sign_bit_set positive wide]
  generalize intBits bits = width at wide inWord
  have bit : ∀ j, j < width →
      ((if raw.testBit (bits - 1) = true then BitVec.allOnes width &&& ~~~BitVec.ofNat width (2 ^ (bits - 1) - 1) else 0) |||
        BitVec.ofNat width raw).getLsbD j = if j < bits then raw.testBit j else raw.testBit (bits - 1) := by
    intro j inWidth
    have ones : (2 ^ (bits - 1) - 1).testBit j = decide (j < bits - 1) := Nat.testBit_two_pow_sub_one (bits - 1) j
    by_cases low : j < bits
    · rw [if_pos low]
      split
      · rename_i set
        simp only [BitVec.allOnes_and,BitVec.getLsbD_or,BitVec.getLsbD_not,BitVec.getLsbD_ofNat,ones,inWidth]
        by_cases last : j = bits - 1
        · simp [last,set]
        · have below : j < bits - 1 := by omega
          simp [below]
      · simp [-BitVec.getLsbD_eq_getElem,BitVec.getLsbD_ofNat,inWidth]
    · rw [if_neg low]
      have high := raw_bit fits (Nat.le_of_not_lt low)
      have notBelow : ¬ j < bits - 1 := by omega
      split
      · rename_i set
        simp only [BitVec.allOnes_and,BitVec.getLsbD_or,BitVec.getLsbD_not,BitVec.getLsbD_ofNat,ones,inWidth]
        simp [notBelow,set]
      · rename_i clear
        simp only [BitVec.getLsbD_or,BitVec.getLsbD_ofNat,inWidth]
        simp [high,clear]
  simp only [BitVec.getLsbD_signExtend,BitVec.msb_eq_getLsbD_last,inside,decide_true,Bool.true_and]
  split
  · rename_i inWidth
    exact bit i inWidth
  · rename_i outWidth
    rw [bit (width - 1) (by omega)]
    have out : ¬ i < bits := by omega
    rw [if_neg out]
    split
    · have last : width - 1 = bits - 1 := by omega
      rw [last]
    · rfl

-- semantic/token.rs.
inductive TokenFieldAttach where
  | noAttach (signed : Bool)
  | varnode
  | literal
  | number (values : List (Nat × Word))

-- A field with the length and the byte order of its token.
structure TokenField where
  tokenLen : Nat
  bigEndian : Bool
  start : Nat
  len : Nat
  attach : TokenFieldAttach
  positive : 0 < len
  short : len ≤ 64

def fromLeBytes : List UInt8 → Nat
  | [] => 0
  | byte :: rest => byte.toNat + 256 * fromLeBytes rest

namespace TokenField

variable (field : TokenField)

def rawValueIsSigned : Bool :=
  match field.attach with
  | .noAttach signed => signed
  | .varnode | .literal | .number _ => false

-- codegen/builder/token.rs. The token is sliced without a check of the length.
def read (tokens : List UInt8) : Except Failure Nat :=
  if tokens.length < field.tokenLen then .error .panic
  else
    let bytes := tokens.take field.tokenLen
    let value := fromLeBytes (if field.bigEndian then bytes.reverse else bytes)
    .ok (value / 2 ^ field.start % 2 ^ field.len)

def patternValue (raw : Nat) : Word :=
  if field.rawValueIsSigned then patternSigned field.len raw else BitVec.ofNat 128 raw

def liftValue (raw : Nat) : Word :=
  if field.rawValueIsSigned then liftSigned field.len raw else BitVec.ofNat 128 raw

-- codegen/builder/meaning.rs. An index without a number stands for the first one.
def disassemblyFunctionCall (raw : Nat) : Word :=
  match field.attach with
  | .noAttach true => signFromValue field.len raw
  | .number values => (((values.find? (·.1 == raw)).or values.head?).map (·.2)).getD 0
  | .noAttach false | .varnode | .literal => BitVec.ofNat 128 raw

-- The value of a field: its raw value, sign-extended when it is signed.
def value (raw : Nat) : Word :=
  if field.rawValueIsSigned then castSigned field.len raw else BitVec.ofNat 128 raw

-- No number is attached to the field.
def Plain : Prop :=
  match field.attach with
  | .number _ => False
  | .noAttach _ | .varnode | .literal => True

theorem read_fits {tokens : List UInt8} {raw : Nat} (found : field.read tokens = .ok raw) : raw < 2 ^ field.len := by
  unfold read at found
  split at found
  · cases found
  · cases found
    exact Nat.mod_lt _ (Nat.two_pow_pos _)

theorem read_ok {tokens : List UInt8} (inside : field.tokenLen ≤ tokens.length) :
    ∃ raw, field.read tokens = .ok raw := by
  unfold read
  rw [if_neg (Nat.not_lt.mpr inside)]
  exact ⟨_,rfl⟩

theorem patternValue_eq {raw : Nat} (fits : raw < 2 ^ field.len) : field.patternValue raw = field.value raw := by
  unfold patternValue value
  rw [patternSigned_cast field.positive field.short fits]

theorem liftValue_eq (raw : Nat) : field.liftValue raw = field.value raw := by
  unfold liftValue value
  rw [liftSigned_cast field.positive field.short]

theorem disassemblyFunctionCall_eq {raw : Nat} (plain : field.Plain) (fits : raw < 2 ^ field.len) :
    field.disassemblyFunctionCall raw = field.value raw := by
  unfold Plain at plain
  unfold disassemblyFunctionCall value rawValueIsSigned
  rw [signFromValue_cast field.positive field.short fits]
  cases attached : field.attach with
  | noAttach signed => cases signed <;> rfl
  | varnode => rfl
  | literal => rfl
  | number values =>
    rw [attached] at plain
    exact plain.elim

end TokenField

-- semantic/disassembly.rs, with the elements of an expression among the expressions.
inductive ReadScope where
  | integer (value : Int)
  | context (id : Nat)
  | tokenField (id : Nat)
  | instStart
  | instNext
  | var (id : Nat)
  deriving DecidableEq

inductive Expr where
  | value (scope : ReadScope)
  | unary (op : OpUnary) (inner : Expr)
  | op (op : Op) (left right : Expr)
  deriving DecidableEq

inductive WriteScope where
  | context (id : Nat)
  | var (id : Nat)
  deriving DecidableEq

inductive AddrScope where
  | integer (value : Nat)
  | table (id : Nat)
  | instStart
  | instNext
  | var (id : Nat)
  deriving DecidableEq

inductive Assertation where
  | globalSet (address : AddrScope) (context : Nat)
  | assignment (left : WriteScope) (right : Expr)
  deriving DecidableEq

namespace Expr

def reads : Expr → List ReadScope
  | .value scope => [scope]
  | .unary _ inner => inner.reads
  | .op _ left right => left.reads ++ right.reads

def usesInstNext : Expr → Bool
  | .value scope => scope == .instNext
  | .unary _ inner => inner.usesInstNext
  | .op _ left right => left.usesInstNext || right.usesInstNext

-- What every generated function makes of an expression; they differ in how they read a scope.
def eval (read : ReadScope → Except Failure Word) : Expr → Except Failure Word
  | .value scope => read scope
  | .unary operator inner => do
    let x ← inner.eval read
    return opUnary operator x
  | .op operator left right => do
    let x ← left.eval read
    let y ← right.eval read
    disassemblyOp operator x y

def Nonzero : Expr → Prop
  | .value (.integer number) => BitVec.ofInt 128 number ≠ 0
  | _ => False

-- The expression divides by literals other than zero only.
def Total : Expr → Prop
  | .value _ => True
  | .unary _ inner => inner.Total
  | .op operator left right => left.Total ∧ right.Total ∧ (operator = .div → right.Nonzero)

theorem usesInstNext_reads (expr : Expr) : expr.usesInstNext = true ↔ .instNext ∈ expr.reads := by
  induction expr with
  | value scope =>
    simp only [usesInstNext,reads,beq_iff_eq,List.mem_singleton]
    exact eq_comm
  | unary operator inner ofInner => exact ofInner
  | op operator left right ofLeft ofRight => simp [usesInstNext,reads,ofLeft,ofRight]

theorem eval_congr {expr : Expr} {read read' : ReadScope → Except Failure Word}
    (same : ∀ scope ∈ expr.reads, read scope = read' scope) : expr.eval read = expr.eval read' := by
  induction expr with
  | value scope => exact same scope (List.mem_singleton_self scope)
  | unary operator inner ofInner =>
    unfold eval
    rw [ofInner same]
  | op operator left right ofLeft ofRight =>
    unfold eval
    rw [ofLeft fun scope member => same scope (List.mem_append_left _ member),
      ofRight fun scope member => same scope (List.mem_append_right _ member)]

theorem eval_reads {expr : Expr} {read : ReadScope → Except Failure Word} :
    ∀ {word : Word}, expr.eval read = .ok word → ∀ scope ∈ expr.reads, ∃ value, read scope = .ok value := by
  induction expr with
  | value own =>
    intro word evaluated scope member
    rw [List.mem_singleton.mp member]
    exact ⟨word,evaluated⟩
  | unary operator inner ofInner =>
    intro word evaluated
    obtain ⟨x,ofX,_⟩ := Fallible.bind_ok.mp evaluated
    exact ofInner ofX
  | op operator left right ofLeft ofRight =>
    intro word evaluated scope member
    obtain ⟨x,ofX,evaluated⟩ := Fallible.bind_ok.mp evaluated
    obtain ⟨y,ofY,_⟩ := Fallible.bind_ok.mp evaluated
    rcases List.mem_append.mp member with member | member
    · exact ofLeft ofX scope member
    · exact ofRight ofY scope member

-- An expression of readable scopes that divides by nothing that may be zero has a value.
theorem eval_total {expr : Expr} {read : ReadScope → Except Failure Word} (total : expr.Total)
    (integers : ∀ number, read (.integer number) = .ok (BitVec.ofInt 128 number))
    (readable : ∀ scope ∈ expr.reads, ∃ word, read scope = .ok word) : ∃ word, expr.eval read = .ok word := by
  induction expr with
  | value scope => exact readable scope (List.mem_singleton_self scope)
  | unary operator inner ofInner =>
    obtain ⟨x,evaluated⟩ := ofInner total readable
    refine ⟨opUnary operator x,?_⟩
    unfold eval
    rw [evaluated]
    rfl
  | op operator left right ofLeft ofRight =>
    obtain ⟨leftTotal,rightTotal,divides⟩ := total
    obtain ⟨x,leftValue⟩ := ofLeft leftTotal fun scope member => readable scope (List.mem_append_left _ member)
    obtain ⟨y,rightValue⟩ := ofRight rightTotal fun scope member => readable scope (List.mem_append_right _ member)
    unfold eval
    rw [leftValue,rightValue]
    change ∃ word, disassemblyOp operator x y = .ok word
    cases operator with
    | div =>
      have nonzero : y ≠ 0 := by
        have literal := divides rfl
        unfold Nonzero at literal
        split at literal
        · unfold eval at rightValue
          rw [integers] at rightValue
          cases rightValue
          exact literal
        · exact literal.elim
      exact ⟨x.sdiv y,if_neg nonzero⟩
    | _ => exact ⟨_,rfl⟩

end Expr

end Rsleigh.Decode
