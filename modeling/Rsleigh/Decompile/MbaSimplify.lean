import Rsleigh.Decompile.Simplify

namespace Rsleigh.Decompile

open Pcode

-- fold.rs: what a rule of `mba_simplify_expr` has found, `through` being the definition that it looks through and
-- `width` the operand whose width that definition works at.
inductive MbaRule where
  -- An operation undoes what `through` has done with `rest`, `a` being taken for `b`.
  | cancel (through width a b rest : VarId)
  | vanish (through width a b : VarId) (size : UInt32)
  | equal (a b : VarId) (size : UInt32)
  | absorb (kind : BinOpKind) (through width a b other : VarId)
  | operand (rest : VarId)
  | zero (size : UInt32)
  | twice (kind : UnaryOpKind) (through arg : VarId)
  -- A truth value or a difference, compared with 0.
  | negated (kind : BinOpKind) (a b : VarId)
  | difference (kind : BinOpKind) (compared a b : VarId)
  | truth (compared resolved : VarId)
  -- A division of a sign-extended value, as one of the value itself.
  | halves (kind : BinOpKind) (wide wideDivisor value divisor : VarId)
  deriving DecidableEq

def MbaRule.expr : MbaRule → Expr
  | .cancel _ _ _ _ rest | .operand rest => .var rest
  | .vanish _ _ _ _ size | .equal _ _ size | .zero size => .const 0 size
  | .absorb _ _ _ a _ _ => .var a
  | .twice _ _ arg => .var arg
  | .negated kind a b | .difference kind _ a b => .binOp kind a b
  | .truth _ resolved => .var resolved
  | .halves kind _ _ value divisor => .binOp kind value divisor

def negateEqOp : BinOpKind → Option BinOpKind
  | .eq => some .notEq
  | .notEq => some .eq
  | _ => none

section Rules

variable (vars : List VarDef)

-- `if let Expr::BinOp(kind, l, r) = &vars[through].expr { .. }`
def look (kind : BinOpKind) (through : VarId) (rule : VarId → VarId → Option MbaRule) : Option MbaRule :=
  match (varAt vars through).expr.binOperands kind with
  | some (l,r) => rule l r
  | none => none

def lookUnary (kind : UnaryOpKind) (through : VarId) (rule : VarId → Option MbaRule) : Option MbaRule :=
  match (varAt vars through).expr.unaryOperand kind with
  | some arg => rule arg
  | none => none

def when_ (test : Bool) (rule : MbaRule) : Option MbaRule := if test then some rule else none

-- a - (a - b), (a + b) - a, (a + b) - b, a - a.
def mbaSub (left right : VarId) : Option MbaRule :=
  (look vars .sub right fun l r => when_ (sameOperand vars left l) (.cancel right l left l r)) <|>
  (look vars .add left fun l r =>
    when_ (sameOperand vars right l) (.cancel left l right l r) <|>
    when_ (sameOperand vars right r) (.cancel left l right r l)) <|>
  when_ (sameOperand vars left right) (.equal left right (varAt vars left).size)

def mbaXor (left right : VarId) : Option MbaRule :=
  (look vars .xor right fun l r =>
    when_ (sameOperand vars left l) (.cancel right l left l r) <|>
    when_ (sameOperand vars left r) (.cancel right l left r l)) <|>
  (look vars .xor left fun l r =>
    when_ (sameOperand vars right l) (.cancel left l right l r) <|>
    when_ (sameOperand vars right r) (.cancel left l right r l)) <|>
  when_ (isConstZero vars right) (.operand left) <|>
  when_ (isConstZero vars left) (.operand right)

-- a + -a, -a + a, (a - b) + b, b + (a - b).
def mbaAdd (left right : VarId) : Option MbaRule :=
  (lookUnary vars .neg right fun arg =>
    when_ (sameOperand vars left arg) (.vanish right arg left arg (varAt vars left).size)) <|>
  (lookUnary vars .neg left fun arg =>
    when_ (sameOperand vars right arg) (.vanish left arg right arg (varAt vars right).size)) <|>
  (look vars .sub left fun l r => when_ (sameOperand vars right r) (.cancel left l right r l)) <|>
  (look vars .sub right fun l r => when_ (sameOperand vars left r) (.cancel right l left r l))

-- a & (a | b) with `arg` Or, a | (a & b) with `arg` And.
def mbaAbsorb (arg : BinOpKind) (left right : VarId) : Option MbaRule :=
  (look vars arg right fun l r => when_ (sameOperand vars left l) (.absorb arg right l left l r)) <|>
  (look vars arg left fun l r => when_ (sameOperand vars right l) (.absorb arg left l right l r))

def mbaTwice (kind : UnaryOpKind) (arg : VarId) : Option MbaRule :=
  lookUnary vars kind arg fun inner2 => some (.twice kind arg inner2)

-- !(a == b), !(a != b) and !(a - b), also as the comparison of `compared` with 0.
def mbaNegated (compared resolved : VarId) : Option MbaRule :=
  match (varAt vars resolved).expr with
  | .binOp kind a b =>
    match negateEqOp kind with
    | some negated => some (.negated negated a b)
    | none => when_ (kind == .sub) (.difference .eq compared a b)
  | _ => none

def mbaBoolNot (arg : VarId) : Option MbaRule := mbaTwice vars .boolNot arg <|> mbaNegated vars arg arg

-- `Follow Var chains to reach the underlying BinOp`.
def resolveVars : Nat → VarId → VarId
  | 0, id => id
  | steps + 1, id =>
    match (varAt vars id).expr with
    | .var next => resolveVars steps next
    | _ => id

def mbaEq (arg zeroId : VarId) : Option MbaRule :=
  if isConstZero vars zeroId then mbaNegated vars arg (resolveVars vars 4 arg) else none

def mbaNotEq (arg zeroId : VarId) : Option MbaRule :=
  if isConstZero vars zeroId then
    let resolved := resolveVars vars 4 arg
    match (varAt vars resolved).expr with
    | .binOp kind a b => if kind == .sub then some (.difference .notEq arg a b) else some (.truth arg resolved)
    | _ => none
  else none

def isConst (value : UInt64) (id : VarId) : Bool :=
  match (varAt vars id).expr with
  | .const found _ => found == value
  | _ => false

-- The operand of a Zext or Sext.
def extendedOperand (id : VarId) : Option VarId :=
  (varAt vars id).expr.unaryOperand .zext <|> (varAt vars id).expr.unaryOperand .sext

-- `extract_cdq_value`, once both halves have their shape: whether the high half is taken for the sign of `value`.
def isSignOf (arg value : VarId) : Bool :=
  (match (varAt vars arg).expr.binOperands .asr with
    | some (shifted,amount) => isConst vars 31 amount && sameOperand vars shifted value
    | none => false) ||
  sameOperand vars arg value ||
  (match (varAt vars arg).expr with
    | .var source => sameOperand vars source value
    | _ => false) ||
  (match (varAt vars arg).expr.unaryOperand .sext with
    | some extended => sameOperand vars extended value
    | none => false) ||
  (match (varAt vars arg).expr with
    | .var source =>
      source != arg &&
        ((match (varAt vars source).expr.unaryOperand .sext with
          | some extended => sameOperand vars extended value
          | none => false) || sameOperand vars source value)
    | _ => false)

def extractCdqValue (high low : VarId) : Option VarId := do
  let value ← (varAt vars low).expr.unaryOperand .zext
  let (shifted,amount) ← (varAt vars high).expr.binOperands .lsl
  if isConst vars 32 amount then
    let arg ← extendedOperand vars shifted
    if isSignOf vars arg value then some value else none
  else none

-- SDiv and SRem.
def mbaDivision (kind : BinOpKind) (left right : VarId) : Option MbaRule :=
  look vars .or left fun orLeft orRight =>
    ((extractCdqValue vars orLeft orRight) <|> extractCdqValue vars orRight orLeft).map fun value =>
      .halves kind left right value (((varAt vars right).expr.unaryOperand .zext).getD right)

def mbaMult (left right : VarId) : Option MbaRule :=
  when_ (isConstZero vars left || isConstZero vars right) (.zero (varAt vars left).size) <|>
  when_ (isConstOne vars left) (.operand right) <|>
  when_ (isConstOne vars right) (.operand left)

def mbaRule (v : VarId) : Option MbaRule :=
  match (varAt vars v).expr with
  | .binOp .sub left right => mbaSub vars left right
  | .binOp .xor left right => mbaXor vars left right
  | .binOp .add left right => mbaAdd vars left right
  | .binOp .and left right => mbaAbsorb vars .or left right
  | .binOp .or left right => mbaAbsorb vars .and left right
  | .unaryOp .neg arg => mbaTwice vars .neg arg
  | .unaryOp .not arg => mbaTwice vars .not arg
  | .unaryOp .boolNot arg => mbaBoolNot vars arg
  | .binOp .eq arg zeroId => mbaEq vars arg zeroId
  | .binOp .notEq arg zeroId => mbaNotEq vars arg zeroId
  | .binOp .sdiv left right => mbaDivision vars .sdiv left right
  | .binOp .srem left right => mbaDivision vars .srem left right
  | .binOp .mult left right => mbaMult vars left right
  | _ => none

def mbaSimplifyExpr (v : VarId) : Option Expr := (mbaRule vars v).map MbaRule.expr

end Rules

-- `mba_simplify`, one variable.
def mbaSimplifyAt (vars : List VarDef) (v : VarId) : List VarDef :=
  match mbaSimplifyExpr vars v with
  | some expr => rewriteExpr vars v expr
  | none => vars

section Conditions

variable (vars : List VarDef) (val : VarId → Nat) (v : VarId)

-- The bytes of `v` that its operation fills.
def operationBytes : Nat :=
  match (varAt vars v).expr with
  | .binOp _ left _ | .unaryOp _ left => kept vars v left
  | _ => 0

-- A definition that is looked through has all the bytes that the operation fills.
def MbaRule.Covers : MbaRule → Prop
  | .cancel through width _ _ _ | .vanish through width _ _ _ | .absorb _ through width _ _ _ =>
    operationBytes vars v ≤ kept vars through width
  | .twice kind through arg => kind = .boolNot ∨ operationBytes vars v ≤ kept vars through arg
  | _ => True

def signedAt (width : Nat) (u : VarId) : Int := (BitVec.ofNat (8 * width) (val u)).toInt

def signedDivision (kind : BinOpKind) (x y : Int) : Int := if kind = .sdiv then x.tdiv y else x.tmod y

-- Where a rule keeps the value: operands that are taken for one agree in these bytes, what remains is not cut by the
-- operation, a truth value is 0 or 1, a difference that is cut to nothing is nothing, and both halves of a dividend
-- make up the sign extension of the low one.
def MbaRule.Keeps (rule : MbaRule) : Prop :=
  let n := operationBytes vars v
  let size := (varAt vars v).size.toNat
  match rule with
  | .cancel _ _ a b rest => low n (val a) = low n (val b) ∧ low n (val rest) = low size (val rest)
  | .vanish _ _ a b _ | .equal a b _ => low n (val a) = low n (val b)
  | .absorb kind _ _ a b other =>
    low n (if kind = .or then val a &&& (val b ||| val other) else val a ||| (val b &&& val other)) = low n (val a) ∧
      low n (val a) = low size (val a)
  | .operand rest => low n (val rest) = low size (val rest)
  | .zero _ | .negated _ _ _ => True
  | .twice kind _ arg =>
    if kind = .boolNot then IsTruth vars val v arg else low n (val arg) = low size (val arg)
  | .difference _ compared a b => val compared = 0 → val a = low (varAt vars a).size.toNat (val b)
  | .truth compared resolved => low size (val resolved) = (val compared != 0).toNat
  | .halves kind wide wideDivisor value divisor =>
    let wideBytes := (varAt vars wide).size.toNat
    let bytes := (varAt vars value).size.toNat
    let result := signedDivision kind (signedAt val bytes value) (signedAt val bytes divisor)
    signedAt val wideBytes wide = signedAt val bytes value ∧
      signedAt val wideBytes wideDivisor = signedAt val bytes divisor ∧
      result % 2 ^ (8 * min size wideBytes) = result % 2 ^ (8 * min size bytes)

def MbaRule.isDivision : MbaRule → Bool
  | .halves _ _ _ _ _ => true
  | _ => false

end Conditions

section Chains

theorem when_some (found : when_ test rule = some found') : test = true ∧ rule = found' := by
  unfold when_ at found
  split at found
  · exact ⟨‹_›,Option.some.inj found⟩
  · cases found

theorem orElse_some {first second : Option α} (found : (first <|> second) = some x) :
    first = some x ∨ second = some x := by
  cases first with
  | none => exact .inr found
  | some _ => exact .inl found

variable {vars : List VarDef}

theorem look_some (found : look vars kind through f = some rule) :
    ∃ l r, (varAt vars through).expr = .binOp kind l r ∧ f l r = some rule := by
  unfold look at found
  split at found
  · rename_i l r shape
    exact ⟨l,r,Expr.binOperands_eq shape,found⟩
  · cases found

theorem lookUnary_some (found : lookUnary vars kind through f = some rule) :
    ∃ arg, (varAt vars through).expr = .unaryOp kind arg ∧ f arg = some rule := by
  unfold lookUnary at found
  split at found
  · rename_i arg shape
    exact ⟨arg,Expr.unaryOperand_eq shape,found⟩
  · cases found

end Chains

section Cancellation

variable {env : Env} {vars : List VarDef} {val : VarId → Nat} {v : VarId}

theorem cast_low (cut : n ≤ m) (X : Nat) : ((low m X : Nat) : ZMod (2 ^ (8 * n))) = X := by
  apply low_eq_iff.mp
  rw [low_low,Nat.min_eq_left cut]

theorem kept_narrow (valued : ValuedBelow env vars val left) (v : VarId) : kept vars v left ≤ 8 :=
  (Nat.min_le_right _ _).trans valued.narrow

theorem ring_add (valued : ValuedBelow env vars val u) (shape : (varAt vars u).expr = .binOp .add left right)
    (cut : n ≤ kept vars u left) : (val u : ZMod (2 ^ (8 * n))) = val left + val right := by
  rw [value_arithmetic (by simp [arithmeticKinds]) shape valued,computedLow,min_kept,cast_low cut,Nat.cast_add]

theorem ring_sub (valued : ValuedBelow env vars val u) (shape : (varAt vars u).expr = .binOp .sub left right)
    (cut : n ≤ kept vars u left) : (val u : ZMod (2 ^ (8 * n))) = val left - val right := by
  obtain ⟨leftValued,rightValued⟩ := valued.ofBinOp shape
  have narrow := cut.trans (kept_narrow leftValued u)
  rw [value_arithmetic (by simp [arithmeticKinds]) shape valued,computedLow,min_kept,cast_low cut,Nat.cast_add,
    cast_negative narrow rightValued.small]
  ring

theorem ring_neg (valued : ValuedBelow env vars val u) (shape : (varAt vars u).expr = .unaryOp .neg arg)
    (cut : n ≤ kept vars u arg) : (val u : ZMod (2 ^ (8 * n))) = -val arg := by
  have innerValued := valued.ofUnaryOp shape
  have narrow := cut.trans (kept_narrow innerValued u)
  rw [value_unary (.inl rfl) shape valued,computedLowUnary,min_kept,cast_low cut,
    cast_negative narrow innerValued.small]

theorem ring_not (valued : ValuedBelow env vars val u) (shape : (varAt vars u).expr = .unaryOp .not arg)
    (cut : n ≤ kept vars u arg) : (val u : ZMod (2 ^ (8 * n))) = -1 - val arg := by
  have innerValued := valued.ofUnaryOp shape
  have narrow := cut.trans (kept_narrow innerValued u)
  rw [value_unary (.inr rfl) shape valued,computedLowUnary,min_kept,cast_low cut,
    cast_complement narrow innerValued.small]

theorem low_xorOp (valued : ValuedBelow env vars val u) (shape : (varAt vars u).expr = .binOp .xor left right)
    (cut : n ≤ kept vars u left) : low n (val u) = low n (val left ^^^ val right) := by
  rw [value_arithmetic (by simp [arithmeticKinds]) shape valued,computedLow,min_kept,low_low,Nat.min_eq_left cut]

theorem low_andOp (valued : ValuedBelow env vars val u) (shape : (varAt vars u).expr = .binOp .and left right)
    (cut : n ≤ kept vars u left) : low n (val u) = low n (val left &&& val right) := by
  rw [value_arithmetic (by simp [arithmeticKinds]) shape valued,computedLow,min_kept,low_low,Nat.min_eq_left cut]

theorem low_orOp (valued : ValuedBelow env vars val u) (shape : (varAt vars u).expr = .binOp .or left right)
    (cut : n ≤ kept vars u left) : low n (val u) = low n (val left ||| val right) := by
  rw [value_arithmetic (by simp [arithmeticKinds]) shape valued,computedLow,min_kept,low_low,Nat.min_eq_left cut]

theorem low_operation (valued : ValuedBelow env vars val v) (arithmetic : kind ∈ [.add,.sub,.mult,.and,.or,.xor])
    (shape : (varAt vars v).expr = .binOp kind left right) : low (kept vars v left) (val v) = val v := by
  simp only [List.mem_cons,List.not_mem_nil,or_false] at arithmetic
  rcases arithmetic with rfl | rfl | rfl | rfl | rfl | rfl
  all_goals
    rw [value_arithmetic (by simp [arithmeticKinds]) shape valued,computedLow,min_kept,low_low,Nat.min_self]

theorem low_unary (valued : ValuedBelow env vars val v) (arithmetic : kind = .neg ∨ kind = .not)
    (shape : (varAt vars v).expr = .unaryOp kind arg) : low (kept vars v arg) (val v) = val v := by
  rcases arithmetic with rfl | rfl
  all_goals
    rw [value_unary (by simp) shape valued,computedLowUnary,min_kept,low_low,Nat.min_self]

theorem keeps_rest (fits : low n (val v) = val v) (inside : n ≤ (varAt vars v).size.toNat) (rest : VarId) :
    KeepsValue env vars val v (.var rest) ↔
      low n (val v) = low n (val rest) ∧ low n (val rest) = low (varAt vars v).size.toNat (val rest) := by
  rw [keeps_var]
  constructor
  · intro same
    have cut : low n (val v) = low n (val rest) := by
      rw [same,low_low,Nat.min_eq_left inside]
    exact ⟨cut,by rw [← cut,fits,same]⟩
  · rintro ⟨cut,uncut⟩
    rw [← fits,cut,uncut]

theorem keeps_nothing (fits : low n (val v) = val v) (size : UInt32) :
    KeepsValue env vars val v (.const 0 size) ↔ low n (val v) = 0 := by
  rw [keeps_const,fits]
  simp [low]

theorem keeps_cancel (fits : low n (val v) = val v) (inside : n ≤ (varAt vars v).size.toNat)
    (differ : (val v : ZMod (2 ^ (8 * n))) - val rest = val a - val b ∨
      (val v : ZMod (2 ^ (8 * n))) - val rest = val b - val a) :
    KeepsValue env vars val v (.var rest) ↔
      low n (val a) = low n (val b) ∧ low n (val rest) = low (varAt vars v).size.toNat (val rest) := by
  rw [keeps_rest fits inside]
  refine and_congr_left fun _ => ?_
  rw [low_eq_iff,low_eq_iff,← sub_eq_zero]
  rcases differ with differ | differ
  · rw [differ,sub_eq_zero]
  · rw [differ,sub_eq_zero,eq_comm]

theorem keeps_vanish (fits : low n (val v) = val v) (differ : (val v : ZMod (2 ^ (8 * n))) = val a - val b)
    (size : UInt32) : KeepsValue env vars val v (.const 0 size) ↔ low n (val a) = low n (val b) := by
  rw [keeps_nothing fits,low_eq_zero_iff,low_eq_iff,differ,sub_eq_zero]

theorem keeps_xor (fits : low n (val v) = val v) (inside : n ≤ (varAt vars v).size.toNat)
    (differ : low n (val v ^^^ val rest) = low n (val a ^^^ val b)) :
    KeepsValue env vars val v (.var rest) ↔
      low n (val a) = low n (val b) ∧ low n (val rest) = low (varAt vars v).size.toNat (val rest) := by
  rw [keeps_rest fits inside,← low_xor_eq_zero,differ,low_xor_eq_zero]

theorem mbaSub_keeps (valued : ValuedBelow env vars val v) (shape : (varAt vars v).expr = .binOp .sub left right)
    (found : mbaSub vars left right = some rule) (covers : rule.Covers vars v) :
    KeepsValue env vars val v rule.expr ↔ rule.Keeps vars val v := by
  obtain ⟨leftValued,rightValued⟩ := valued.ofBinOp shape
  have bytes : operationBytes vars v = kept vars v left := by rw [operationBytes,shape]
  have fits := low_operation valued (by simp) shape
  have inside : kept vars v left ≤ (varAt vars v).size.toNat := Nat.min_le_left _ _
  have whole := ring_sub valued shape (Nat.le_refl _)
  unfold mbaSub at found
  rcases orElse_some found with found | found
  · obtain ⟨l,r,arg,found⟩ := look_some found
    obtain ⟨_,rfl⟩ := when_some found
    simp only [MbaRule.Covers,bytes] at covers
    have through := ring_sub rightValued arg covers
    simp only [MbaRule.expr,MbaRule.Keeps,bytes]
    exact keeps_cancel fits inside (.inl (by rw [whole,through]; ring))
  rcases orElse_some found with found | found
  · obtain ⟨l,r,arg,found⟩ := look_some found
    rcases orElse_some found with found | found
    · obtain ⟨_,rfl⟩ := when_some found
      simp only [MbaRule.Covers,bytes] at covers
      have through := ring_add leftValued arg covers
      simp only [MbaRule.expr,MbaRule.Keeps,bytes]
      exact keeps_cancel fits inside (.inr (by rw [whole,through]; ring))
    · obtain ⟨_,rfl⟩ := when_some found
      simp only [MbaRule.Covers,bytes] at covers
      have through := ring_add leftValued arg covers
      simp only [MbaRule.expr,MbaRule.Keeps,bytes]
      exact keeps_cancel fits inside (.inr (by rw [whole,through]; ring))
  · obtain ⟨_,rfl⟩ := when_some found
    simp only [MbaRule.expr,MbaRule.Keeps,bytes]
    exact keeps_vanish fits whole _

theorem mbaAdd_keeps (valued : ValuedBelow env vars val v) (shape : (varAt vars v).expr = .binOp .add left right)
    (found : mbaAdd vars left right = some rule) (covers : rule.Covers vars v) :
    KeepsValue env vars val v rule.expr ↔ rule.Keeps vars val v := by
  obtain ⟨leftValued,rightValued⟩ := valued.ofBinOp shape
  have bytes : operationBytes vars v = kept vars v left := by rw [operationBytes,shape]
  have fits := low_operation valued (by simp) shape
  have inside : kept vars v left ≤ (varAt vars v).size.toNat := Nat.min_le_left _ _
  have whole := ring_add valued shape (Nat.le_refl _)
  unfold mbaAdd at found
  rcases orElse_some found with found | found
  · obtain ⟨negated,arg,found⟩ := lookUnary_some found
    obtain ⟨_,rfl⟩ := when_some found
    simp only [MbaRule.Covers,bytes] at covers
    have through := ring_neg rightValued arg covers
    simp only [MbaRule.expr,MbaRule.Keeps,bytes]
    exact keeps_vanish fits (by rw [whole,through]; ring) _
  rcases orElse_some found with found | found
  · obtain ⟨negated,arg,found⟩ := lookUnary_some found
    obtain ⟨_,rfl⟩ := when_some found
    simp only [MbaRule.Covers,bytes] at covers
    have through := ring_neg leftValued arg covers
    simp only [MbaRule.expr,MbaRule.Keeps,bytes]
    exact keeps_vanish fits (by rw [whole,through]; ring) _
  rcases orElse_some found with found | found
  · obtain ⟨l,r,arg,found⟩ := look_some found
    obtain ⟨_,rfl⟩ := when_some found
    simp only [MbaRule.Covers,bytes] at covers
    have through := ring_sub leftValued arg covers
    simp only [MbaRule.expr,MbaRule.Keeps,bytes]
    exact keeps_cancel fits inside (.inl (by rw [whole,through]; ring))
  · obtain ⟨l,r,arg,found⟩ := look_some found
    obtain ⟨_,rfl⟩ := when_some found
    simp only [MbaRule.Covers,bytes] at covers
    have through := ring_sub rightValued arg covers
    simp only [MbaRule.expr,MbaRule.Keeps,bytes]
    exact keeps_cancel fits inside (.inl (by rw [whole,through]; ring))

theorem mbaXor_keeps (valued : ValuedBelow env vars val v) (shape : (varAt vars v).expr = .binOp .xor left right)
    (found : mbaXor vars left right = some rule) (covers : rule.Covers vars v) :
    KeepsValue env vars val v rule.expr ↔ rule.Keeps vars val v := by
  obtain ⟨leftValued,rightValued⟩ := valued.ofBinOp shape
  have bytes : operationBytes vars v = kept vars v left := by rw [operationBytes,shape]
  have fits := low_operation valued (by simp) shape
  have inside : kept vars v left ≤ (varAt vars v).size.toNat := Nat.min_le_left _ _
  have whole := low_xorOp valued shape (Nat.le_refl _)
  unfold mbaXor at found
  rcases orElse_some found with found | found
  · obtain ⟨l,r,arg,found⟩ := look_some found
    rcases orElse_some found with found | found
    · obtain ⟨_,rfl⟩ := when_some found
      simp only [MbaRule.Covers,bytes] at covers
      have through := low_xorOp rightValued arg covers
      simp only [MbaRule.expr,MbaRule.Keeps,bytes]
      refine keeps_xor fits inside ?_
      rw [low_xor whole rfl,low_xor (low_xor rfl through) rfl,Nat.xor_assoc,Nat.xor_assoc,Nat.xor_self,Nat.xor_zero]
    · obtain ⟨_,rfl⟩ := when_some found
      simp only [MbaRule.Covers,bytes] at covers
      have through := low_xorOp rightValued arg covers
      simp only [MbaRule.expr,MbaRule.Keeps,bytes]
      refine keeps_xor fits inside ?_
      rw [low_xor whole rfl,low_xor (low_xor rfl through) rfl,Nat.xor_comm (val l),Nat.xor_assoc,Nat.xor_assoc,
        Nat.xor_self,Nat.xor_zero]
  rcases orElse_some found with found | found
  · obtain ⟨l,r,arg,found⟩ := look_some found
    rcases orElse_some found with found | found
    · obtain ⟨_,rfl⟩ := when_some found
      simp only [MbaRule.Covers,bytes] at covers
      have through := low_xorOp leftValued arg covers
      simp only [MbaRule.expr,MbaRule.Keeps,bytes]
      refine keeps_xor fits inside ?_
      rw [low_xor whole rfl,low_xor (low_xor through rfl) rfl,Nat.xor_comm _ (val right),Nat.xor_assoc,Nat.xor_assoc,
        Nat.xor_self,Nat.xor_zero]
    · obtain ⟨_,rfl⟩ := when_some found
      simp only [MbaRule.Covers,bytes] at covers
      have through := low_xorOp leftValued arg covers
      simp only [MbaRule.expr,MbaRule.Keeps,bytes]
      refine keeps_xor fits inside ?_
      rw [low_xor whole rfl,low_xor (low_xor through rfl) rfl,Nat.xor_comm _ (val right),Nat.xor_comm (val l),
        Nat.xor_assoc,Nat.xor_assoc,Nat.xor_self,Nat.xor_zero]
  rcases orElse_some found with found | found
  · obtain ⟨zero,rfl⟩ := when_some found
    simp only [MbaRule.expr,MbaRule.Keeps,bytes]
    rw [value_zero zero rightValued,Nat.xor_zero] at whole
    rw [keeps_rest fits inside,and_iff_right whole]
  · obtain ⟨zero,rfl⟩ := when_some found
    simp only [MbaRule.expr,MbaRule.Keeps,bytes]
    rw [value_zero zero leftValued,Nat.zero_xor] at whole
    rw [keeps_rest fits inside,and_iff_right whole]

theorem mbaAnd_keeps (valued : ValuedBelow env vars val v) (shape : (varAt vars v).expr = .binOp .and left right)
    (found : mbaAbsorb vars .or left right = some rule) (covers : rule.Covers vars v) :
    KeepsValue env vars val v rule.expr ↔ rule.Keeps vars val v := by
  obtain ⟨leftValued,rightValued⟩ := valued.ofBinOp shape
  have bytes : operationBytes vars v = kept vars v left := by rw [operationBytes,shape]
  have fits := low_operation valued (by simp) shape
  have inside : kept vars v left ≤ (varAt vars v).size.toNat := Nat.min_le_left _ _
  have whole := low_andOp valued shape (Nat.le_refl _)
  unfold mbaAbsorb at found
  rcases orElse_some found with found | found
  · obtain ⟨l,r,arg,found⟩ := look_some found
    obtain ⟨_,rfl⟩ := when_some found
    simp only [MbaRule.Covers,bytes] at covers
    have through := low_orOp rightValued arg covers
    simp only [MbaRule.expr,MbaRule.Keeps,bytes,if_true]
    rw [keeps_rest fits inside,whole,low_and rfl through]
  · obtain ⟨l,r,arg,found⟩ := look_some found
    obtain ⟨_,rfl⟩ := when_some found
    simp only [MbaRule.Covers,bytes] at covers
    have through := low_orOp leftValued arg covers
    simp only [MbaRule.expr,MbaRule.Keeps,bytes,if_true]
    rw [keeps_rest fits inside,whole,low_and through rfl,Nat.and_comm]

theorem mbaOr_keeps (valued : ValuedBelow env vars val v) (shape : (varAt vars v).expr = .binOp .or left right)
    (found : mbaAbsorb vars .and left right = some rule) (covers : rule.Covers vars v) :
    KeepsValue env vars val v rule.expr ↔ rule.Keeps vars val v := by
  obtain ⟨leftValued,rightValued⟩ := valued.ofBinOp shape
  have bytes : operationBytes vars v = kept vars v left := by rw [operationBytes,shape]
  have fits := low_operation valued (by simp) shape
  have inside : kept vars v left ≤ (varAt vars v).size.toNat := Nat.min_le_left _ _
  have whole := low_orOp valued shape (Nat.le_refl _)
  unfold mbaAbsorb at found
  rcases orElse_some found with found | found
  · obtain ⟨l,r,arg,found⟩ := look_some found
    obtain ⟨_,rfl⟩ := when_some found
    simp only [MbaRule.Covers,bytes] at covers
    have through := low_andOp rightValued arg covers
    simp only [MbaRule.expr,MbaRule.Keeps,bytes,reduceCtorEq,if_false]
    rw [keeps_rest fits inside,whole,low_or rfl through]
  · obtain ⟨l,r,arg,found⟩ := look_some found
    obtain ⟨_,rfl⟩ := when_some found
    simp only [MbaRule.Covers,bytes] at covers
    have through := low_andOp leftValued arg covers
    simp only [MbaRule.expr,MbaRule.Keeps,bytes,reduceCtorEq,if_false]
    rw [keeps_rest fits inside,whole,low_or through rfl,Nat.or_comm]

theorem mbaMult_keeps (valued : ValuedBelow env vars val v) (shape : (varAt vars v).expr = .binOp .mult left right)
    (found : mbaMult vars left right = some rule) :
    KeepsValue env vars val v rule.expr ↔ rule.Keeps vars val v := by
  obtain ⟨leftValued,rightValued⟩ := valued.ofBinOp shape
  have bytes : operationBytes vars v = kept vars v left := by rw [operationBytes,shape]
  have fits := low_operation valued (by simp) shape
  have inside : kept vars v left ≤ (varAt vars v).size.toNat := Nat.min_le_left _ _
  have whole := value_arithmetic (by simp [arithmeticKinds]) shape valued
  simp only [computedLow,min_kept] at whole
  unfold mbaMult at found
  rcases orElse_some found with found | found
  · obtain ⟨zero,rfl⟩ := when_some found
    have nothing : val left * val right = 0 := by
      rcases Bool.or_eq_true_iff.mp zero with zero | zero
      · rw [value_zero zero leftValued,Nat.zero_mul]
      · rw [value_zero zero rightValued,Nat.mul_zero]
    rw [nothing] at whole
    simp only [MbaRule.expr,MbaRule.Keeps]
    rw [keeps_nothing fits,fits,whole]
    exact iff_true_intro (Nat.zero_mod _)
  rcases orElse_some found with found | found
  · obtain ⟨one,rfl⟩ := when_some found
    rw [value_one one leftValued,Nat.one_mul] at whole
    simp only [MbaRule.expr,MbaRule.Keeps,bytes]
    rw [keeps_rest fits inside,fits,and_iff_right whole]
  · obtain ⟨one,rfl⟩ := when_some found
    rw [value_one one rightValued,Nat.mul_one] at whole
    simp only [MbaRule.expr,MbaRule.Keeps,bytes]
    rw [keeps_rest fits inside,fits,and_iff_right whole]

theorem mbaTwice_keeps (valued : ValuedBelow env vars val v) (twice : kind ∈ [.neg,.not,.boolNot])
    (shape : (varAt vars v).expr = .unaryOp kind arg)
    (found : mbaTwice vars kind arg = some rule) (covers : rule.Covers vars v) :
    KeepsValue env vars val v rule.expr ↔ rule.Keeps vars val v := by
  have innerValued := valued.ofUnaryOp shape
  have bytes : operationBytes vars v = kept vars v arg := by rw [operationBytes,shape]
  unfold mbaTwice at found
  obtain ⟨inner2,innerShape,found⟩ := lookUnary_some found
  obtain rfl := Option.some.inj found
  have operandValued := innerValued.ofUnaryOp innerShape
  have inside : kept vars v arg ≤ (varAt vars v).size.toNat := Nat.min_le_left _ _
  simp only [MbaRule.Covers,bytes] at covers
  simp only [MbaRule.expr,MbaRule.Keeps,bytes]
  simp only [List.mem_cons,List.not_mem_nil,or_false] at twice
  rcases twice with rfl | rfl | rfl
  · have cut := covers.resolve_left (by decide)
    have restored : low (kept vars v arg) (val v) = low (kept vars v arg) (val inner2) := by
      rw [low_eq_iff,ring_neg valued shape (Nat.le_refl _),ring_neg innerValued innerShape cut,neg_neg]
    rw [keeps_rest (low_unary valued (.inl rfl) shape) inside,and_iff_right restored]
    rfl
  · have cut := covers.resolve_left (by decide)
    have restored : low (kept vars v arg) (val v) = low (kept vars v arg) (val inner2) := by
      rw [low_eq_iff,ring_not valued shape (Nat.le_refl _),ring_not innerValued innerShape cut]
      ring
    rw [keeps_rest (low_unary valued (.inr rfl) shape) inside,and_iff_right restored]
    rfl
  · have both := simplifyBoolNot_keeps valued shape
    simpa [simplifyBoolNot,BoolNotKeeps,innerShape,Expr.unaryOperand] using both

-- Comparisons of a difference or a truth value with 0.
def sameAt (vars : List VarDef) (val : VarId → Nat) (a b : VarId) : Bool :=
  decide (val a = low (varAt vars a).size.toNat (val b))

theorem evalBinary_equality (valued : ValuedBelow env vars val a) (size : UInt32) :
    evalBinary env .intEq (varAt vars a).size size (val a) (val b) = (sameAt vars val a b).toNat ∧
      evalBinary env .intNotEq (varAt vars a).size size (val a) (val b) = (!sameAt vars val a b).toNat := by
  have test : (BitVec.ofNat (8 * (varAt vars a).size.toNat) (val a) ==
      BitVec.ofNat (8 * (varAt vars a).size.toNat) (val b)) = sameAt vars val a b := by
    rw [sameAt,Bool.beq_eq_decide_eq]
    congr 1
    rw [← BitVec.toNat_inj]
    simp [Nat.mod_eq_of_lt valued.within,low]
  constructor
  · simp only [evalBinary,test]
  · simp only [evalBinary,bne,test]

theorem keeps_equality (valued : ValuedBelow env vars val v) (aValued : ValuedBelow env vars val a)
    (value : val v = Bool.toNat truth) :
    (KeepsValue env vars val v (.binOp .eq a b) ↔ truth = sameAt vars val a b) ∧
      (KeepsValue env vars val v (.binOp .notEq a b) ↔ truth = !sameAt vars val a b) := by
  obtain ⟨eq,notEq⟩ := evalBinary_equality (b := b) aValued (varAt vars v).size
  have toNat_inj {x y : Bool} : x.toNat = y.toNat ↔ x = y := by cases x <;> cases y <;> simp
  have computedEq : exprValue env vars val (varAt vars v).size (.binOp .eq a b) =
      some (sameAt vars val a b).toNat := congrArg some eq
  have computedNotEq : exprValue env vars val (varAt vars v).size (.binOp .notEq a b) =
      some (!sameAt vars val a b).toNat := congrArg some notEq
  constructor
  · rw [keeps_some computedEq,low_truth valued,value,toNat_inj]
  · rw [keeps_some computedNotEq,low_truth valued,value,toNat_inj]

theorem value_equality (valued : ValuedBelow env vars val u) :
    ((varAt vars u).expr = .binOp .eq a b → val u = (sameAt vars val a b).toNat) ∧
      ((varAt vars u).expr = .binOp .notEq a b → val u = (!sameAt vars val a b).toNat) := by
  constructor
  · intro shape
    exact value_truth valued shape (evalBinary_equality (valued.ofBinOp shape).1 _).1
  · intro shape
    exact value_truth valued shape (evalBinary_equality (valued.ofBinOp shape).1 _).2

theorem difference_zero (valued : ValuedBelow env vars val u) (shape : (varAt vars u).expr = .binOp .sub a b)
    (same : sameAt vars val a b = true) : val u = 0 := by
  obtain ⟨aValued,bValued⟩ := valued.ofBinOp shape
  have equal : val a = low (varAt vars a).size.toNat (val b) := of_decide_eq_true same
  rw [value_arithmetic (by simp [arithmeticKinds]) shape valued,computedLow,min_kept,
    low_sub_zero (kept_narrow aValued u) bValued.small,equal,low_low]
  congr 1
  exact Nat.min_eq_left (Nat.min_le_right _ _)

theorem difference_iff (back : sameAt vars val a b = true → val compared = 0) :
    (val compared == 0) = sameAt vars val a b ↔
      (val compared = 0 → val a = low (varAt vars a).size.toNat (val b)) := by
  unfold sameAt at *
  constructor
  · intro equal zero
    simpa [zero] using equal
  · intro forward
    rw [Bool.eq_iff_iff,beq_iff_eq,decide_eq_true_eq]
    exact ⟨forward,fun same => back (decide_eq_true same)⟩

theorem mbaNegated_keeps (valued : ValuedBelow env vars val v) (value : val v = (val compared == 0).toNat)
    (copied : val resolved ≤ 1 → val compared = val resolved) (resolvedValued : ValuedBelow env vars val resolved)
    (found : mbaNegated vars compared resolved = some rule) :
    KeepsValue env vars val v rule.expr ↔ rule.Keeps vars val v := by
  unfold mbaNegated at found
  split at found
  case h_2 => cases found
  rename_i kind a b shape
  obtain ⟨aValued,bValued⟩ := resolvedValued.ofBinOp shape
  obtain ⟨keepsEq,keepsNotEq⟩ := keeps_equality (b := b) valued aValued value
  split at found
  · rename_i negated equality
    obtain rfl := Option.some.inj found
    simp only [MbaRule.expr,MbaRule.Keeps]
    refine iff_true_intro ?_
    cases kind <;> simp only [negateEqOp,reduceCtorEq,Option.some.injEq] at equality
    · subst equality
      have truth := (value_equality resolvedValued).1 shape
      rw [keepsNotEq,copied (by rw [truth]; exact Bool.toNat_le _),truth]
      cases sameAt vars val a b <;> rfl
    · subst equality
      have truth := (value_equality resolvedValued).2 shape
      rw [keepsEq,copied (by rw [truth]; exact Bool.toNat_le _),truth]
      cases sameAt vars val a b <;> rfl
  · obtain ⟨isSub,rfl⟩ := when_some found
    obtain rfl := eq_of_beq isSub
    simp only [MbaRule.expr,MbaRule.Keeps]
    rw [keepsEq]
    have back (same : sameAt vars val a b = true) : val compared = 0 := by
      have zero := difference_zero resolvedValued shape same
      rw [copied (by omega),zero]
    exact difference_iff back

theorem mbaBoolNot_keeps (valued : ValuedBelow env vars val v)
    (shape : (varAt vars v).expr = .unaryOp .boolNot arg)
    (found : mbaBoolNot vars arg = some rule) (covers : rule.Covers vars v) :
    KeepsValue env vars val v rule.expr ↔ rule.Keeps vars val v := by
  have innerValued := valued.ofUnaryOp shape
  rcases orElse_some found with found | found
  · exact mbaTwice_keeps valued (by simp) shape found covers
  · have whole := valued.keeps
    rw [shape,keeps_some rfl] at whole
    simp only [UnaryOpKind.pcode,evalUnary,low_truth valued] at whole
    exact mbaNegated_keeps valued whole (fun _ => rfl) innerValued found

theorem resolveVars_copied (steps : Nat) {id : VarId} (valued : ValuedBelow env vars val id) :
    ValuedBelow env vars val (resolveVars vars steps id) ∧
      (val (resolveVars vars steps id) ≤ 1 → val id = val (resolveVars vars steps id)) := by
  induction steps generalizing id with
  | zero => exact ⟨valued,fun _ => rfl⟩
  | succ steps ih =>
    unfold resolveVars
    split
    · rename_i next shape
      have nextValued := valued.operand (show UsedBy vars id next by simp [UsedBy,shape,Expr.operands])
      have whole := valued.keeps
      rw [shape,keeps_var] at whole
      obtain ⟨resolvedValued,copied⟩ := ih nextValued
      refine ⟨resolvedValued,fun truth => ?_⟩
      have same := copied truth
      have room : 2 ^ 8 ≤ 2 ^ (8 * (varAt vars id).size.toNat) :=
        Nat.pow_le_pow_right (by decide) (by have := valued.positive; omega)
      rw [whole,same]
      exact low_eq_self (by omega)
    · exact ⟨valued,fun _ => rfl⟩

theorem value_compared (valued : ValuedBelow env vars val v) (zero : isConstZero vars zeroId = true) :
    ((varAt vars v).expr = .binOp .eq arg zeroId → val v = (val arg == 0).toNat) ∧
      ((varAt vars v).expr = .binOp .notEq arg zeroId → val v = (val arg != 0).toNat) := by
  have test (zeroValued : ValuedBelow env vars val zeroId) : sameAt vars val arg zeroId = (val arg == 0) := by
    rw [sameAt,Bool.eq_iff_iff,decide_eq_true_iff,beq_iff_eq,value_zero zero zeroValued]
    simp [low]
  constructor
  · intro shape
    rw [(value_equality valued).1 shape,test (valued.ofBinOp shape).2]
  · intro shape
    rw [(value_equality valued).2 shape,test (valued.ofBinOp shape).2]
    rfl

theorem mbaEq_keeps (valued : ValuedBelow env vars val v) (shape : (varAt vars v).expr = .binOp .eq arg zeroId)
    (found : mbaEq vars arg zeroId = some rule) :
    KeepsValue env vars val v rule.expr ↔ rule.Keeps vars val v := by
  unfold mbaEq at found
  split at found
  · rename_i zero
    obtain ⟨resolvedValued,copied⟩ := resolveVars_copied 4 (valued.ofBinOp shape).1
    exact mbaNegated_keeps valued ((value_compared valued zero).1 shape) copied resolvedValued found
  · cases found

theorem mbaNotEq_keeps (valued : ValuedBelow env vars val v)
    (shape : (varAt vars v).expr = .binOp .notEq arg zeroId) (found : mbaNotEq vars arg zeroId = some rule) :
    KeepsValue env vars val v rule.expr ↔ rule.Keeps vars val v := by
  unfold mbaNotEq at found
  split at found
  case isFalse => cases found
  rename_i zero
  obtain ⟨resolvedValued,copied⟩ := resolveVars_copied 4 (valued.ofBinOp shape).1
  have value := (value_compared valued zero).2 shape
  dsimp only at found
  generalize resolveVars vars 4 arg = resolved at *
  split at found
  case h_2 => cases found
  rename_i kind a b resolvedShape
  split at found
  · rename_i isSub
    obtain rfl := eq_of_beq isSub
    obtain rfl := Option.some.inj found
    obtain ⟨aValued,_⟩ := resolvedValued.ofBinOp resolvedShape
    have back (same : sameAt vars val a b = true) : val arg = 0 := by
      have nothing := difference_zero resolvedValued resolvedShape same
      rw [copied (by omega),nothing]
    simp only [MbaRule.expr,MbaRule.Keeps]
    rw [(keeps_equality valued aValued value).2,← difference_iff back,bne,Bool.not_inj_iff]
  · obtain rfl := Option.some.inj found
    simp only [MbaRule.expr,MbaRule.Keeps]
    rw [keeps_var,value,eq_comm]

theorem bmod_mod (narrow : k ≤ m) (q : Int) : Int.bmod q (2 ^ m) % 2 ^ k = q % 2 ^ k := by
  have divides : ((2 : Int) ^ k) ∣ ((2 ^ m : Nat) : Int) := by
    push_cast
    exact pow_dvd_pow 2 narrow
  rw [← Int.emod_emod_of_dvd _ divides,Int.bmod_emod,Int.emod_emod_of_dvd _ divides]

theorem division_low (division : kind ∈ [.sdiv,.srem]) (width size : UInt32) (x y : Nat) :
    ((low size.toNat (evalBinary env (BinOpKind.pcode kind) width size x y) : Nat) : Int) =
      signedDivision kind (BitVec.ofNat (8 * width.toNat) x).toInt (BitVec.ofNat (8 * width.toNat) y).toInt %
        2 ^ (8 * min size.toNat width.toNat) := by
  have cut (z : BitVec (8 * width.toNat)) :
      ((low size.toNat z.toNat : Nat) : Int) = z.toInt % 2 ^ (8 * min size.toNat width.toNat) := by
    have own : low size.toNat z.toNat = z.toNat % 2 ^ (8 * min size.toNat width.toNat) := by
      have again := low_low size.toNat width.toNat z.toNat
      rwa [low_eq_self z.isLt] at again
    rw [own,BitVec.toInt_eq_toNat_bmod,bmod_mod (by omega)]
    push_cast
    rfl
  simp only [List.mem_cons,List.not_mem_nil,or_false] at division
  rcases division with rfl | rfl
  · simp only [BinOpKind.pcode,evalBinary,signedDivision,if_true]
    rw [cut,BitVec.toInt_sdiv,bmod_mod (by omega)]
  · simp only [BinOpKind.pcode,evalBinary,signedDivision,reduceCtorEq,if_false]
    rw [cut,BitVec.toInt_srem]

theorem mbaDivision_keeps (valued : ValuedBelow env vars val v) (division : kind ∈ [.sdiv,.srem])
    (shape : (varAt vars v).expr = .binOp kind left right) (found : mbaDivision vars kind left right = some rule)
    (keeps : rule.Keeps vars val v) : KeepsValue env vars val v rule.expr := by
  obtain ⟨leftValued,rightValued⟩ := valued.ofBinOp shape
  have whole := valued.keeps
  rw [shape,keeps_some rfl] at whole
  unfold mbaDivision at found
  obtain ⟨orLeft,orRight,_,found⟩ := look_some found
  simp only [Option.map_eq_some_iff] at found
  obtain ⟨value,_,rfl⟩ := found
  obtain ⟨sameValue,sameDivisor,fits⟩ := keeps
  simp only [MbaRule.expr]
  rw [keeps_some rfl,whole,← Int.natCast_inj,division_low division,division_low division]
  unfold signedAt at sameValue sameDivisor fits
  rw [sameValue,sameDivisor,fits]

end Cancellation

theorem mbaDivision_isDivision (found : mbaDivision vars kind left right = some rule) : rule.isDivision = true := by
  unfold mbaDivision at found
  obtain ⟨_,_,_,found⟩ := look_some found
  obtain ⟨_,_,rfl⟩ := Option.map_eq_some_iff.mp found
  rfl

theorem mbaRule_keeps {env : Env} {vars : List VarDef} {val : VarId → Nat} {v : VarId}
    (valued : ValuedBelow env vars val v) (found : mbaRule vars v = some rule) (covers : rule.Covers vars v) :
    (rule.Keeps vars val v → KeepsValue env vars val v rule.expr) ∧
      (rule.isDivision = false → KeepsValue env vars val v rule.expr → rule.Keeps vars val v) := by
  have both (same : KeepsValue env vars val v rule.expr ↔ rule.Keeps vars val v) :
      (rule.Keeps vars val v → KeepsValue env vars val v rule.expr) ∧
        (rule.isDivision = false → KeepsValue env vars val v rule.expr → rule.Keeps vars val v) :=
    ⟨same.mpr,fun _ => same.mp⟩
  have division {kind left right} (kinds : kind ∈ [.sdiv,.srem])
      (shape : (varAt vars v).expr = .binOp kind left right)
      (found : mbaDivision vars kind left right = some rule) :
      (rule.Keeps vars val v → KeepsValue env vars val v rule.expr) ∧
        (rule.isDivision = false → KeepsValue env vars val v rule.expr → rule.Keeps vars val v) := by
    refine ⟨mbaDivision_keeps valued kinds shape found,fun other => ?_⟩
    rw [mbaDivision_isDivision found] at other
    cases other
  unfold mbaRule at found
  split at found
  · exact both (mbaSub_keeps valued ‹_› found covers)
  · exact both (mbaXor_keeps valued ‹_› found covers)
  · exact both (mbaAdd_keeps valued ‹_› found covers)
  · exact both (mbaAnd_keeps valued ‹_› found covers)
  · exact both (mbaOr_keeps valued ‹_› found covers)
  · exact both (mbaTwice_keeps valued (by simp) ‹_› found covers)
  · exact both (mbaTwice_keeps valued (by simp) ‹_› found covers)
  · exact both (mbaBoolNot_keeps valued ‹_› found covers)
  · exact both (mbaEq_keeps valued ‹_› found)
  · exact both (mbaNotEq_keeps valued ‹_› found)
  · exact division (by simp) ‹_› found
  · exact division (by simp) ‹_› found
  · exact both (mbaMult_keeps valued ‹_› found)
  · cases found

def MbaCovers (vars : List VarDef) (v : VarId) : Prop := ∀ rule ∈ mbaRule vars v, rule.Covers vars v

def MbaKeeps (vars : List VarDef) (val : VarId → Nat) (v : VarId) : Prop :=
  ∀ rule ∈ mbaRule vars v, rule.Keeps vars val v

def MbaDivides (vars : List VarDef) (v : VarId) : Prop := ∃ rule ∈ mbaRule vars v, rule.isDivision = true

-- Where the definitions looked through are wide enough, a variable has its value after the rewrite when the rule that
-- applies keeps it, and, divisions apart, only then.
theorem mbaSimplifyAt_value (env : Env) (vars : List VarDef) (val : VarId → Nat) (v : VarId)
    (valued : ValuedBelow env vars val v) (covers : MbaCovers vars v) :
    (MbaKeeps vars val v → HoldsValue env (mbaSimplifyAt vars v) val v) ∧
      (¬ MbaDivides vars v → HoldsValue env (mbaSimplifyAt vars v) val v → MbaKeeps vars val v) := by
  obtain ⟨holds,sized⟩ := valued v .refl
  unfold mbaSimplifyAt mbaSimplifyExpr MbaKeeps MbaDivides
  cases found : mbaRule vars v with
  | none =>
    refine ⟨fun _ => holds,fun _ _ rule member => ?_⟩
    cases member
  | some rule =>
    obtain ⟨kept,exact_⟩ := mbaRule_keeps valued found (covers rule found)
    simp only [Option.map_some,Option.mem_some,forall_eq',exists_eq_left']
    rw [holds_rewriteExpr sized.inRange holds]
    refine ⟨kept,fun other => exact_ ?_⟩
    simpa using other

def negatedTwice : List VarDef :=
  [plainVar .unknown 4,plainVar (.unaryOp .neg 0) 4,plainVar (.unaryOp .neg 1) 4]

def negatedTwiceValues (id : VarId) : Nat := [7,4294967289,7].getD id 0

theorem negatedTwice_value : (mbaSimplifyAt negatedTwice 2)[2]? = some (plainVar (.var 0) 4) ∧
    HoldsValue plainEnv (mbaSimplifyAt negatedTwice 2) negatedTwiceValues 2 := by
  have values : ValuedBelow plainEnv negatedTwice negatedTwiceValues 2 := by
    intro u below
    have inside := Below.inside [0,1,2] (by decide) (by decide) below
    simp only [List.mem_cons,List.not_mem_nil,or_false] at inside
    rcases inside with rfl | rfl | rfl <;> exact ⟨⟨by decide,by decide⟩,by unfold Sized; decide⟩
  have found : mbaRule negatedTwice 2 = some (.twice .neg 1 0) := by decide
  have covers : MbaCovers negatedTwice 2 := by
    intro rule member
    obtain rfl := Option.some.inj (found.symm.trans member)
    exact .inr (by decide)
  have keeps : MbaKeeps negatedTwice negatedTwiceValues 2 := by
    intro rule member
    obtain rfl := Option.some.inj (found.symm.trans member)
    exact (by decide : low 4 7 = low 4 7)
  exact ⟨by decide,(mbaSimplifyAt_value plainEnv negatedTwice negatedTwiceValues 2 values covers).1 keeps⟩

-- a + b != 0 becomes a + b.
def nonzeroSum : List VarDef :=
  [plainVar .unknown 4,plainVar .unknown 4,plainVar (.binOp .add 0 1) 4,plainVar (.const 0 4) 4,
    plainVar (.binOp .notEq 2 3) 1]

def nonzeroSumValues (id : VarId) : Nat := [2,3,5,0,1].getD id 0

theorem nonzeroSum_changes : ¬ ∀ (env : Env) (vars : List VarDef) (val : VarId → Nat) (v : VarId),
    ValuedBelow env vars val v → HoldsValue env (mbaSimplifyAt vars v) val v := by
  intro keeps
  have values : ValuedBelow plainEnv nonzeroSum nonzeroSumValues 4 := by
    intro u below
    have inside := Below.inside [0,1,2,3,4] (by decide) (by decide) below
    simp only [List.mem_cons,List.not_mem_nil,or_false] at inside
    rcases inside with rfl | rfl | rfl | rfl | rfl <;> exact ⟨⟨by decide,by decide⟩,by unfold Sized; decide⟩
  exact absurd (keeps plainEnv nonzeroSum nonzeroSumValues 4 values).computed (by decide)

end Rsleigh.Decompile
