import Rsleigh.Syntax.Ladder
import Rsleigh.Syntax.Token

namespace Rsleigh.Syntax

open Parsing
open Infix

-- semantic/execution.rs.
inductive Binary where
  | mult
  | div
  | sigDiv
  | rem
  | floatDiv
  | floatMult
  | add
  | sub
  | floatAdd
  | floatSub
  | lsl
  | lsr
  | asr
  | bitAnd
  | bitXor
  | bitOr
  | sigLess
  | sigGreater
  | sigRem
  | sigLessEq
  | sigGreaterEq
  | less
  | greater
  | lessEq
  | greaterEq
  | floatLess
  | floatGreater
  | floatLessEq
  | floatGreaterEq
  | and
  | xor
  | or
  | eq
  | ne
  | floatEq
  | floatNe
  | carry
  | sCarry
  | sBorrow
  deriving DecidableEq, Repr

-- syntax/block/execution/op.rs. Spans are left out, and a bit range is its two numbers.
inductive Unary where
  | byteRangeMsb (value : Nat)
  | byteRangeLsb (value : Nat)
  | bitRange (lsbBit bits : Nat)
  | dereference (space : Option String) (size : Option Nat)
  | negation
  | bitNegation
  | negative
  | floatNegative
  | popcount
  | lzcount
  | zext
  | sext
  | floatNan
  | floatAbs
  | floatSqrt
  | int2Float
  | float2Float
  | signTrunc
  | floatCeil
  | floatFloor
  | floatRound
  deriving DecidableEq, Repr

-- One operator token for one operator.
def opParser {ο : Type} (op : ο) (token : TokenType) : TokenParser ο :=
  map (tag token) fun _ => op

namespace Binary

def level1 : TokenParser Binary :=
  alt [opParser .sigDiv .opSdiv, opParser .sigRem .opSrem, opParser .floatDiv .opFdiv,
    opParser .floatMult .opFmult, opParser .mult .opMul, opParser .div .opDiv, opParser .rem .opRem]

def level2 : TokenParser Binary :=
  alt [opParser .floatAdd .opFadd, opParser .floatSub .opFsub, opParser .add .opAdd, opParser .sub .opSub]

def level3 : TokenParser Binary :=
  alt [opParser .asr .opSright, opParser .lsl .opLeft, opParser .lsr .opRight]

def level4 : TokenParser Binary :=
  alt [opParser .floatLessEq .opFlessequal, opParser .floatGreaterEq .opFgreatequal,
    opParser .sigLessEq .opSlessequal, opParser .sigGreaterEq .opSgreatequal,
    opParser .lessEq .opLessequal, opParser .greaterEq .opGreatequal,
    opParser .floatLess .opFless, opParser .floatGreater .opFgreat,
    opParser .sigLess .opSless, opParser .sigGreater .opSgreat,
    opParser .less .opLess, opParser .greater .opGreat]

def level5 : TokenParser Binary :=
  alt [opParser .floatEq .opFequal, opParser .floatNe .opFnotequal, opParser .eq .opEqual, opParser .ne .opNotequal]

-- Six precedences of the language on one level.
def level6 : TokenParser Binary :=
  alt [opParser .and .opBoolAnd, opParser .xor .opBoolXor, opParser .or .opBoolOr,
    opParser .bitAnd .opAnd, opParser .bitXor .opXor, opParser .bitOr .opOr]

def parseCallName : TokenParser Binary :=
  alt [opParser .carry .opCarry, opParser .sCarry .opScarry, opParser .sBorrow .opSborrow]

end Binary

namespace Unary

def parseByteRangeMsb : TokenParser Nat :=
  delimited (tag .deliOpenParenteses) number (tag .deliCloseParenteses)

def parseByteRangeLsb : TokenParser Nat :=
  preceded (tag .dubleDot) number

def parseBitRange : TokenParser (Nat × Nat) :=
  delimited (tag .deliOpenBrackets) (separatedPair number (tag .comma) number) (tag .deliCloseBrackets)

def parseSpaceReference : TokenParser String :=
  delimited (tag .deliOpenBrackets) ident (tag .deliCloseBrackets)

def parseDereference : TokenParser (Option String × Option Nat) :=
  preceded (tag .opMul) (pair (opt parseSpaceReference) (opt parseByteRangeLsb))

def parseAfter : TokenParser Unary :=
  alt [map parseBitRange fun (lsbBit, bits) => .bitRange lsbBit bits,
    map parseByteRangeMsb .byteRangeMsb, map parseByteRangeLsb .byteRangeLsb]

-- The tags of the two negations carry each other's names, as in the source.
def parseBefore : TokenParser Unary :=
  alt [opParser .negation .opBitNeg, opParser .bitNegation .opNeg, opParser .negative .opSub,
    opParser .floatNegative .opFsub, map parseDereference fun (space, size) => .dereference space size]

def parseCallName : TokenParser Unary :=
  alt [opParser .popcount .opPopcount, opParser .lzcount .opLzcount, opParser .zext .opZext,
    opParser .sext .opSext, opParser .floatNan .opNan, opParser .floatAbs .opAbs,
    opParser .floatSqrt .opFloatSqrt, opParser .int2Float .opInt2float,
    opParser .float2Float .opFloat2float, opParser .signTrunc .opTrunc,
    opParser .floatCeil .opCeil, opParser .floatFloor .opFloor, opParser .floatRound .opRound]

end Unary

-- syntax/block/execution/expr.rs.
mutual

inductive Expr where
  | value (element : ExprElement)
  | op (op : Binary) (left right : Expr)

inductive ExprElement where
  | value (value : Value)
  | reference (size : Option Nat) (name : String)
  | op (op : Unary) (operand : Expr)
  | new (first : Expr) (second : Option Expr)
  | cPool (params : List Expr)
  | userCall (name : String) (params : List Expr)
  -- `ident(1)` is a call of a user operation or a byte range: the syntax cannot tell.
  | ambiguous1 (name : String) (param : Nat)

end

-- The elements call back to `Expr::parse`, which is their first argument here.
namespace ExprElement

def parseOpCall (parse : TokenParser Expr) : TokenParser ExprElement :=
  map (pair Unary.parseCallName (delimited (tag .deliOpenParenteses) parse (tag .deliCloseParenteses)))
    fun (unary, param) => .op unary param

def parseNewCall (parse : TokenParser Expr) : TokenParser ExprElement :=
  map (pair (terminated (thisIdent "newobject") (tag .deliOpenParenteses))
      (terminated (pair parse (opt (preceded (tag .comma) parse))) (tag .deliCloseParenteses)))
    fun (_, param0, param1) => .new param0 param1

def parseCpoolCall (parse : TokenParser Expr) : TokenParser ExprElement :=
  mapOpt (pair (thisIdent "cpool")
      (delimited (tag .deliOpenParenteses) (separatedList0 (tag .comma) parse) (tag .deliCloseParenteses)))
    fun (_, params) => if 2 ≤ params.length then some (.cPool params) else none

def parseAmb1 : TokenParser ExprElement :=
  map (pair ident (delimited (tag .deliOpenParenteses) number (tag .deliCloseParenteses)))
    fun (name, param) => .ambiguous1 name param

def parseUserCall (parse : TokenParser Expr) : TokenParser ExprElement :=
  map (pair ident
      (delimited (tag .deliOpenParenteses) (separatedList0 (tag .comma) parse) (tag .deliCloseParenteses)))
    fun (name, params) => .userCall name params

def parseReference : TokenParser ExprElement :=
  map (preceded (tag .opAnd) (pair (opt Unary.parseByteRangeLsb) ident)) fun (size, name) => .reference size name

def parseUserCallOrAmb1 (parse : TokenParser Expr) : TokenParser ExprElement :=
  alt [parseAmb1, parseUserCall parse]

def parseValue : TokenParser ExprElement :=
  map Value.parseSigned .value

def parseEle (parse : TokenParser Expr) : TokenParser ExprElement :=
  alt [parseOpCall parse, parseNewCall parse, parseCpoolCall parse, parseUserCallOrAmb1 parse, parseValue]

end ExprElement

namespace Expr

def parseCall (parse : TokenParser Expr) : TokenParser Expr :=
  map (pair Binary.parseCallName
      (delimited (tag .deliOpenParenteses) (separatedPair parse (tag .comma) parse) (tag .deliCloseParenteses)))
    fun (binary, param1, param2) => .op binary param1 param2

def parseRec (parse : TokenParser Expr) : TokenParser Expr :=
  alt [delimited (tag .deliOpenParenteses) parse (tag .deliCloseParenteses), parseCall parse]

def valueOrRec (parse : TokenParser Expr) : TokenParser Expr :=
  alt [parseRec parse, map (ExprElement.parseEle parse) .value]

end Expr

-- What is left of the expression after the unary operators around it. The source reaches
-- `unreachable!` when the value is a binary operation without one: the element parser is only
-- tried where `parse_rec` has failed, so `value_or_rec` gives an element here.
def ExprElement.ofExpr : Expr → Option ExprElement
  | .value element => some element
  | .op .. => none

def ExprElement.parse (parse : TokenParser Expr) : TokenParser ExprElement :=
  fun input =>
    match parseReference input with
    | some (element, rest) => some (element, rest)
    | none =>
      mapOpt (pair (opt Unary.parseBefore) (pair (Expr.valueOrRec parse) (opt Unary.parseAfter)))
        (fun (opBefore, operand, opAfter) =>
          -- An operator after the value binds first.
          let expr := [opAfter, opBefore].reduceOption.foldl (fun expr unary => .value (.op unary expr)) operand
          ExprElement.ofExpr expr)
        input

def Expr.elemeRec (parse : TokenParser Expr) : TokenParser Expr :=
  alt [parseRec parse, map (ExprElement.parse parse) .value]

namespace Expr

def grammar : Grammar TokenType Binary Expr where
  node := .op
  levels := [Binary.level6, Binary.level5, Binary.level4, Binary.level3, Binary.level2, Binary.level1]
  element := elemeRec

-- `parse_lv2` to `parse_lv6` are the ladder at the rests of the list.
def parseLv1 (fuel : Nat) : TokenParser Expr :=
  ladder grammar fuel
    [Binary.level6, Binary.level5, Binary.level4, Binary.level3, Binary.level2, Binary.level1]

def parse : TokenParser Expr :=
  fun input => parseLv1 (grammar.fuelFor input) input

end Expr

-- The operators that are written between their operands: `carry`, `scarry` and `sborrow` are called.
def InfixOp : Type :=
  {op : Binary // op ≠ .carry ∧ op ≠ .sCarry ∧ op ≠ .sBorrow}

namespace InfixOp

def token (op : InfixOp) : TokenType :=
  match op.val with
  | .mult => .opMul
  | .div => .opDiv
  | .sigDiv => .opSdiv
  | .rem => .opRem
  | .floatDiv => .opFdiv
  | .floatMult => .opFmult
  | .add => .opAdd
  | .sub => .opSub
  | .floatAdd => .opFadd
  | .floatSub => .opFsub
  | .lsl => .opLeft
  | .lsr => .opRight
  | .asr => .opSright
  | .bitAnd => .opAnd
  | .bitXor => .opXor
  | .bitOr => .opOr
  | .sigLess => .opSless
  | .sigGreater => .opSgreat
  | .sigRem => .opSrem
  | .sigLessEq => .opSlessequal
  | .sigGreaterEq => .opSgreatequal
  | .less => .opLess
  | .greater => .opGreat
  | .lessEq => .opLessequal
  | .greaterEq => .opGreatequal
  | .floatLess => .opFless
  | .floatGreater => .opFgreat
  | .floatLessEq => .opFlessequal
  | .floatGreaterEq => .opFgreatequal
  | .and => .opBoolAnd
  | .xor => .opBoolXor
  | .or => .opBoolOr
  | .eq => .opEqual
  | .ne => .opNotequal
  | .floatEq => .opFequal
  | .floatNe => .opFnotequal
  | .carry => .opCarry
  | .sCarry => .opScarry
  | .sBorrow => .opSborrow

-- The precedence of the language, 0 for the tightest: `* / %`, `+ -`, shifts, order comparisons,
-- equalities, `&`, `^`, `|`, `&&` with `^^`, `||`.
def precedence (op : InfixOp) : Nat :=
  match op.val with
  | .mult | .div | .sigDiv | .rem | .sigRem | .floatDiv | .floatMult => 0
  | .add | .sub | .floatAdd | .floatSub => 1
  | .lsl | .lsr | .asr => 2
  | .sigLess | .sigGreater | .sigLessEq | .sigGreaterEq | .less | .greater | .lessEq | .greaterEq => 3
  | .floatLess | .floatGreater | .floatLessEq | .floatGreaterEq => 3
  | .eq | .ne | .floatEq | .floatNe => 4
  | .bitAnd => 5
  | .bitXor => 6
  | .bitOr => 7
  | .and | .xor => 8
  | .or => 9
  | .carry | .sCarry | .sBorrow => 0

-- The level of the parser that takes the operator: from `&` on, all precedences share the last one.
def level (op : InfixOp) : Nat :=
  min op.precedence 5

end InfixOp

def lexemeToken {ο : Type} (token : ο → TokenType) : Lexeme Atom ο → TokenType
  | .atom atom => atom.token
  | .op op => token op
  | .opening => .deliOpenParenteses
  | .closing => .deliCloseParenteses

theorem called_none {α β : Type} (accept : TokenType → Option α) (token : TokenType) {rest : List TokenType}
    (noCall : tag TokenType.deliOpenParenteses rest = none) (params : TokenParser β) :
    pair (satisfy accept) (delimited (tag .deliOpenParenteses) params (tag .deliCloseParenteses))
      (token :: rest) = none := by
  unfold pair
  rw [satisfy_cons]
  cases accept token with
  | none => rfl
  | some value =>
    simp only [Option.map_some,Option.bind_some]
    rw [delimited_none noCall]
    rfl

-- A token that is no call, no prefix and no parenthesis is a value, unless a suffix follows.
theorem parseEle_atom (parse : TokenParser Expr) (atom : Atom) {rest : List TokenType}
    (noCall : tag TokenType.deliOpenParenteses rest = none) :
    ExprElement.parseEle parse (atom.token :: rest) = some (.value atom.value, rest) := by
  have newRefused : ExprElement.parseNewCall parse (atom.token :: rest) = none := by
    apply map_none
    apply pair_none
    apply map_none
    unfold pair thisIdent
    rw [satisfy_cons]
    split
    · split
      · simp only [Option.map_some,Option.bind_some,noCall,Option.map_none]
      · rfl
    · rfl
  have cpoolRefused : ExprElement.parseCpoolCall parse (atom.token :: rest) = none := by
    unfold ExprElement.parseCpoolCall mapOpt thisIdent
    rw [called_none _ _ noCall]
    rfl
  have ambiguousRefused : ExprElement.parseAmb1 (atom.token :: rest) = none :=
    map_none (called_none _ _ noCall _) _
  have userRefused : ExprElement.parseUserCall parse (atom.token :: rest) = none :=
    map_none (called_none _ _ noCall _) _
  have opRefused : ExprElement.parseOpCall parse (atom.token :: rest) = none := by
    cases atom <;> rfl
  have eitherRefused : ExprElement.parseUserCallOrAmb1 parse (atom.token :: rest) = none := by
    unfold ExprElement.parseUserCallOrAmb1
    rw [alt_skip ambiguousRefused,alt_skip userRefused]
    rfl
  unfold ExprElement.parseEle
  rw [alt_skip opRefused,alt_skip newRefused,alt_skip cpoolRefused,alt_skip eitherRefused]
  exact alt_first (map_some (parseSigned_atom atom rest) _) _

theorem elemeRec_atom (parse : TokenParser Expr) (atom : Atom) {rest : List TokenType}
    (noSuffix : Unary.parseAfter rest = none) (noCall : tag TokenType.deliOpenParenteses rest = none) :
    Expr.elemeRec parse (atom.token :: rest) = some (.value (.value atom.value), rest) := by
  have recRefused : Expr.parseRec parse (atom.token :: rest) = none := by
    cases atom <;> rfl
  have noReference : ExprElement.parseReference (atom.token :: rest) = none := by
    cases atom <;> rfl
  have noPrefix : Unary.parseBefore (atom.token :: rest) = none := by
    cases atom <;> rfl
  have operand : Expr.valueOrRec parse (atom.token :: rest) = some (.value (.value atom.value), rest) := by
    unfold Expr.valueOrRec
    rw [alt_skip recRefused]
    exact alt_first (map_some (parseEle_atom parse atom noCall) _) _
  have element : ExprElement.parse parse (atom.token :: rest) = some (.value atom.value, rest) := by
    unfold ExprElement.parse mapOpt
    rw [noReference,pair_some (opt_none noPrefix) (pair_some operand (opt_none noSuffix))]
    rfl
  unfold Expr.elemeRec
  rw [alt_skip recRefused]
  exact alt_first (map_some element _) _

namespace Expr

theorem levels_take : Takes (lexemeToken InfixOp.token) Subtype.val InfixOp.level grammar.levels := by
  have eachLevel : ∀ op : InfixOp, ∀ rest,
      Binary.level6 (op.token :: rest) = (if op.level = 5 then some (op.val, rest) else none) ∧
      Binary.level5 (op.token :: rest) = (if op.level = 4 then some (op.val, rest) else none) ∧
      Binary.level4 (op.token :: rest) = (if op.level = 3 then some (op.val, rest) else none) ∧
      Binary.level3 (op.token :: rest) = (if op.level = 2 then some (op.val, rest) else none) ∧
      Binary.level2 (op.token :: rest) = (if op.level = 1 then some (op.val, rest) else none) ∧
      Binary.level1 (op.token :: rest) = (if op.level = 0 then some (op.val, rest) else none) := by
    intro ⟨binary,notCalled⟩ rest
    cases binary with
    | carry => exact absurd rfl notCalled.1
    | sCarry => exact absurd rfl notCalled.2.1
    | sBorrow => exact absurd rfl notCalled.2.2
    | _ => exact ⟨rfl,rfl,rfl,rfl,rfl,rfl⟩
  refine ⟨?_,fun _ => rfl,rfl,?_,fun _ => rfl,rfl,?_,fun _ => rfl,rfl,?_,fun _ => rfl,rfl,?_,fun _ => rfl,rfl,?_,
    fun _ => rfl,rfl,trivial⟩
  · exact fun op rest => (eachLevel op rest).1
  · exact fun op rest => (eachLevel op rest).2.1
  · exact fun op rest => (eachLevel op rest).2.2.1
  · exact fun op rest => (eachLevel op rest).2.2.2.1
  · exact fun op rest => (eachLevel op rest).2.2.2.2.1
  · exact fun op rest => (eachLevel op rest).2.2.2.2.2

theorem noSuffix_of_follows {rest : List TokenType}
    (follows : rest = [] ∨ (∃ tail, rest = .deliCloseParenteses :: tail) ∨
      ∃ op tail, rest = lexemeToken InfixOp.token (.op op) :: tail) :
    Unary.parseAfter rest = none ∧ tag TokenType.deliOpenParenteses rest = none := by
  rcases follows with rfl | ⟨tail,rfl⟩ | ⟨⟨op,notCalled⟩,tail,rfl⟩
  · exact ⟨rfl,rfl⟩
  · exact ⟨rfl,rfl⟩
  · cases op with
    | carry => exact absurd rfl notCalled.1
    | sCarry => exact absurd rfl notCalled.2.1
    | sBorrow => exact absurd rfl notCalled.2.2
    | _ => exact ⟨rfl,rfl⟩

theorem elemeRec_paren (parse : TokenParser Expr) (inner : List TokenType) (result : Expr) (rest : List TokenType)
    (read : parse inner = some (result, .deliCloseParenteses :: rest)) :
    elemeRec parse (.deliOpenParenteses :: inner) = some (result, rest) := by
  have whole := delimited_some (tag_same .deliOpenParenteses inner) read (tag_same .deliCloseParenteses rest)
  exact alt_first (alt_first whole _) _

def reading : Reading grammar Atom InfixOp where
  token := lexemeToken InfixOp.token
  value := fun atom => .value (.value atom.value)
  operator := Subtype.val
  rank := InfixOp.level
  rank_lt := fun op => Nat.lt_of_le_of_lt (Nat.min_le_right _ _) (by decide)
  takes := levels_take
  element_atom := fun parse atom rest follows =>
    elemeRec_atom parse atom (noSuffix_of_follows follows).1 (noSuffix_of_follows follows).2
  element_paren := elemeRec_paren
  node_inj := fun same => by
    simp only [grammar,Expr.op.injEq] at same
    exact same.2
  node_ne_value := fun _ _ _ _ => nofun

-- The tokens of a tree, with the parentheses its operators need.
def printed (tree : Tree Atom InfixOp) : List TokenType :=
  reading.tokens (minimal InfixOp.precedence tree)

theorem level_coarsens : Coarsens InfixOp.level InfixOp.precedence := by
  intro inner op tighter
  unfold InfixOp.level
  omega

theorem printed_round_trip (tree : Tree Atom InfixOp) :
    parse (printed tree) = some (reading.build tree, []) ↔ Settled InfixOp.level InfixOp.precedence tree := by
  have read := Reading.ladder_round_trip (minimal InfixOp.precedence tree)
    (minimal_layered level_coarsens tree) reading.takes (Nat.le_refl _) (by
      cases tree with
      | leaf atom => exact Nat.zero_le _
      | node op left right => exact reading.rank_lt op)
  rw [minimal_tree] at read
  exact read.trans (minimal_rightGrouped_iff level_coarsens tree)

end Expr

end Rsleigh.Syntax
