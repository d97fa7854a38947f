import Rsleigh.Lib.Parser

namespace Rsleigh.Syntax

open Parsing

-- preprocessor/token.rs. The location of a token is left out.
inductive TokenType where
  | opNotequal
  | opBoolAnd
  | opLeft
  | opLessequal
  | opEqual
  | opGreatequal
  | opRight
  | opBoolXor
  | opBoolOr
  | opAbs
  | opBorrow
  | callKey
  | opCarry
  | opCeil
  | opFnotequal
  | opFmult
  | opFadd
  | opFsub
  | opFdiv
  | opFless
  | opFlessequal
  | opFequal
  | opFgreat
  | opFgreatequal
  | opFloat2float
  | opFloatSqrt
  | opFloor
  | gotoKey
  | ifKey
  | opInt2float
  | localKey
  | opNan
  | returnKey
  | opPopcount
  | opLzcount
  | opRound
  | opSrem
  | opSdiv
  | opSless
  | opSlessequal
  | opSgreat
  | opSgreatequal
  | opSright
  | opSborrow
  | opScarry
  | opSext
  | opTrunc
  | opZext
  | opGreat
  | opLess
  | opXor
  | opAnd
  | opOr
  | opNeg
  | opBitNeg
  | opAdd
  | opSub
  | opMul
  | opDiv
  | opRem
  | opAssign
  | deliOpenParenteses
  | deliCloseParenteses
  | deliOpenBrackets
  | deliCloseBrackets
  | deliOpenCurly
  | deliCloseCurly
  | comma
  | dubleDot
  | statementEnd
  | ellipsis
  | unimpl
  | spaceConst
  | spaceUnique
  | underline
  | number (value : Nat)
  | string (value : String)
  | ident (value : String)
  deriving DecidableEq, Repr

-- lib.rs.
inductive Number where
  | positive (value : Nat)
  | negative (value : Nat)
  deriving DecidableEq, Repr

-- syntax/mod.rs.
inductive Value where
  | number (number : Number)
  | ident (name : String)
  deriving DecidableEq, Repr

abbrev TokenParser := Parser TokenType

-- syntax/parser.rs.
def ident : TokenParser String :=
  satisfy fun token =>
    match token with
    | .ident name => some name
    | _ => none

def thisIdent (value : String) : TokenParser Unit :=
  satisfy fun token =>
    match token with
    | .ident name => if name = value then some () else none
    | _ => none

def number : TokenParser Nat :=
  satisfy fun token =>
    match token with
    | .number value => some value
    | _ => none

def numberUnsigned : TokenParser Number :=
  map number .positive

def numberSigned : TokenParser Number :=
  map (pair (opt (tag .opSub)) number) fun (sign, value) =>
    if sign.isSome then .negative value else .positive value

def Value.parseUnsigned : TokenParser Value :=
  alt [map numberUnsigned .number, map Syntax.ident .ident]

def Value.parseSigned : TokenParser Value :=
  alt [map numberSigned .number, map Syntax.ident .ident]

-- The values that are one token: a name, or a number without a sign.
inductive Atom where
  | number (value : Nat)
  | ident (name : String)
  deriving DecidableEq, Repr

def Atom.token : Atom → TokenType
  | .number value => .number value
  | .ident name => .ident name

def Atom.value : Atom → Value
  | .number value => .number (.positive value)
  | .ident name => .ident name

theorem parseSigned_atom (atom : Atom) (rest : List TokenType) :
    Value.parseSigned (atom.token :: rest) = some (atom.value, rest) := by
  cases atom <;> rfl

end Rsleigh.Syntax
