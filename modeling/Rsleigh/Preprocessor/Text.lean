import Rsleigh.Syntax.Token
import Mathlib.Tactic.Ring

namespace Rsleigh.Preprocessor

open Parsing Syntax

-- The text of a file, of a name or of a value.
abbrev Text := List Char

abbrev TextParser := Parser Char

def word (expected : String) : TextParser Unit :=
  fun input => if expected.toList.isPrefixOf input then some ((), input.drop expected.toList.length) else none

def takeWhile (accept : Char → Bool) : TextParser Text :=
  fun input => some (input.takeWhile accept, input.dropWhile accept)

def takeWhile1 (accept : Char → Bool) : TextParser Text :=
  fun input => if (input.takeWhile accept).isEmpty then none else takeWhile accept input

def isSpace (c : Char) : Bool :=
  c == ' ' || c == '\t'

def space0 : TextParser Text :=
  takeWhile isSpace

def space1 : TextParser Text :=
  takeWhile1 isSpace

def lineEnding : TextParser Unit :=
  alt [word "\n",word "\r\n"]

-- A carriage return ends the line only before a newline, and is refused anywhere else.
def notLineEnding : TextParser Text :=
  fun input =>
    let line := input.takeWhile fun c => c != '\n' && c != '\r'
    let rest := input.dropWhile fun c => c != '\n' && c != '\r'
    if "\r".toList.isPrefixOf rest && !"\r\n".toList.isPrefixOf rest then none else some (line, rest)

def eof : TextParser Unit :=
  fun input => if input.isEmpty then some ((), input) else none

def peek (parser : TextParser α) : TextParser α :=
  fun input => (parser input).map fun (value, _) => (value, input)

-- preprocessor/parser.rs.
def isIdentFirst (c : Char) : Bool :=
  c.isAlpha || c == '_' || c == '.'

def isIdentMiddle (c : Char) : Bool :=
  isIdentFirst c || c.isDigit

def ident : TextParser Text :=
  map (pair (takeWhile1 isIdentFirst) (takeWhile isIdentMiddle)) fun (first, middle) => first ++ middle

def inQuotesFrom : Bool → Text → TextParser Text
  | _, _, [] => none
  | skipDelimiter, ret, c :: rest =>
    if c == '\\' && !skipDelimiter then inQuotesFrom true ret rest
    else if c == '"' && !skipDelimiter then some (ret, c :: rest)
    else inQuotesFrom false (ret ++ [c]) rest

def inQuotes : TextParser Text :=
  inQuotesFrom false []

def string : TextParser Text :=
  delimited (word "\"") inQuotes (word "\"")

def digit (c : Char) : Nat :=
  if c.isDigit then c.toNat - '0'.toNat else c.toLower.toNat - 'a'.toNat + 10

def isHexDigit (c : Char) : Bool :=
  c.isDigit || ('a' ≤ c.toLower && c.toLower ≤ 'f')

-- A number that does not fit in 64 bits is refused.
def fromStrRadix (radix : Nat) (digits : Text) : Option Nat :=
  let value := digits.foldl (fun value c => value * radix + digit c) 0
  if value < 2 ^ 64 then some value else none

def numberUnsigHex : TextParser Nat :=
  mapOpt (preceded (word "0x") (takeWhile1 isHexDigit)) (fromStrRadix 16)

def numberUnsigBin : TextParser Nat :=
  mapOpt (preceded (word "0b") (takeWhile1 fun c => c == '0' || c == '1')) (fromStrRadix 2)

def numberUnsigDec : TextParser Nat :=
  mapOpt (takeWhile1 Char.isDigit) (fromStrRadix 10)

def number : TextParser Nat :=
  alt [numberUnsigHex,numberUnsigBin,numberUnsigDec]

def recognize (parser : TextParser α) : TextParser Text :=
  fun input => (parser input).map fun (_, rest) => (input.take (input.length - rest.length), rest)

def comment : TextParser Unit :=
  map (pair (word "#") notLineEnding) fun _ => ()

def emptySpace0 : TextParser Unit :=
  map (pair space0 (opt comment)) fun _ => ()

def endOfLine : TextParser Unit :=
  map (pair (opt space0) (opt comment)) fun _ => ()

-- preprocessor/ifs.rs.
inductive CmpOp where
  | eq
  | ne
  deriving DecidableEq

def CmpOp.cmp (op : CmpOp) (op1 op2 : Text) : Bool :=
  match op with
  | .eq => op1 == op2
  | .ne => op1 != op2

inductive BoolOp where
  | and
  | or
  | xor
  deriving DecidableEq

def BoolOp.check (op : BoolOp) (cond1 cond2 : Bool) : Bool :=
  match op with
  | .and => cond1 && cond2
  | .or => cond1 || cond2
  | .xor => cond1 ^^ cond2

inductive IfCheck where
  | defined (name : Text)
  | notDefined (name : Text)
  | cmp (name : Text) (op : CmpOp) (value : Text)
  | op (left : IfCheck) (op : BoolOp) (right : IfCheck)
  deriving DecidableEq

def boolOp : TextParser BoolOp :=
  alt [map (word "||") fun _ => .or,map (word "&&") fun _ => .and,map (word "^^") fun _ => .xor]

def cmpOp : TextParser CmpOp :=
  alt [map (word "==") fun _ => .eq,map (word "!=") fun _ => .ne]

def joined (cond1 : IfCheck) (rest : Option (BoolOp × IfCheck)) : IfCheck :=
  match rest with
  | some (op, cond2) => .op cond1 op cond2
  | none => cond1

def ifCondCheckOf (ifCondNotRoot : TextParser IfCheck) : TextParser IfCheck :=
  alt [
    map (pair ident (pair (delimited space0 cmpOp space0) string)) fun (name, op, value) => .cmp name op value,
    map (preceded (pair (word "defined") space0) (delimited (word "(") ident (word ")"))) .defined,
    preceded (word "(") ifCondNotRoot]

-- Every recursive call comes after at least one character, so the input bounds them.
def ifCondNotRoot : Nat → TextParser IfCheck
  | 0 => fun _ => none
  | fuel + 1 =>
    map (pair (terminated (ifCondCheckOf (ifCondNotRoot fuel)) space0)
      (alt [
        map (pair (terminated boolOp space0) (ifCondNotRoot fuel)) some,
        map (word ")") fun _ => none])) fun (cond1, rest) => joined cond1 rest

def ifCondCheck : TextParser IfCheck :=
  fun input => ifCondCheckOf (ifCondNotRoot input.length) input

def ifCondFrom : Nat → TextParser IfCheck
  | 0 => fun _ => none
  | fuel + 1 =>
    map (pair (terminated ifCondCheck space0)
      (alt [
        map (pair endOfLine (peek lineEnding)) fun _ => none,
        map (pair (terminated boolOp space0) (ifCondFrom fuel)) some])) fun (cond1, rest) => joined cond1 rest

def ifCond : TextParser IfCheck :=
  fun input => ifCondFrom (input.length + 1) input

-- preprocessor/macros.rs.
def expansion : TextParser Text :=
  delimited (pair (word "$(") space0) ident (pair space0 (word ")"))

inductive DefineData where
  | alias (name : Text)
  | value (value : Text)
  deriving DecidableEq

def DefineData.parse : TextParser DefineData :=
  alt [map ident .alias,map (alt [string,recognize number]) .value]

inductive MacroLine where
  | define (name : Text) (value : Option DefineData)
  | undefine (name : Text)
  | include_ (file : Text)
  | if_ (cond : IfCheck)
  | elIf (cond : IfCheck)
  | else_
  | endIf
  deriving DecidableEq

namespace MacroLine

def parseDefine : TextParser MacroLine :=
  map (delimited (pair (word "@define") space1) (pair ident (opt (preceded space1 DefineData.parse))) endOfLine)
    fun (name, value) => .define name value

def parseUndefine : TextParser MacroLine :=
  map (delimited (pair (word "@undef") space1) ident endOfLine) .undefine

def parseInclude : TextParser MacroLine :=
  map (delimited (pair (word "@include") space0) string endOfLine) .include_

def parseIf : TextParser MacroLine :=
  map (preceded (pair (word "@if") space1) ifCond) .if_

def parseIfdef : TextParser MacroLine :=
  map (delimited (pair (word "@ifdef") space1) ident endOfLine) fun name => .if_ (.defined name)

def parseIfndef : TextParser MacroLine :=
  map (delimited (pair (word "@ifndef") space1) ident endOfLine) fun name => .if_ (.notDefined name)

def parseElif : TextParser MacroLine :=
  map (preceded (pair (word "@elif") space1) ifCond) .elIf

def parseElse : TextParser MacroLine :=
  map (pair (word "@else") endOfLine) fun _ => .else_

def parseEndif : TextParser MacroLine :=
  map (pair (word "@endif") endOfLine) fun _ => .endIf

def parse : TextParser MacroLine :=
  preceded space0 (alt [parseDefine,parseUndefine,parseInclude,parseIf,parseIfdef,parseIfndef,parseElif,parseElse,
    parseEndif])

end MacroLine

-- preprocessor/token.rs. The order matters: `<<` is not two `<`.
def operators : List (String × TokenType) := [
  ("$and",.opBoolAnd),("$xor",.opBoolXor),("$or",.opBoolOr),
  ("f!=",.opFnotequal),("f<=",.opFlessequal),("f==",.opFequal),("f>=",.opFgreatequal),
  ("f*",.opFmult),("f+",.opFadd),("f-",.opFsub),("f/",.opFdiv),("f<",.opFless),("f>",.opFgreat),
  ("s<=",.opSlessequal),("s>=",.opSgreatequal),("s>>",.opSright),
  ("s%",.opSrem),("s/",.opSdiv),("s<",.opSless),("s>",.opSgreat),
  ("!=",.opNotequal),("<<",.opLeft),("<=",.opLessequal),("==",.opEqual),(">=",.opGreatequal),(">>",.opRight),
  ("&&",.opBoolAnd),("^^",.opBoolXor),("||",.opBoolOr),
  (">",.opGreat),("<",.opLess),("^",.opXor),("&",.opAnd),("|",.opOr),("~",.opNeg),("!",.opBitNeg),
  ("+",.opAdd),("-",.opSub),("*",.opMul),("/",.opDiv),("%",.opRem),("=",.opAssign),
  ("(",.deliOpenParenteses),(")",.deliCloseParenteses),("[",.deliOpenBrackets),("]",.deliCloseBrackets),
  ("\x7b",.deliOpenCurly),("\x7d",.deliCloseCurly),(",",.comma),(":",.dubleDot),(";",.statementEnd),("...",.ellipsis)]

def keywords : List (String × TokenType) := [
  ("_",.underline),("if",.ifKey),("abs",.opAbs),("nan",.opNan),("call",.callKey),("ceil",.opCeil),("goto",.gotoKey),
  ("sqrt",.opFloatSqrt),("sext",.opSext),("zext",.opZext),("const",.spaceConst),("trunc",.opTrunc),
  ("carry",.opCarry),("floor",.opFloor),("local",.localKey),("round",.opRound),("unimpl",.unimpl),
  ("unique",.spaceUnique),("return",.returnKey),("scarry",.opScarry),("borrow",.opBorrow),("sborrow",.opSborrow),
  ("popcount",.opPopcount),("lzcount",.opLzcount),("int2float",.opInt2float),("float2float",.opFloat2float)]

def parseWords : TextParser TokenType :=
  map (alt [ident,map (word "_") fun _ => ['_']]) fun name =>
    match keywords.find? fun (keyword, _) => keyword.toList == name with
    | some (_, token) => token
    | none => .ident (String.ofList name)

def TokenType.parse : TextParser TokenType :=
  alt [
    map number .number,
    alt (operators.map fun (operator, token) => map (word operator) fun _ => token),
    map string fun text => .string (String.ofList text),
    parseWords]

end Rsleigh.Preprocessor
