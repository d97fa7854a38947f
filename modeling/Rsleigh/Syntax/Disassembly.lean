import Rsleigh.Syntax.Expr

namespace Rsleigh.Syntax.Disassembly

open Parsing
open Infix

-- semantic/disassembly.rs.
inductive OpUnary where
  | negation
  | negative
  deriving DecidableEq, Repr

inductive Op where
  | add
  | sub
  | mul
  | div
  | and
  | or
  | xor
  | asr
  | lsl
  deriving DecidableEq, Repr

-- syntax/block/disassembly.rs.
mutual

inductive Expr where
  | value (element : ExprElement)
  | op (op : Op) (left right : Expr)

inductive ExprElement where
  | value (value : Value)
  | op (op : OpUnary) (operand : Expr)

end

def OpUnary.parse : TokenParser OpUnary :=
  alt [opParser .negation .opNeg, opParser .negative .opSub]

namespace Op

def parseLevel1 : TokenParser Op :=
  alt [opParser .add .opAdd, opParser .sub .opSub]

def parseLevel2 : TokenParser Op :=
  alt [opParser .mul .opMul, opParser .div .opDiv]

def parseLevel3 : TokenParser Op :=
  alt [opParser .asr .opRight, opParser .lsl .opLeft]

-- Outside of brackets the logical operators are spelled `$and`, `$or` and `$xor`.
def parseUnsafeLevel4 : TokenParser Op :=
  alt [opParser .and .opBoolAnd, opParser .or .opBoolOr, opParser .xor .opBoolXor]

def parseSafeLevel4 : TokenParser Op :=
  alt [opParser .and .opAnd, opParser .or .opOr, opParser .xor .opXor]

end Op

-- An element and the parser above it call each other: `-` and `~` apply to an element again. Every
-- call spends a token, which is what the fuel counts.
def parseElements (parseSafe : TokenParser Expr) : Nat → TokenParser Expr
  | 0 => fun _ => none
  | fuel + 1 =>
    alt [delimited (tag .deliOpenParenteses) parseSafe (tag .deliCloseParenteses),
      map (alt [map (pair OpUnary.parse (parseElements parseSafe fuel)) fun (unary, element) => .op unary element,
        map Value.parseUnsigned .value]) Expr.value]

def parseRecOrEle (parseSafe : TokenParser Expr) : TokenParser Expr :=
  fun input => parseElements parseSafe (input.length + 1) input

-- Parentheses always hold a safe expression, whichever expression they stand in.
def grammar : Grammar TokenType Op Expr where
  node := .op
  levels := [Op.parseSafeLevel4, Op.parseUnsafeLevel4, Op.parseLevel1, Op.parseLevel2, Op.parseLevel3]
  element := parseRecOrEle

def parseSafe : TokenParser Expr :=
  fun input => ladder grammar (grammar.fuelFor input)
    [Op.parseSafeLevel4, Op.parseUnsafeLevel4, Op.parseLevel1, Op.parseLevel2, Op.parseLevel3] input

def parseUnsafe : TokenParser Expr :=
  fun input => ladder grammar (grammar.fuelFor input)
    [Op.parseUnsafeLevel4, Op.parseLevel1, Op.parseLevel2, Op.parseLevel3] input

-- The operators as they are written: the logical ones have two spellings.
inductive Written where
  | add
  | sub
  | mul
  | div
  | asr
  | lsl
  | and
  | or
  | xor
  | andSpelled
  | orSpelled
  | xorSpelled
  deriving DecidableEq, Repr

namespace Written

def operator : Written → Op
  | add => .add
  | sub => .sub
  | mul => .mul
  | div => .div
  | asr => .asr
  | lsl => .lsl
  | and | andSpelled => .and
  | or | orSpelled => .or
  | xor | xorSpelled => .xor

def token : Written → TokenType
  | add => .opAdd
  | sub => .opSub
  | mul => .opMul
  | div => .opDiv
  | asr => .opRight
  | lsl => .opLeft
  | and => .opAnd
  | or => .opOr
  | xor => .opXor
  | andSpelled => .opBoolAnd
  | orSpelled => .opBoolOr
  | xorSpelled => .opBoolXor

-- The level that takes the operator, counted from the element.
def level : Written → Nat
  | asr | lsl => 0
  | mul | div => 1
  | add | sub => 2
  | andSpelled | orSpelled | xorSpelled => 3
  | and | or | xor => 4

end Written

theorem levels_take : Takes (lexemeToken Written.token) Written.operator Written.level grammar.levels := by
  have eachLevel : ∀ op : Written, ∀ rest,
      Op.parseSafeLevel4 (op.token :: rest) = (if op.level = 4 then some (op.operator, rest) else none) ∧
      Op.parseUnsafeLevel4 (op.token :: rest) = (if op.level = 3 then some (op.operator, rest) else none) ∧
      Op.parseLevel1 (op.token :: rest) = (if op.level = 2 then some (op.operator, rest) else none) ∧
      Op.parseLevel2 (op.token :: rest) = (if op.level = 1 then some (op.operator, rest) else none) ∧
      Op.parseLevel3 (op.token :: rest) = (if op.level = 0 then some (op.operator, rest) else none) := by
    intro op rest
    cases op <;> exact ⟨rfl,rfl,rfl,rfl,rfl⟩
  refine ⟨?_,fun _ => rfl,rfl,?_,fun _ => rfl,rfl,?_,fun _ => rfl,rfl,?_,fun _ => rfl,rfl,?_,fun _ => rfl,rfl,trivial⟩
  · exact fun op rest => (eachLevel op rest).1
  · exact fun op rest => (eachLevel op rest).2.1
  · exact fun op rest => (eachLevel op rest).2.2.1
  · exact fun op rest => (eachLevel op rest).2.2.2.1
  · exact fun op rest => (eachLevel op rest).2.2.2.2

theorem parseRecOrEle_atom (parse : TokenParser Expr) (atom : Atom) (rest : List TokenType) :
    parseRecOrEle parse (atom.token :: rest) = some (.value (.value atom.value), rest) := by
  cases atom <;> rfl

theorem parseRecOrEle_paren (parse : TokenParser Expr) (inner : List TokenType) (result : Expr)
    (rest : List TokenType) (read : parse inner = some (result, .deliCloseParenteses :: rest)) :
    parseRecOrEle parse (.deliOpenParenteses :: inner) = some (result, rest) := by
  have whole := delimited_some (tag_same .deliOpenParenteses inner) read (tag_same .deliCloseParenteses rest)
  exact alt_first whole _

def reading : Reading grammar Atom Written where
  token := lexemeToken Written.token
  value := fun atom => .value (.value atom.value)
  operator := Written.operator
  rank := Written.level
  rank_lt := by
    intro op
    cases op <;> decide
  takes := levels_take
  element_atom := fun parse atom rest _ => parseRecOrEle_atom parse atom rest
  element_paren := parseRecOrEle_paren
  node_inj := fun same => by
    simp only [grammar,Expr.op.injEq] at same
    exact same.2
  node_ne_value := fun _ _ _ _ => nofun

-- A chain `first op atom op atom ...`, as the tokens it is written with.
def chain (first : Atom) (steps : List (Written × Atom)) : List TokenType :=
  first.token :: steps.flatMap fun step => [step.1.token, step.2.token]

-- The same chain with every operator applied to all that stands on its left.
def leftGrouped (first : Atom) (steps : List (Written × Atom)) : Expr :=
  steps.foldl (fun expr step => .op step.1.operator expr (.value (.value step.2.value))) (.value (.value first.value))

theorem leftChain_tokens (first : Atom) (steps : List (Written × Atom)) :
    reading.tokens (leftChain first steps) = chain first steps := by
  induction steps using List.reverseRecOn with
  | nil => rfl
  | append_singleton steps last ih =>
    rw [leftChain_snoc,Reading.tokens_node,ih]
    simp [chain,Reading.tokens,Text.lexemes,reading,lexemeToken]

theorem leftChain_build (first : Atom) (steps : List (Written × Atom)) :
    reading.build (leftChain first steps).tree = leftGrouped first steps := by
  induction steps using List.reverseRecOn with
  | nil => rfl
  | append_singleton steps last ih =>
    rw [leftChain_snoc]
    simp only [Text.tree,Reading.build,ih,leftGrouped,List.foldl_append]
    rfl

theorem parseSafe_chain {level : Nat} (first : Atom) {steps : List (Written × Atom)}
    (same : ∀ step ∈ steps, step.1.level = level) :
    parseSafe (chain first steps) = some (leftGrouped first steps, []) ↔ steps.length ≤ 1 := by
  have layered : (leftChain first steps).Layered Written.level := (leftChain_layered first same).1
  have tight : (leftChain first steps).top Written.level ≤ 5 := by
    cases leftChain first steps with
    | leaf atom => exact Nat.zero_le _
    | paren inner => exact Nat.zero_le _
    | node op left right => exact reading.rank_lt op
  have read := Reading.ladder_round_trip (leftChain first steps) layered reading.takes (Nat.le_refl _) tight
  rw [leftChain_tokens,leftChain_build] at read
  exact read.trans (leftChain_rightGrouped_iff first same)

theorem parseUnsafe_chain {level : Nat} (first : Atom) {steps : List (Written × Atom)}
    (same : ∀ step ∈ steps, step.1.level = level) (bare : level < 4) :
    parseUnsafe (chain first steps) = some (leftGrouped first steps, []) ↔ steps.length ≤ 1 := by
  have layered : (leftChain first steps).Layered Written.level := (leftChain_layered first same).1
  have tight : (leftChain first steps).top Written.level ≤ 4 := by
    have top := (leftChain_layered first same).2
    omega
  have read := Reading.ladder_round_trip (leftChain first steps) layered reading.takes.2.2.2 (Nat.le_succ 4) tight
  rw [leftChain_tokens,leftChain_build] at read
  exact read.trans (leftChain_rightGrouped_iff first same)

end Rsleigh.Syntax.Disassembly

namespace Rsleigh.Syntax

open Infix

-- Where the two parsers group as the language does: p-code expressions in which every left operand
-- that needs no parentheses is at a tighter level than its operator, and chains of at most one
-- operator in disassembly expressions.
theorem operators_group_iff (tree : Tree Atom InfixOp) {level : Nat} (first : Atom)
    {steps : List (Disassembly.Written × Atom)} (same : ∀ step ∈ steps, step.1.level = level) :
    (Expr.parse (Expr.printed tree) = some (Expr.reading.build tree, []) ↔
      Settled InfixOp.level InfixOp.precedence tree) ∧
    (Disassembly.parseSafe (Disassembly.chain first steps) = some (Disassembly.leftGrouped first steps, []) ↔
      steps.length ≤ 1) ∧
    (level < 4 →
      (Disassembly.parseUnsafe (Disassembly.chain first steps) = some (Disassembly.leftGrouped first steps, []) ↔
        steps.length ≤ 1)) := by
  refine ⟨Expr.printed_round_trip tree,Disassembly.parseSafe_chain first same,?_⟩
  intro bare
  exact Disassembly.parseUnsafe_chain first same bare

def minus : InfixOp :=
  ⟨.sub,by decide⟩

-- `a - b - c`, the operators applied from left to right.
def twoSubtractions : Tree Atom InfixOp :=
  .node minus (.node minus (.leaf (.ident "a")) (.leaf (.ident "b"))) (.leaf (.ident "c"))

-- `a - b`: one operator, in either parser.
theorem operators_group_iff_one :
    Expr.parse (Expr.printed (.node minus (.leaf (.ident "a")) (.leaf (.ident "b")))) =
      some (Expr.reading.build (.node minus (.leaf (.ident "a")) (.leaf (.ident "b"))), []) ∧
    Disassembly.parseUnsafe (Disassembly.chain (.ident "a") [(.sub, .ident "b")]) =
      some (Disassembly.leftGrouped (.ident "a") [(.sub, .ident "b")], []) := by
  have oneStep : ∀ step ∈ [(Disassembly.Written.sub, Atom.ident "b")], step.1.level = 2 := by
    intro step member
    simp only [List.mem_singleton] at member
    rw [member]
    rfl
  obtain ⟨ofTree,_,ofChain⟩ := operators_group_iff (.node minus (.leaf (.ident "a")) (.leaf (.ident "b")))
    (.ident "a") oneStep
  exact ⟨ofTree.mpr ⟨fun _ => Nat.zero_le _,trivial,trivial⟩,(ofChain (by decide)).mpr (by decide)⟩

-- The text `a - b - c` is read as `a - (b - c)`.
theorem subtractions_group_right :
    Expr.printed twoSubtractions = [.ident "a", .opSub, .ident "b", .opSub, .ident "c"] ∧
    Expr.parse (Expr.printed twoSubtractions) =
      some (.op .sub (.value (.value (.ident "a")))
        (.op .sub (.value (.value (.ident "b"))) (.value (.value (.ident "c")))), []) ∧
    Expr.parse (Expr.printed twoSubtractions) ≠ some (Expr.reading.build twoSubtractions, []) := by
  refine ⟨rfl,rfl,?_⟩
  intro same
  have read : Expr.parse (Expr.printed twoSubtractions) =
      some (.op .sub (.value (.value (.ident "a")))
        (.op .sub (.value (.value (.ident "b"))) (.value (.value (.ident "c")))), []) := rfl
  rw [read] at same
  simp [twoSubtractions,Reading.build,Expr.reading,Expr.grammar] at same

end Rsleigh.Syntax
