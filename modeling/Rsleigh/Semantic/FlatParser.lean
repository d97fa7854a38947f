import Rsleigh.Semantic.FlatPattern

namespace Rsleigh.Semantic.Variants

open Decode

-- A solved block, with what its generated code uses: the lengths of its own tokens and the token fields it produces.
structure BlockCode where
  len : PatternLen
  tokens : List Nat
  tokenFields : List Nat

def BlockCode.own (code : BlockCode) : Nat :=
  code.tokens.foldl max 0

-- Disassembly actions are put in the blocks of the constructor itself.
structure RootBlock where
  block : Block BlockCode
  pre : List Assertation
  pos : List Assertation

structure RootPattern where
  len : PatternLen
  blocks : List RootBlock
  pos : List Assertation

def RootPattern.pattern (root : RootPattern) : Pattern BlockCode :=
  root.blocks.map RootBlock.block

-- The lengths alone, for the counting of variants.
mutual

def Verification.phase1 : Verification BlockCode → Verification BlockPhase1
  | .check check => .check check
  | .subPattern pattern => .subPattern (patternPhase1 pattern)

def allPhase1 : List (Verification BlockCode) → List (Verification BlockPhase1)
  | [] => []
  | verification :: rest => verification.phase1 :: allPhase1 rest

def Block.phase1 : Block BlockCode → Block BlockPhase1
  | .and code verifications => .and ⟨code.len⟩ (allPhase1 verifications)
  | .or code first rest => .or ⟨code.len⟩ first.phase1 (allPhase1 rest)

def patternPhase1 : Pattern BlockCode → Pattern BlockPhase1
  | [] => []
  | block :: rest => block.phase1 :: patternPhase1 rest

end

-- The local variables of the code for a block, and what the closure of a sub-pattern returns.
structure Built (χ τ : Type) where
  len : Nat
  context : χ
  tables : List (Nat × τ)
  fields : Nat → Option Nat

variable {χ τ : Type}

def Built.start (len : Nat) (context : χ) : Built χ τ where
  len := len
  context := context
  tables := []
  fields := fun _ => none

def Built.produce (built : Built χ τ) (fields : Nat → Option Nat) : Built χ τ :=
  { built with fields := fun id => (fields id).or (built.fields id) }

-- The tables and sub-patterns of a block all start at its tokens.
def Built.join (built sub : Built χ τ) : Built χ τ :=
  { (built.produce sub.fields) with
    len := max built.len sub.len
    context := sub.context
    tables := built.tables ++ sub.tables }

def Built.append (built later : Built χ τ) : Built χ τ where
  len := built.len + later.len
  context := later.context
  tables := built.tables ++ later.tables
  fields := fun id => (later.fields id).or (built.fields id)

def Check.verification : Check → Decode.Verification χ
  | .contextCheck id op value => .contextCheck id op value
  | .tokenFieldCheck id op value => .tokenFieldCheck id op value
  | .tableBuild table => .tableBuild table

-- The checks of an and block; sub-patterns have their own.
def directs : List (Verification φ) → List (Decode.Verification χ)
  | [] => []
  | .check check :: rest => check.verification :: directs rest
  | .subPattern _ :: rest => directs rest

-- codegen/builder/disassembler/constructor/pattern.rs.
section Parser

variable (sleigh : Sleigh χ) (parseTable : Nat → List UInt8 → χ → Except Failure (Nat × τ × χ)) (instStart : Nat)

-- `sub_pattern_closure`, `body_block_and`, `block_or_closure`. Sub-patterns are verified in full. A table directly in
-- an or block is not implemented.
mutual

def Verification.build (tokens : List UInt8) (built : Built χ τ) : Verification BlockCode → Except Failure (Built χ τ)
  | .check (.tableBuild table) => do
    let (len, parsed, context) ← parseTable table tokens built.context
    return built.join ⟨len, context, [(table, parsed)], fun _ => none⟩
  | .check (.contextCheck _ _ _) => .ok built
  | .check (.tokenFieldCheck _ _ _) => .ok built
  | .subPattern pattern => do
    let sub ← patternParse tokens built.context pattern
    return built.join sub

def buildAll (tokens : List UInt8) (built : Built χ τ) : List (Verification BlockCode) → Except Failure (Built χ τ)
  | [] => .ok built
  | verification :: rest => do
    let built ← verification.build tokens built
    buildAll tokens built rest

def Verification.branch (tokens : List UInt8) (context : χ) (code : BlockCode) :
    Verification BlockCode → Except Failure (Built χ τ)
  | .check (.contextCheck id op value) => do
    (Decode.Verification.contextCheck id op value).check sleigh instStart tokens context
    return .start 0 context
  | .check (.tokenFieldCheck id op value) => do
    (Decode.Verification.tokenFieldCheck id op value).check sleigh instStart tokens context
    let fields ← readFields sleigh tokens (code.tokenFields.filter (· = id))
    return (Built.start (sleigh.tokenField id).tokenLen context).produce fields
  | .check (.tableBuild _) => .error .panic
  | .subPattern pattern => do
    let sub ← patternParse tokens context pattern
    return { sub with fields := fun id => if id ∈ code.tokenFields then sub.fields id else none }

def branches (tokens : List UInt8) (context : χ) (code : BlockCode) :
    List (Verification BlockCode) → Except Failure (Built χ τ)
  | [] => .error .noMatch
  | branch :: rest =>
    match branch.branch tokens context code with
    | .error .noMatch => branches tokens context code rest
    | taken => taken

def Block.parse (tokens : List UInt8) (context : χ) : Block BlockCode → Except Failure (Built χ τ)
  | .and code verifications => do
    checks sleigh instStart false tokens context (directs verifications)
    let built ← buildAll tokens (.start code.len.least context) verifications
    let fields ← readFields sleigh tokens code.tokenFields
    return built.produce fields
  | .or code first rest =>
    match first.branch tokens context code with
    | .error .noMatch => branches tokens context code rest
    | taken => taken

def patternParse (tokens : List UInt8) (context : χ) : Pattern BlockCode → Except Failure (Built χ τ)
  | [] => .ok (.start 0 context)
  | block :: rest => do
    let built ← block.parse tokens context
    if tokens.length < built.len then .error .noMatch
    else do
      let later ← patternParse (tokens.drop built.len) built.context rest
      return built.append later

end

def absorb (matching : Matching χ (Nat × τ)) (built : Built χ τ) : Matching χ (Nat × τ) :=
  produce { matching with context := built.context } built.fields

def RootBlock.parse (partOfFlat : Bool) (matching : Matching χ (Nat × τ)) (root : RootBlock) :
    Except Failure (Matching χ (Nat × τ)) :=
  match root.block with
  | .and code verifications => do
    checks sleigh instStart partOfFlat matching.tokens matching.context (directs verifications)
    let matching ← disassembly sleigh instStart root.pre matching
    let built ← buildAll sleigh parseTable instStart matching.tokens (.start code.len.least matching.context) verifications
    let fields ← readFields sleigh matching.tokens code.tokenFields
    let matching ← disassembly sleigh instStart root.pos (absorb matching (built.produce fields))
    advance code.own built.len built.tables matching
  | .or code first rest => do
    let built ← branches sleigh parseTable instStart matching.tokens matching.context code (first :: rest)
    let matching ← disassembly sleigh instStart root.pos (absorb matching built)
    advance built.len built.len built.tables matching

def rootParse (partOfFlat : Bool) : List RootBlock → Matching χ (Nat × τ) → Except Failure (Matching χ (Nat × τ))
  | [], matching => .ok matching
  | root :: rest, matching => do
    let matching ← root.parse sleigh parseTable instStart partOfFlat matching
    rootParse (partOfFlat && root.block.phase.len.singleLen.isSome) rest matching

-- `root_pattern_function`.
def RootPattern.parse (debug : Bool) (root : RootPattern) (tokens : List UInt8) (context : χ) :
    Except Failure (Nat × ConstructorStruct (Nat × τ) × χ) := do
  let matching ← rootParse sleigh parseTable instStart (!debug) root.blocks (.start tokens context)
  let matching ← postMatch sleigh instStart root.pos matching
  return (matching.patternLen, {
    blocks := matching.blocks
    assFields := matching.fields
    contextFields := fun id => sleigh.readContext id matching.context
    disFields := matching.locals
    written := matching.written
  }, matching.context)

end Parser

-- codegen/builder/disassembler/table.rs: the entries of a table for one constructor, one for each variant. Without
-- debug mode an entry tests the masks of its variant first.
section Matcher

variable (layout : Layout) (debug : Bool)
variable (parseTable : Nat → List UInt8 → layout.Context → Except Failure (Nat × τ × layout.Context)) (instStart : Nat)

def ConstraintBits.entry (variant : ConstraintBits) (tokens : List UInt8) (context : layout.Context) :
    Except Failure Bool :=
  if debug then .ok true else variant.applies tokens context

def RootPattern.tryVariants (root : RootPattern) (tokens : List UInt8) (context : layout.Context) :
    List ConstraintBits → Except Failure (Nat × ConstructorStruct (Nat × τ) × layout.Context)
  | [] => .error .noMatch
  | variant :: rest => do
    if tokens.length < root.len.least then tryVariants root tokens context rest
    else
      let holds ← variant.entry layout debug tokens context
      if holds then
        match root.parse layout.sleigh parseTable instStart debug tokens context with
        | .error .noMatch => tryVariants root tokens context rest
        | result => result
      else tryVariants root tokens context rest

def RootPattern.variants (root : RootPattern) : Except Failure (List ConstraintBits) :=
  let pattern := calculateBits 0 (patternPhase1 root.pattern)
  variantsBits layout root.len.least pattern (List.range (variantsNum pattern))

-- The matcher of a constructor, once its variants are known.
def RootPattern.match_ (root : RootPattern) (tokens : List UInt8) (context : layout.Context) :
    Except Failure (Nat × ConstructorStruct (Nat × τ) × layout.Context) := do
  let variants ← root.variants layout
  root.tryVariants layout debug parseTable instStart tokens context variants

end Matcher

end Rsleigh.Semantic.Variants
