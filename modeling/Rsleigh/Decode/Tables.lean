import Rsleigh.Decode.Constructor
import Rsleigh.Decode.History

namespace Rsleigh.Decode

open Fallible

variable {χ τ : Type}

-- The parsed tables of a constructor, with the length of the tokens of each of its blocks.
inductive Parsed where
  | node (blocks : List (Nat × List Parsed))

mutual

-- The length of a match: the sum of its blocks, each as long as its tokens and its longest table.
def Parsed.len : Parsed → Nat
  | .node blocks => blocksLen blocks

def blocksLen : List (Nat × List Parsed) → Nat
  | [] => 0
  | block :: rest => blockLen block + blocksLen rest

def blockLen : Nat × List Parsed → Nat
  | (own, tables) => max own (tablesLen tables)

def tablesLen : List Parsed → Nat
  | [] => 0
  | table :: rest => max table.len (tablesLen rest)

end

-- One entry of a table's parser: a constructor with the flat pattern of one of its variants, a mask and
-- a value for each byte.
structure Matcher (χ : Type) where
  constructor : Constructor χ
  context : χ → Bool
  token : List (Nat × Nat)

-- `tokens_param[i] & mask == value` for the bytes that have constraints.
def tokenConstraint (tokens : List UInt8) : Nat → List (Nat × Nat) → Except Failure Bool
  | _, [] => .ok true
  | i, (mask, value) :: rest =>
    if mask = 0 then tokenConstraint tokens (i + 1) rest
    else
      match tokens[i]? with
      | none => .error .panic
      | some byte => if byte.toNat &&& mask = value then tokenConstraint tokens (i + 1) rest else .ok false

def Matcher.applies (sleigh : Sleigh χ) (matcher : Matcher χ) (tokens : List UInt8) (context : χ) :
    Except Failure Bool :=
  if tokens.length < matcher.constructor.len.least then .ok false
  else if sleigh.debug then .ok true
  else if matcher.context context then tokenConstraint tokens 0 matcher.token
  else .ok false

-- semantic/inner/pattern: the lengths that the solver finds, from the lengths of the tables.
section Solver

variable (sleigh : Sleigh χ) (tableLen : Nat → PatternLen)

def Verification.patternLen : Verification χ → PatternLen
  | .contextCheck _ _ _ => .defined 0
  | .tokenFieldCheck field _ _ => .defined (sleigh.tokenField field).tokenLen
  | .tableBuild table => tableLen table
  | .subPattern _ => .defined 0

def AndBlock.solve (block : AndBlock χ) : PatternLen :=
  (block.verifications.map fun verification => verification.patternLen sleigh tableLen).foldl
    PatternLen.greater (.defined block.own)

def calculateLen (blocks : List (Block χ)) : PatternLen :=
  (blocks.map Block.len).foldl PatternLen.concat (.defined 0)

-- A constructor that calls its own table has no length of its own yet: it is left out of the
-- minimum, and there is no maximum.
def greatestLen : List (Option PatternLen) → Option Nat
  | [] => some 0
  | none :: _ => none
  | some len :: rest => do
    let greatest ← len.greatest
    let others ← greatestLen rest
    return max greatest others

def solvePatternLen (lens : List (Option PatternLen)) : Option PatternLen :=
  match (lens.filterMap fun len => len.map PatternLen.least).min?, greatestLen lens with
  | none, _ => none
  | some least, none => some (.min least)
  | some least, some greatest => some (.new least greatest)

end Solver

def tableIds : List (Verification χ) → List Nat
  | [] => []
  | .tableBuild table :: rest => table :: tableIds rest
  | .contextCheck _ _ _ :: rest | .tokenFieldCheck _ _ _ :: rest | .subPattern _ :: rest => tableIds rest

def Constructor.calls (constructor : Constructor χ) (table : Nat) : Bool :=
  constructor.blocks.any fun block =>
    match block with
    | .and block => table ∈ tableIds block.verifications
    | .or _ => false

-- A specification whose patterns are sequences of token and table blocks, as it comes out of the
-- solver. A table calls itself or tables of a lower rank: other recursion is refused.
structure Specification (χ : Type) extends Sleigh χ where
  constructors : Nat → List (Constructor χ)
  matcherOrder : Nat → List (Matcher χ)
  tableLen : Nat → PatternLen
  root : Nat
  rank : Nat → Nat
  sequences : ∀ table, ∀ constructor ∈ constructors table, ∀ block ∈ constructor.blocks,
    ∃ own, block = .and own ∧ ∀ closure, .subPattern closure ∉ own.verifications
  checked : ∀ table, ∀ constructor ∈ constructors table, ∀ block, .and block ∈ constructor.blocks →
    ∀ id op value, (.contextCheck id op value ∈ block.verifications ∨ .tokenFieldCheck id op value ∈ block.verifications) →
      ∀ scope ∈ value.reads, scope ≠ .instNext ∧ ∀ local_, scope ≠ .var local_
  produced : ∀ table, ∀ constructor ∈ constructors table, ∀ left right, .assignment left right ∈ constructor.pos →
    ∀ id, .tokenField id ∈ right.reads → ∃ block, .and block ∈ constructor.blocks ∧ id ∈ block.tokenFields
  ordered : ∀ table, ∀ constructor ∈ constructors table, ∀ called, constructor.calls called →
    called = table ∨ rank called < rank table
  matchers : ∀ table, ∀ matcher ∈ matcherOrder table,
    matcher.constructor ∈ constructors table ∧ matcher.token.length ≤ matcher.constructor.len.least
  blockLens : ∀ table, ∀ constructor ∈ constructors table, ∀ block, .and block ∈ constructor.blocks →
    block.len = block.solve toSleigh tableLen
  constructorLens : ∀ table, ∀ constructor ∈ constructors table, constructor.len = calculateLen constructor.blocks
  tableLens : ∀ table, solvePatternLen ((constructors table).map fun constructor =>
    if constructor.calls table then none else some constructor.len) = some (tableLen table)

namespace Specification

variable (specification : Specification χ) (instStart : Nat)

-- The entries of a table are tried in order, each with the context the table was called in.
def parseMatchers (parseTable : Nat → List UInt8 → χ → Except Failure (Nat × Parsed × χ)) (tokens : List UInt8)
    (context : χ) : List (Matcher χ) → Except Failure (Nat × Parsed × χ)
  | [] => .error .noMatch
  | matcher :: rest => do
    if ← matcher.applies specification.toSleigh tokens context then
      match matcher.constructor.parse specification.toSleigh parseTable instStart tokens context with
      | .ok (instLen, struct, after) => .ok (instLen, .node struct.blocks, after)
      | .error .noMatch => parseMatchers parseTable tokens context rest
      | .error failure => .error failure
    else parseMatchers parseTable tokens context rest

def parseTable : Nat → Nat → List UInt8 → χ → Except Failure (Nat × Parsed × χ)
  | 0, _, _, _ => .error .outOfFuel
  | fuel + 1, table, tokens, context =>
    specification.parseMatchers instStart (parseTable fuel) tokens context (specification.matcherOrder table)

-- rsleigh-api/src/lib.rs: the length of the instruction and its parsed tables.
def decodeFrom (fuel : Nat) (context : χ) (bytes : List UInt8) (addr : Nat) : Except Failure (Nat × Parsed) := do
  let addr := addr % 2 ^ specification.addrBits
  let (instLen, instruction, _) ← specification.parseTable addr fuel specification.root bytes context
  let instNext := (addr + instLen) % 2 ^ specification.addrBits
  return ((instNext + 2 ^ specification.addrBits - addr) % 2 ^ specification.addrBits, instruction)

def decode (fuel : Nat) (context : χ) (bytes : List UInt8) (addr : Nat) : Except Failure (Nat × Parsed) :=
  if bytes.length < decodeWindow then do
    let (len, instruction) ← specification.decodeFrom fuel context (padded bytes) addr
    if bytes.length < len then .error .noMatch else .ok (len, instruction)
  else specification.decodeFrom fuel context bytes addr

end Specification

-- More fuel finds the same.
section Fuel

variable {sleigh : Sleigh χ} {specification : Specification χ} {instStart : Nat}
variable {parse parse' : Nat → List UInt8 → χ → Except Failure (Nat × τ × χ)}

theorem build_extends (extended : ∀ table tokens context,
      Extends .outOfFuel (parse table tokens context) (parse' table tokens context))
    {verifications : List (Verification χ)} :
    ∀ (blockLen : Nat) (tables : List τ) (matching : Matching χ τ),
      Extends .outOfFuel (build parse blockLen tables matching verifications)
        (build parse' blockLen tables matching verifications) := by
  induction verifications with
  | nil => exact fun _ _ _ => extends_refl _ _
  | cons verification rest ih =>
    intro blockLen tables matching
    cases verification with
    | contextCheck id op value => exact ih _ _ _
    | tokenFieldCheck id op value => exact ih _ _ _
    | tableBuild table => exact extends_bind (extended _ _ _) fun _ => ih _ _ _
    | subPattern closure => exact extends_bind (extends_refl _ _) fun _ => ih _ _ _

theorem parseBlocks_extends (extended : ∀ table tokens context,
      Extends .outOfFuel (parse table tokens context) (parse' table tokens context))
    {blocks : List (Block χ)} :
    ∀ (partOfFlat : Bool) (matching : Matching χ τ),
      Extends .outOfFuel (parseBlocks sleigh parse instStart partOfFlat blocks matching)
        (parseBlocks sleigh parse' instStart partOfFlat blocks matching) := by
  induction blocks with
  | nil => exact fun _ _ => extends_refl _ _
  | cons block rest ih =>
    intro partOfFlat matching
    apply extends_bind
    · cases block with
      | or block => exact extends_refl _ _
      | and block =>
        apply extends_bind (extends_refl _ _)
        intro _
        apply extends_bind (extends_refl _ _)
        intro started
        apply extends_bind (build_extends extended _ _ _)
        exact fun _ => extends_refl _ _
    · exact fun middle => ih _ middle

theorem constructor_extends (extended : ∀ table tokens context,
      Extends .outOfFuel (parse table tokens context) (parse' table tokens context))
    (constructor : Constructor χ) (tokens : List UInt8) (context : χ) :
    Extends .outOfFuel (constructor.parse sleigh parse instStart tokens context)
      (constructor.parse sleigh parse' instStart tokens context) :=
  extends_bind (parseBlocks_extends extended _ _) fun _ => extends_refl _ _

namespace Specification

theorem parseMatchers_extends {parse parse' : Nat → List UInt8 → χ → Except Failure (Nat × Parsed × χ)}
    (extended : ∀ table tokens context,
      Extends .outOfFuel (parse table tokens context) (parse' table tokens context))
    (tokens : List UInt8) (context : χ) (matchers : List (Matcher χ)) :
    Extends .outOfFuel (specification.parseMatchers instStart parse tokens context matchers)
      (specification.parseMatchers instStart parse' tokens context matchers) := by
  induction matchers with
  | nil => exact extends_refl _ _
  | cons matcher rest ih =>
    apply extends_bind (extends_refl _ _)
    intro applies
    cases applies with
    | false => exact ih
    | true =>
      have found := @constructor_extends _ _ specification.toSleigh instStart _ _ extended matcher.constructor tokens context
      rcases found with isLost | same
      · simp only [if_true,isLost]
        exact Or.inl rfl
      · simp only [if_true,same]
        split
        · exact extends_refl _ _
        · exact ih
        · exact extends_refl _ _

theorem parseTable_extends {fuel : Nat} :
    ∀ {more table : Nat} {tokens : List UInt8} {context : χ}, fuel ≤ more →
      Extends .outOfFuel (specification.parseTable instStart fuel table tokens context)
        (specification.parseTable instStart more table tokens context) := by
  induction fuel with
  | zero => exact fun _ => Or.inl rfl
  | succ fuel ih =>
    intro more table tokens context enough
    cases more with
    | zero => exact absurd enough (Nat.not_succ_le_zero _)
    | succ more =>
      apply parseMatchers_extends
      exact fun _ _ _ => ih (Nat.le_of_succ_le_succ enough)

theorem decode_extends {fuel more : Nat} (enough : fuel ≤ more) (context : χ) (bytes : List UInt8) (addr : Nat) :
    Extends .outOfFuel (specification.decode fuel context bytes addr) (specification.decode more context bytes addr) := by
  have decoded : ∀ tokens, Extends .outOfFuel (specification.decodeFrom fuel context tokens addr)
      (specification.decodeFrom more context tokens addr) :=
    fun tokens => extends_bind (parseTable_extends enough) fun _ => extends_refl _ _
  unfold decode
  split
  · exact extends_bind (decoded _) fun _ => extends_refl _ _
  · exact decoded _

end Specification

end Fuel

end Rsleigh.Decode
