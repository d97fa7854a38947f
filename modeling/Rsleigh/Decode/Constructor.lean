import Rsleigh.Decode.Disassembly
import Mathlib.Logic.Function.Basic

namespace Rsleigh.Decode

-- semantic/pattern.rs.
inductive PatternLen where
  | defined (value : Nat)
  | range (min max : Nat)
  | min (min : Nat)
  deriving DecidableEq, Repr

namespace PatternLen

def new (least greatest : Nat) : PatternLen :=
  if least = greatest then .defined least else .range least greatest

-- The bounds of a length; without a maximum the pattern may repeat itself without end.
def least : PatternLen → Nat
  | .defined value => value
  | .range least _ => least
  | .min least => least

def greatest : PatternLen → Option Nat
  | .defined value => some value
  | .range _ greatest => some greatest
  | .min _ => none

def singleLen : PatternLen → Option Nat
  | .defined value => some value
  | .range _ _ | .min _ => none

def combine (f : Nat → Nat → Nat) (x y : PatternLen) : PatternLen :=
  match x.greatest, y.greatest with
  | some xMax, some yMax => .new (f x.least y.least) (f xMax yMax)
  | _, _ => .min (f x.least y.least)

def concat (x y : PatternLen) : PatternLen :=
  combine (· + ·) x y

def greater (x y : PatternLen) : PatternLen :=
  combine Nat.max x y

-- A length within the bounds.
def Within (length : PatternLen) (len : Nat) : Prop :=
  length.least ≤ len ∧ ∀ most, length.greatest = some most → len ≤ most

@[simp]
theorem new_least (least greatest : Nat) : (new least greatest).least = least := by
  unfold new
  split <;> rfl

@[simp]
theorem new_greatest (least greatest : Nat) : (new least greatest).greatest = some greatest := by
  unfold new
  split
  · rename_i same
    rw [same]
    rfl
  · rfl

@[simp]
theorem combine_least (f : Nat → Nat → Nat) (x y : PatternLen) :
    (combine f x y).least = f x.least y.least := by
  unfold combine
  split
  · exact new_least _ _
  · rfl

theorem combine_greatest {f : Nat → Nat → Nat} {x y : PatternLen} {most : Nat}
    (bounded : (combine f x y).greatest = some most) :
    ∃ xMax yMax, x.greatest = some xMax ∧ y.greatest = some yMax ∧ most = f xMax yMax := by
  unfold combine at bounded
  split at bounded
  · rename_i xMax yMax xBound yBound
    rw [new_greatest] at bounded
    cases bounded
    exact ⟨xMax,yMax,xBound,yBound,rfl⟩
  · cases bounded

theorem single_within {length : PatternLen} {single len : Nat} (isSingle : length.singleLen = some single)
    (within : length.Within len) : len = single := by
  cases length with
  | defined value =>
    cases isSingle
    exact Nat.le_antisymm (within.2 _ rfl) within.1
  | range _ _ => cases isSingle
  | min _ => cases isSingle

theorem single_least {length : PatternLen} {single : Nat} (isSingle : length.singleLen = some single) :
    length.least = single := by
  cases length with
  | defined value =>
    cases isSingle
    rfl
  | range _ _ => cases isSingle
  | min _ => cases isSingle

end PatternLen

inductive CmpOp where
  | eq
  | ne
  | lt
  | gt
  | le
  | ge
  deriving DecidableEq

def CmpOp.holds (op : CmpOp) (x y : Word) : Bool :=
  match op with
  | .eq => x == y
  | .ne => x != y
  | .lt => x.slt y
  | .gt => y.slt x
  | .le => x.sle y
  | .ge => y.sle x

-- What a specification provides: the width of its addresses, its token fields, and the functions that read and write
-- the fields of its context memory `χ`. In debug mode no flat pattern is used.
structure Sleigh (χ : Type) where
  addrBits : Nat
  debug : Bool
  tokenField : Nat → TokenField
  readContext : Nat → χ → Word
  writeContext : Nat → Word → χ → χ

-- The closures of the parser for sub-patterns and or blocks: the length, the context and the raw
-- token fields that they return.
abbrev Closure (χ : Type) := List UInt8 → χ → Except Failure (Nat × χ × (Nat → Option Nat))

inductive Verification (χ : Type) where
  | contextCheck (context : Nat) (op : CmpOp) (value : Expr)
  | tokenFieldCheck (field : Nat) (op : CmpOp) (value : Expr)
  | tableBuild (table : Nat)
  | subPattern (closure : Closure χ)

-- `tokens` are the lengths of the tokens that the block counts as its own, `tokenFields` the fields it produces itself.
structure AndBlock (χ : Type) where
  len : PatternLen
  tokens : List Nat
  verifications : List (Verification χ)
  tokenFields : List Nat
  pre : List Assertation
  pos : List Assertation

structure OrBlock (χ : Type) where
  len : PatternLen
  branches : Closure χ
  pos : List Assertation

inductive Block (χ : Type) where
  | and (block : AndBlock χ)
  | or (block : OrBlock χ)

namespace Block

variable {χ : Type}

def len : Block χ → PatternLen
  | .and block => block.len
  | .or block => block.len

def pre : Block χ → List Assertation
  | .and block => block.pre
  | .or _ => []

def pos : Block χ → List Assertation
  | .and block => block.pos
  | .or block => block.pos

end Block

-- A constructor with its pattern; `pos` runs after the match.
structure Constructor (χ : Type) where
  len : PatternLen
  blocks : List (Block χ)
  pos : List Assertation

-- The local variables of a generated parser for a constructor. For the statements it also keeps, for each block that
-- was matched, the length of its own tokens with its parsed tables, and the context fields
-- that the constructor's own actions wrote.
structure Matching (χ τ : Type) where
  tokens : List UInt8
  context : χ
  patternLen : Nat
  locals : Nat → Word
  fields : Nat → Option Nat
  blocks : List (Nat × List τ)
  written : List (Nat × Word)

variable {χ τ : Type}

def Matching.start (tokens : List UInt8) (context : χ) : Matching χ τ where
  tokens := tokens
  context := context
  patternLen := 0
  locals := fun _ => 0
  fields := fun _ => none
  blocks := []
  written := []

-- The struct of a parsed constructor: its tables, raw token fields, context fields and disassembly variables.
structure ConstructorStruct (τ : Type) where
  blocks : List (Nat × List τ)
  assFields : Nat → Option Nat
  contextFields : Nat → Word
  disFields : Nat → Word
  written : List (Nat × Word)

def Matching.write (sleigh : Sleigh χ) (matching : Matching χ τ) (left : WriteScope) (value : Word) : Matching χ τ :=
  match left with
  | .context id =>
    { matching with
      context := sleigh.writeContext id value matching.context
      written := matching.written ++ [(id, value)] }
  | .var id => { matching with locals := Function.update matching.locals id value }

-- constructor/pattern.rs and constructor/disassembly.rs, for one constructor. `parseTable` is the
-- parser of the tables.
section Parser

variable (sleigh : Sleigh χ) (parseTable : Nat → List UInt8 → χ → Except Failure (Nat × τ × χ)) (instStart : Nat)

-- The value a field or context field is compared with. `inst_next` and locals do not occur here.
def checkRead (tokens : List UInt8) (context : χ) : ReadScope → Except Failure Word
  | .integer value => .ok (BitVec.ofInt 128 value)
  | .context id => .ok (sleigh.readContext id context)
  | .tokenField id => do
    let raw ← (sleigh.tokenField id).read tokens
    return (sleigh.tokenField id).disassemblyFunctionCall raw
  | .instStart => .ok (BitVec.ofNat 128 instStart)
  | .instNext | .var _ => .error .panic

def verification (op : CmpOp) (x y : Word) : Except Failure Unit :=
  if op.holds x y then .ok () else .error .noMatch

-- Tables and sub-patterns are done after the checks.
def Verification.check (tokens : List UInt8) (context : χ) : Verification χ → Except Failure Unit
  | .contextCheck id op value => do
    let y ← value.eval (checkRead sleigh instStart tokens context)
    verification op (sleigh.readContext id context) y
  | .tokenFieldCheck id op value => do
    let raw ← (sleigh.tokenField id).read tokens
    let y ← value.eval (checkRead sleigh instStart tokens context)
    verification op (BitVec.ofNat 128 raw) y
  | .tableBuild _ | .subPattern _ => .ok ()

-- An equality with a literal is left to the flat pattern of the table.
def Verification.inFlat : Verification χ → Bool
  | .contextCheck _ .eq (.value (.integer _)) => true
  | .tokenFieldCheck _ .eq (.value (.integer _)) => true
  | _ => false

def checks (partOfFlat : Bool) (tokens : List UInt8) (context : χ) : List (Verification χ) → Except Failure Unit
  | [] => .ok ()
  | verification :: rest =>
    if partOfFlat && verification.inFlat then checks partOfFlat tokens context rest
    else do
      verification.check sleigh instStart tokens context
      checks partOfFlat tokens context rest

-- Actions read token fields at the current tokens.
def patternRead (matching : Matching χ τ) : ReadScope → Except Failure Word
  | .integer value => .ok (BitVec.ofInt 128 value)
  | .context id => .ok (sleigh.readContext id matching.context)
  | .tokenField id => do
    let raw ← (sleigh.tokenField id).read matching.tokens
    return (sleigh.tokenField id).patternValue raw
  | .instStart => .ok (BitVec.ofNat 128 instStart)
  | .instNext => .error .panic
  | .var id => .ok (matching.locals id)

def disassembly : List Assertation → Matching χ τ → Except Failure (Matching χ τ)
  | [], matching => .ok matching
  | .globalSet _ _ :: rest, matching => disassembly rest matching
  | .assignment left right :: rest, matching =>
    if right.usesInstNext then .ok matching
    else do
      let value ← right.eval (patternRead sleigh instStart matching)
      disassembly rest (matching.write sleigh left value)

def produce (matching : Matching χ τ) (fields : Nat → Option Nat) : Matching χ τ :=
  { matching with fields := fun id => (fields id).or (matching.fields id) }

-- The tables and sub-patterns of a block all start at its tokens.
def build (blockLen : Nat) (tables : List τ) (matching : Matching χ τ) :
    List (Verification χ) → Except Failure (Nat × List τ × Matching χ τ)
  | [] => .ok (blockLen, tables, matching)
  | .contextCheck _ _ _ :: rest | .tokenFieldCheck _ _ _ :: rest => build blockLen tables matching rest
  | .tableBuild table :: rest => do
    let (len, parsed, context) ← parseTable table matching.tokens matching.context
    build (max blockLen len) (tables ++ [parsed]) { matching with context := context } rest
  | .subPattern closure :: rest => do
    let (len, context, fields) ← closure matching.tokens matching.context
    build (max blockLen len) tables (produce { matching with context := context } fields) rest

def readFields (tokens : List UInt8) : List Nat → Except Failure (Nat → Option Nat)
  | [] => .ok fun _ => none
  | id :: rest => do
    let raw ← (sleigh.tokenField id).read tokens
    let others ← readFields tokens rest
    return Function.update others id (some raw)

-- `tokens.get(block_len..)?`
def advance (own blockLen : Nat) (tables : List τ) (matching : Matching χ τ) : Except Failure (Matching χ τ) :=
  if matching.tokens.length < blockLen then .error .noMatch
  else .ok {
    matching with
    tokens := matching.tokens.drop blockLen
    patternLen := matching.patternLen + blockLen
    blocks := matching.blocks ++ [(own, tables)]
  }

def AndBlock.own (block : AndBlock χ) : Nat :=
  block.tokens.foldl max 0

def AndBlock.parse (partOfFlat : Bool) (block : AndBlock χ) (matching : Matching χ τ) :
    Except Failure (Matching χ τ) := do
  checks sleigh instStart partOfFlat matching.tokens matching.context block.verifications
  let matching ← disassembly sleigh instStart block.pre matching
  let (blockLen, tables, matching) ← build parseTable block.len.least [] matching block.verifications
  let fields ← readFields sleigh matching.tokens block.tokenFields
  let matching ← disassembly sleigh instStart block.pos (produce matching fields)
  advance block.own blockLen tables matching

def OrBlock.parse (block : OrBlock χ) (matching : Matching χ τ) : Except Failure (Matching χ τ) := do
  let (blockLen, context, fields) ← block.branches matching.tokens matching.context
  let matching ← disassembly sleigh instStart block.pos (produce { matching with context := context } fields)
  advance blockLen blockLen [] matching

def Block.parse (partOfFlat : Bool) (matching : Matching χ τ) : Block χ → Except Failure (Matching χ τ)
  | .and block => block.parse sleigh parseTable instStart partOfFlat matching
  | .or block => block.parse sleigh instStart matching

-- The blocks up to the first one without a single length are part of the flat pattern.
def parseBlocks (partOfFlat : Bool) : List (Block χ) → Matching χ τ → Except Failure (Matching χ τ)
  | [], matching => .ok matching
  | block :: rest, matching => do
    let matching ← block.parse sleigh parseTable instStart partOfFlat matching
    parseBlocks (partOfFlat && block.len.singleLen.isSome) rest matching

-- The actions that run after the match, with the end of this constructor's own pattern for `inst_next`: token fields
-- are the raw ones, and context fields are not written.
def postRead (matching : Matching χ τ) : ReadScope → Except Failure Word
  | .integer value => .ok (BitVec.ofInt 128 value)
  | .context id => .ok (sleigh.readContext id matching.context)
  | .tokenField id =>
    match matching.fields id with
    | some raw => .ok (BitVec.ofNat 128 raw)
    | none => .error .panic
  | .instStart => .ok (BitVec.ofNat 128 instStart)
  | .instNext => .ok (BitVec.ofNat 128 ((instStart + matching.patternLen) % 2 ^ sleigh.addrBits))
  | .var id => .ok (matching.locals id)

def postMatch : List Assertation → Matching χ τ → Except Failure (Matching χ τ)
  | [], matching => .ok matching
  | .globalSet _ _ :: rest, matching => postMatch rest matching
  | .assignment left right :: rest, matching =>
    match left with
    | .context _ => postMatch rest matching
    | .var id => do
      let value ← right.eval (postRead sleigh instStart matching)
      postMatch rest { matching with locals := Function.update matching.locals id value }

def Constructor.parse (constructor : Constructor χ) (tokens : List UInt8) (context : χ) :
    Except Failure (Nat × ConstructorStruct τ × χ) := do
  let matching ← parseBlocks sleigh parseTable instStart (!sleigh.debug) constructor.blocks (.start tokens context)
  let matching ← postMatch sleigh instStart constructor.pos matching
  return (matching.patternLen, {
    blocks := matching.blocks
    assFields := matching.fields
    contextFields := fun id => sleigh.readContext id matching.context
    disFields := matching.locals
    written := matching.written
  }, matching.context)

end Parser

open Fallible

variable {sleigh : Sleigh χ} {parseTable : Nat → List UInt8 → χ → Except Failure (Nat × τ × χ)} {instStart : Nat}

-- Actions change the context, the locals and the record of what is written.
structure Frame (matching matching' : Matching χ τ) : Prop where
  tokens : matching'.tokens = matching.tokens
  patternLen : matching'.patternLen = matching.patternLen
  fields : matching'.fields = matching.fields
  blocks : matching'.blocks = matching.blocks

theorem frame_refl (matching : Matching χ τ) : Frame matching matching :=
  ⟨rfl,rfl,rfl,rfl⟩

theorem frame_trans {first second third : Matching χ τ} (frame : Frame first second) (later : Frame second third) :
    Frame first third :=
  ⟨later.tokens.trans frame.tokens,later.patternLen.trans frame.patternLen,later.fields.trans frame.fields,
    later.blocks.trans frame.blocks⟩

theorem write_frame (matching : Matching χ τ) (left : WriteScope) (value : Word) :
    Frame matching (matching.write sleigh left value) := by
  cases left <;> exact ⟨rfl,rfl,rfl,rfl⟩

theorem disassembly_frame {actions : List Assertation} :
    ∀ {matching matching' : Matching χ τ}, disassembly sleigh instStart actions matching = .ok matching' →
      Frame matching matching' := by
  induction actions with
  | nil =>
    intro matching matching' run
    cases run
    exact frame_refl _
  | cons action rest ih =>
    intro matching matching' run
    cases action with
    | globalSet address context => exact ih run
    | assignment left right =>
      simp only [disassembly] at run
      split at run
      · cases run
        exact frame_refl _
      · obtain ⟨value,_,run⟩ := bind_ok.mp run
        exact frame_trans (write_frame matching left value) (ih run)

theorem readFields_ok {tokens : List UInt8} {ids : List Nat} :
    ∀ {fields : Nat → Option Nat}, readFields sleigh tokens ids = .ok fields →
      (∀ id ∈ ids, ∃ raw, (sleigh.tokenField id).read tokens = .ok raw ∧ fields id = some raw) ∧
        ∀ id, id ∉ ids → fields id = none := by
  induction ids with
  | nil =>
    intro fields run
    cases run
    exact ⟨fun _ member => absurd member List.not_mem_nil,fun _ _ => rfl⟩
  | cons first rest ih =>
    intro fields run
    obtain ⟨raw,read,run⟩ := bind_ok.mp run
    obtain ⟨others,readOthers,run⟩ := bind_ok.mp run
    cases run
    obtain ⟨produced,missing⟩ := ih readOthers
    refine ⟨?_,?_⟩
    · intro id member
      by_cases same : id = first
      · subst same
        exact ⟨raw,read,Function.update_self _ _ _⟩
      · rcases List.mem_cons.mp member with isFirst | member
        · exact absurd isFirst same
        · obtain ⟨other,readOther,isOther⟩ := produced id member
          refine ⟨other,readOther,?_⟩
          rw [Function.update_of_ne same]
          exact isOther
    · intro id notMember
      have notFirst : id ≠ first := fun same => notMember (List.mem_cons.mpr (Or.inl same))
      rw [Function.update_of_ne notFirst]
      exact missing id fun member => notMember (List.mem_cons_of_mem _ member)

theorem advance_ok {own blockLen : Nat} {tables : List τ} {matching matching' : Matching χ τ}
    (run : advance own blockLen tables matching = .ok matching') :
    blockLen ≤ matching.tokens.length ∧
      matching' = { matching with
        tokens := matching.tokens.drop blockLen
        patternLen := matching.patternLen + blockLen
        blocks := matching.blocks ++ [(own, tables)] } := by
  unfold advance at run
  split at run
  · cases run
  · rename_i enough
    cases run
    exact ⟨Nat.le_of_not_lt enough,rfl⟩

theorem and_parts {block : AndBlock χ} {partOfFlat : Bool} {matching matching' : Matching χ τ}
    (run : block.parse sleigh parseTable instStart partOfFlat matching = .ok matching') :
    ∃ started built fields finished blockLen tables,
      disassembly sleigh instStart block.pre matching = .ok started ∧
      build parseTable block.len.least [] started block.verifications = .ok (blockLen, tables, built) ∧
      readFields sleigh built.tokens block.tokenFields = .ok fields ∧
      disassembly sleigh instStart block.pos (produce built fields) = .ok finished ∧
      advance block.own blockLen tables finished = .ok matching' := by
  obtain ⟨_,_,run⟩ := bind_ok.mp run
  obtain ⟨started,ranPre,run⟩ := bind_ok.mp run
  obtain ⟨⟨blockLen,tables,built⟩,ranBuild,run⟩ := bind_ok.mp run
  obtain ⟨fields,ranFields,run⟩ := bind_ok.mp run
  obtain ⟨finished,ranPos,run⟩ := bind_ok.mp run
  exact ⟨started,built,fields,finished,blockLen,tables,ranPre,ranBuild,ranFields,ranPos,run⟩

end Rsleigh.Decode
