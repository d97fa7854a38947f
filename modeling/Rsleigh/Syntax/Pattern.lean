import Mathlib.Data.List.Basic

namespace Rsleigh.Syntax.Pattern

-- syntax/block/pattern.rs. Spans and ellipses are left out: an ellipsis is a `todo!` in an or block
-- and on the left of a field, and changes nothing on its right.
inductive Op where
  | and
  | or
  deriving DecidableEq, Repr

-- A field with its constraint: a token field compared with a value, or a context field, which reads
-- no token. A comparison that holds has read the whole token.
structure Check (χ : Type) where
  width : Nat
  holds : List UInt8 → χ → Bool
  reads : ∀ tokens context, holds tokens context = true → width ≤ tokens.length

mutual

inductive Field (χ : Type) where
  | field (check : Check χ)
  | subPattern (pattern : List (Block χ))

-- `first` and then `elements`: the operator stands before the element it connects.
inductive Block (χ : Type) where
  | single (first : Field χ)
  | link (first : Field χ) (op : Op) (rest : Block χ)

end

variable {χ : Type}

namespace Block

def fields : Block χ → List (Field χ)
  | single first => [first]
  | link first _ rest => first :: rest.fields

def ops : Block χ → List Op
  | single _ => []
  | link _ op rest => op :: rest.ops

-- The first operator stands for the block.
def op : Block χ → Op
  | single _ => .and
  | link _ op _ => op

-- `elements.push`.
def push : Block χ → Op → Field χ → Block χ
  | single first, op, field => link first op (single field)
  | link first between rest, op, field => link first between (rest.push op field)

-- The elements of another block behind those of this one.
def extend : Block χ → Op → Block χ → Block χ
  | single first, op, other => link first op other
  | link first between rest, op, other => link first between (rest.extend op other)

end Block

-- What a pattern means: how many bytes it takes from the front of the tokens, if it matches there.
-- `&` binds tighter than `|`. The elements of an and all match at the same position, and the longest
-- counts; an or takes the first alternative that matches; a block starts where the one before it ends.
def longer (one two : Option Nat) : Option Nat :=
  one.bind fun first => two.map (max first)

mutual

def Field.reads : Field χ → List UInt8 → χ → Option Nat
  | .field check, tokens, context => if check.holds tokens context then some check.width else none
  | .subPattern pattern, tokens, context => patternReads pattern tokens context

-- The elements up to the first `|`.
def Block.firstReads : Block χ → List UInt8 → χ → Option Nat
  | .single first, tokens, context => first.reads tokens context
  | .link first .and rest, tokens, context => longer (first.reads tokens context) (rest.firstReads tokens context)
  | .link first .or _, tokens, context => first.reads tokens context

-- The alternatives behind the first `|`.
def Block.othersRead : Block χ → List UInt8 → χ → Option Nat
  | .single _, _, _ => none
  | .link _ .and rest, tokens, context => rest.othersRead tokens context
  | .link _ .or rest, tokens, context => (rest.firstReads tokens context).or (rest.othersRead tokens context)

def patternReads : List (Block χ) → List UInt8 → χ → Option Nat
  | [], _, _ => some 0
  | block :: rest, tokens, context =>
    ((block.firstReads tokens context).or (block.othersRead tokens context)).bind fun len =>
      (patternReads rest (tokens.drop len) context).map (len + ·)

end

def Block.reads (block : Block χ) (tokens : List UInt8) (context : χ) : Option Nat :=
  (block.firstReads tokens context).or (block.othersRead tokens context)

theorem patternReads_cons (block : Block χ) (rest : List (Block χ)) (tokens : List UInt8) (context : χ) :
    patternReads (block :: rest) tokens context =
      (block.reads tokens context).bind fun len => (patternReads rest (tokens.drop len) context).map (len + ·) := by
  rw [patternReads]
  rfl

theorem longer_some {one two : Option Nat} :
    longer one two = some len ↔ ∃ first second, one = some first ∧ two = some second ∧ max first second = len := by
  cases one with
  | none => simp [longer]
  | some first =>
    cases two with
    | none => simp [longer]
    | some second => simp [longer]

-- No block mixes `&` and `|`, inside parentheses included.
mutual

def Field.Unmixed : Field χ → Prop
  | .field _ => True
  | .subPattern pattern => patternUnmixed pattern

-- The operators behind an element agree with the operator before them.
def Block.Unmixed : Op → Block χ → Prop
  | _, .single first => first.Unmixed
  | expected, .link first op rest => op = expected ∧ first.Unmixed ∧ rest.Unmixed expected

def patternUnmixed : List (Block χ) → Prop
  | [] => True
  | block :: rest => block.Unmixed block.op ∧ patternUnmixed rest

end

theorem extend_unmixed {one two : Block χ} (ofOne : one.Unmixed op) (ofTwo : two.Unmixed op) :
    (one.extend op two).Unmixed op := by
  match one with
  | .single first => exact ⟨rfl,ofOne,ofTwo⟩
  | .link first between rest => exact ⟨ofOne.1,ofOne.2.1,extend_unmixed ofOne.2.2 ofTwo⟩

theorem push_eq_extend (block : Block χ) (op : Op) (field : Field χ) :
    block.push op field = block.extend op (.single field) := by
  match block with
  | .single first => rfl
  | .link first between rest => simp only [Block.push,Block.extend,push_eq_extend rest op field]

theorem reads_and {block : Block χ} (ands : block.Unmixed .and) (tokens : List UInt8) (context : χ) :
    block.reads tokens context = block.firstReads tokens context ∧ block.othersRead tokens context = none := by
  match block with
  | .single first => simp [Block.reads,Block.othersRead]
  | .link first op rest =>
    obtain ⟨rfl,_,restAnds⟩ := ands
    have none := (reads_and restAnds tokens context).2
    simp [Block.reads,Block.othersRead,none]

theorem extend_firstReads {one two : Block χ} (ands : one.Unmixed .and) (tokens : List UInt8) (context : χ) :
    (one.extend .and two).firstReads tokens context =
      longer (one.firstReads tokens context) (two.firstReads tokens context) := by
  match one with
  | .single first => simp [Block.extend,Block.firstReads]
  | .link first op rest =>
    obtain ⟨rfl,_,restAnds⟩ := ands
    simp only [Block.extend,Block.firstReads,extend_firstReads restAnds tokens context]
    cases first.reads tokens context with
    | none => rfl
    | some n =>
      cases rest.firstReads tokens context with
      | none => rfl
      | some m =>
        cases two.firstReads tokens context with
        | none => rfl
        | some k => simp [longer,Nat.max_assoc]

theorem extend_reads {one two : Block χ} (oneAnds : one.Unmixed .and) (twoAnds : two.Unmixed .and)
    (tokens : List UInt8) (context : χ) :
    (one.extend .and two).reads tokens context = longer (one.reads tokens context) (two.reads tokens context) := by
  rw [(reads_and (extend_unmixed oneAnds twoAnds) tokens context).1,(reads_and oneAnds tokens context).1,
    (reads_and twoAnds tokens context).1]
  exact extend_firstReads oneAnds tokens context

-- What matches is there.
mutual

theorem Field.reads_le : ∀ (field : Field χ) (tokens : List UInt8) (context : χ) (len : Nat),
    field.reads tokens context = some len → len ≤ tokens.length
  | .field check, tokens, context, len, read => by
    simp only [Field.reads] at read
    split at read
    · rename_i holds
      cases read
      exact check.reads tokens context holds
    · exact absurd read nofun
  | .subPattern pattern, tokens, context, len, read => patternReads_le pattern tokens context len read

theorem Block.firstReads_le : ∀ (block : Block χ) (tokens : List UInt8) (context : χ) (len : Nat),
    block.firstReads tokens context = some len → len ≤ tokens.length
  | .single first, tokens, context, len, read => Field.reads_le first tokens context len read
  | .link first .and rest, tokens, context, len, read => by
    obtain ⟨one,two,firstRead,restRead,rfl⟩ := longer_some.mp read
    have ofFirst := Field.reads_le first tokens context one firstRead
    have ofRest := Block.firstReads_le rest tokens context two restRead
    omega
  | .link first .or rest, tokens, context, len, read => Field.reads_le first tokens context len read

theorem Block.othersRead_le : ∀ (block : Block χ) (tokens : List UInt8) (context : χ) (len : Nat),
    block.othersRead tokens context = some len → len ≤ tokens.length
  | .single _, _, _, _, read => absurd read nofun
  | .link _ .and rest, tokens, context, len, read => Block.othersRead_le rest tokens context len read
  | .link _ .or rest, tokens, context, len, read => by
    simp only [Block.othersRead,Option.or_eq_some_iff] at read
    rcases read with read | ⟨_,read⟩
    · exact Block.firstReads_le rest tokens context len read
    · exact Block.othersRead_le rest tokens context len read

theorem patternReads_le : ∀ (pattern : List (Block χ)) (tokens : List UInt8) (context : χ) (len : Nat),
    patternReads pattern tokens context = some len → len ≤ tokens.length
  | [], _, _, _, read => by
    cases read
    exact Nat.zero_le _
  | block :: rest, tokens, context, len, read => by
    simp only [patternReads,Option.bind_eq_some_iff,Option.map_eq_some_iff,Option.or_eq_some_iff] at read
    obtain ⟨blockLen,blockRead,restLen,restRead,rfl⟩ := read
    have ofBlock : blockLen ≤ tokens.length := by
      rcases blockRead with blockRead | ⟨_,blockRead⟩
      · exact Block.firstReads_le block tokens context blockLen blockRead
      · exact Block.othersRead_le block tokens context blockLen blockRead
    have ofRest := patternReads_le rest (tokens.drop blockLen) context restLen restRead
    rw [List.length_drop] at ofRest
    omega

end

theorem Block.reads_le {block : Block χ} (read : block.reads tokens context = some len) : len ≤ tokens.length := by
  simp only [Block.reads,Option.or_eq_some_iff] at read
  rcases read with read | ⟨_,read⟩
  · exact Block.firstReads_le block tokens context len read
  · exact Block.othersRead_le block tokens context len read

end Rsleigh.Syntax.Pattern
