import Rsleigh.Decode.Constructor
import Rsleigh.Lib.Buckets

namespace Rsleigh.Decode

open Fallible

variable {χ τ : Type}

-- semantic/inner/disassembly.rs. The number of a block, doubled, and one more behind the tables of the block; none
-- is after the whole pattern.
abbrev BlockCounter := Option Nat

def disassemblyAt (counter : BlockCounter) (pos : Bool) (num : Nat) : BlockCounter :=
  counter.map fun current => max (2 * num + pos.toNat) current

-- A pattern whose actions are not placed yet, with the block that produces a field or a table.
structure Pattern (χ : Type) where
  len : PatternLen
  blocks : List (Block χ)
  producedField : Nat → Option Nat
  producedTable : Nat → Option Nat

-- An or block runs all its actions after the match.
def Block.withActions (pre pos : List Assertation) : Block χ → Block χ
  | .and block => .and { block with pre := pre, pos := pos }
  | .or block => .or { block with pos := pre ++ pos }

namespace Pattern

variable (pattern : Pattern χ)

def readScope (counter : BlockCounter) : ReadScope → Option BlockCounter
  | .instNext => some none
  | .tokenField id => (pattern.producedField id).map fun num => disassemblyAt counter false num
  | .integer _ | .context _ | .instStart | .var _ => some counter

def addrScope (counter : BlockCounter) : AddrScope → Option BlockCounter
  | .table id => (pattern.producedTable id).map fun num => disassemblyAt counter true num
  | .instNext => some none
  | .integer _ | .instStart | .var _ => some counter

def newAssertation (counter : BlockCounter) : Assertation → Option BlockCounter
  | .globalSet address _ => pattern.addrScope counter address
  | .assignment _ right => right.reads.foldlM pattern.readScope counter

-- Each action with the place the counter has when it is inserted.
def place (counter : BlockCounter) : List Assertation → Option (List (BlockCounter × Assertation))
  | [] => some []
  | assertation :: rest => do
    let counter ← pattern.newAssertation counter assertation
    let others ← place counter rest
    return (counter, assertation) :: others

def insertedAt (placed : List (BlockCounter × Assertation)) (counter : BlockCounter) : List Assertation :=
  (placed.filter (·.1 = counter)).map (·.2)

-- A block number outside of the pattern panics.
def build (assertations : List Assertation) : Option (Constructor χ) := do
  let placed ← pattern.place (some 0) assertations
  if ∀ item ∈ placed, ∀ counter ∈ item.1, counter / 2 < pattern.blocks.length then
    some {
      len := pattern.len
      blocks := pattern.blocks.mapIdx fun num block =>
        block.withActions (insertedAt placed (some (2 * num))) (insertedAt placed (some (2 * num + 1)))
      pos := insertedAt placed none
    }
  else none

end Pattern

-- The actions in the order of the blocks, as the display runs them.
def Constructor.assertations (constructor : Constructor χ) : List Assertation :=
  constructor.blocks.flatMap (fun block => block.pre ++ block.pos) ++ constructor.pos

-- constructor/execution.rs: gen_dis_recompute. It starts from the variables in the struct.
section Lift

variable (sleigh : Sleigh χ) (struct : ConstructorStruct τ) (instStart instNext : Nat)

def liftRead (locals : Nat → Word) : ReadScope → Except Failure Word
  | .integer value => .ok (BitVec.ofInt 128 value)
  | .context id => .ok (struct.contextFields id)
  | .tokenField id => .ok (((struct.assFields id).map (sleigh.tokenField id).liftValue).getD 0)
  | .instStart => .ok (BitVec.ofNat 128 instStart)
  | .instNext => .ok (BitVec.ofNat 128 instNext)
  | .var id => .ok (locals id)

def disRecompute : List Assertation → (Nat → Word) → Except Failure (Nat → Word)
  | [], locals => .ok locals
  | .assignment (.var id) right :: rest, locals =>
    if right.usesInstNext then do
      let value ← right.eval (liftRead sleigh struct instStart instNext locals)
      disRecompute rest (Function.update locals id value)
    else disRecompute rest locals
  | .assignment (.context _) _ :: rest, locals | .globalSet _ _ :: rest, locals => disRecompute rest locals

end Lift

-- constructor/disassembly.rs: DisassemblyDisplay. The context is the one of the whole instruction.
section Display

variable (sleigh : Sleigh χ) (struct : ConstructorStruct τ) (context : χ) (instStart instNext : Nat)

def displayRead (locals : Nat → Word) : ReadScope → Except Failure Word
  | .integer value => .ok (BitVec.ofInt 128 value)
  | .context id => .ok (sleigh.readContext id context)
  | .tokenField id =>
    match struct.assFields id with
    | some raw => .ok ((sleigh.tokenField id).disassemblyFunctionCall raw)
    | none => .error .panic
  | .instStart => .ok (BitVec.ofNat 128 instStart)
  | .instNext => .ok (BitVec.ofNat 128 instNext)
  | .var id => .ok (locals id)

def displayActions : List Assertation → (Nat → Word) → Except Failure (Nat → Word)
  | [], locals => .ok locals
  | .assignment (.var id) right :: rest, locals => do
    let value ← right.eval (displayRead sleigh struct context instStart instNext locals)
    displayActions rest (Function.update locals id value)
  | .assignment (.context _) _ :: rest, locals | .globalSet _ _ :: rest, locals => displayActions rest locals

end Display

-- What the actions mean: they are evaluated once, in order, over the fields that the pattern
-- produced and the end of the whole instruction.
structure Evaluation (χ : Type) where
  locals : Nat → Word
  context : χ
  written : List (Nat × Word)

def Evaluation.initial (context : χ) : Evaluation χ where
  locals := fun _ => 0
  context := context
  written := []

section Evaluate

variable (sleigh : Sleigh χ) (fields : Nat → Option Nat) (instStart instNext : Nat)

def Evaluation.write (evaluation : Evaluation χ) (left : WriteScope) (value : Word) : Evaluation χ :=
  match left with
  | .context id =>
    { evaluation with
      context := sleigh.writeContext id value evaluation.context
      written := evaluation.written ++ [(id, value)] }
  | .var id => { evaluation with locals := Function.update evaluation.locals id value }

def Evaluation.read (evaluation : Evaluation χ) : ReadScope → Except Failure Word
  | .integer value => .ok (BitVec.ofInt 128 value)
  | .context id => .ok (sleigh.readContext id evaluation.context)
  | .tokenField id =>
    match fields id with
    | some raw => .ok ((sleigh.tokenField id).value raw)
    | none => .error .panic
  | .instStart => .ok (BitVec.ofNat 128 instStart)
  | .instNext => .ok (BitVec.ofNat 128 instNext)
  | .var id => .ok (evaluation.locals id)

def evaluate : List Assertation → Evaluation χ → Except Failure (Evaluation χ)
  | [], evaluation => .ok evaluation
  | .globalSet _ _ :: rest, evaluation => evaluate rest evaluation
  | .assignment left right :: rest, evaluation => do
    let value ← right.eval (evaluation.read sleigh fields instStart instNext)
    evaluate rest (evaluation.write sleigh left value)

end Evaluate

-- The builder only moves on: to a later place, or behind the match for good.
def Before (counter later : BlockCounter) : Prop :=
  ∀ place ∈ later, ∃ current ∈ counter, current ≤ place

theorem before_refl (counter : BlockCounter) : Before counter counter :=
  fun place member => ⟨place,member,Nat.le_refl place⟩

theorem before_trans {first second third : BlockCounter} (before : Before first second) (after : Before second third) :
    Before first third := by
  intro place member
  obtain ⟨middle,isMiddle,small⟩ := after place member
  obtain ⟨current,isCurrent,smaller⟩ := before middle isMiddle
  exact ⟨current,isCurrent,Nat.le_trans smaller small⟩

theorem before_none (counter : BlockCounter) : Before counter none := by
  intro place member
  cases member

theorem disassemblyAt_before (counter : BlockCounter) (pos : Bool) (num : Nat) :
    Before counter (disassemblyAt counter pos num) := by
  intro place member
  obtain ⟨current,isCurrent,rfl⟩ := Option.map_eq_some_iff.mp member
  exact ⟨current,isCurrent,Nat.le_max_right _ _⟩

namespace Pattern

variable {pattern : Pattern χ}

theorem readScope_before {counter later : BlockCounter} {scope : ReadScope}
    (read : pattern.readScope counter scope = some later) : Before counter later := by
  cases scope with
  | instNext =>
    cases read
    exact before_none counter
  | tokenField id =>
    obtain ⟨num,_,rfl⟩ := Option.map_eq_some_iff.mp read
    exact disassemblyAt_before counter false num
  | _ =>
    cases read
    exact before_refl counter

theorem readScopes_before {scopes : List ReadScope} :
    ∀ {counter later : BlockCounter}, scopes.foldlM pattern.readScope counter = some later → Before counter later := by
  induction scopes with
  | nil =>
    intro counter later read
    cases read
    exact before_refl counter
  | cons scope rest ih =>
    intro counter later read
    rw [List.foldlM_cons] at read
    obtain ⟨middle,first,others⟩ := Option.bind_eq_some_iff.mp read
    exact before_trans (readScope_before first) (ih others)

theorem newAssertation_before {counter later : BlockCounter} {assertation : Assertation}
    (moved : pattern.newAssertation counter assertation = some later) : Before counter later := by
  cases assertation with
  | assignment left right => exact readScopes_before moved
  | globalSet address context =>
    change pattern.addrScope counter address = some later at moved
    cases address with
    | table id =>
      obtain ⟨num,_,rfl⟩ := Option.map_eq_some_iff.mp moved
      exact disassemblyAt_before counter true num
    | instNext =>
      cases moved
      exact before_none counter
    | _ =>
      cases moved
      exact before_refl counter

theorem place_sorted {assertations : List Assertation} :
    ∀ {counter : BlockCounter} {placed}, pattern.place counter assertations = some placed →
      placed.map (·.2) = assertations ∧ (∀ item ∈ placed, Before counter item.1) ∧
        placed.Pairwise fun item later => Before item.1 later.1 := by
  induction assertations with
  | nil =>
    intro counter placed found
    cases found
    exact ⟨rfl,fun _ member => absurd member List.not_mem_nil,List.Pairwise.nil⟩
  | cons assertation rest ih =>
    intro counter placed found
    obtain ⟨later,moved,found⟩ := Option.bind_eq_some_iff.mp found
    obtain ⟨others,placedOthers,found⟩ := Option.bind_eq_some_iff.mp found
    cases found
    obtain ⟨listed,after,sorted⟩ := ih placedOthers
    have moves := newAssertation_before moved
    refine ⟨congrArg (assertation :: ·) listed,?_,List.pairwise_cons.mpr ⟨after,sorted⟩⟩
    intro item member
    rcases List.mem_cons.mp member with rfl | member
    · exact moves
    · exact before_trans moves (after item member)

-- Behind the match the counter stays, and `inst_next` puts it there.
theorem readScopes_instNext {scopes : List ReadScope} :
    ∀ {counter later : BlockCounter}, scopes.foldlM pattern.readScope counter = some later →
      counter = none ∨ .instNext ∈ scopes → later = none := by
  induction scopes with
  | nil =>
    intro counter later read behind
    cases read
    rcases behind with behind | member
    · exact behind
    · exact absurd member List.not_mem_nil
  | cons scope rest ih =>
    intro counter later read behind
    rw [List.foldlM_cons] at read
    obtain ⟨middle,first,others⟩ := Option.bind_eq_some_iff.mp read
    apply ih others
    rcases behind with behind | member
    · left
      subst behind
      have before := readScope_before first
      cases middle with
      | none => rfl
      | some place =>
        obtain ⟨current,isCurrent,_⟩ := before place rfl
        cases isCurrent
    · rcases List.mem_cons.mp member with isHere | later
      · left
        subst isHere
        cases first
        rfl
      · exact Or.inr later

-- What is placed in a block does not mention `inst_next`.
theorem place_unfinished {assertations : List Assertation} :
    ∀ {counter : BlockCounter} {placed}, pattern.place counter assertations = some placed →
      ∀ place left right, (some place, .assignment left right) ∈ placed → right.usesInstNext = false := by
  induction assertations with
  | nil =>
    intro counter placed found place left right member
    cases found
    exact absurd member List.not_mem_nil
  | cons assertation rest ih =>
    intro counter placed found place left right member
    obtain ⟨later,moved,found⟩ := Option.bind_eq_some_iff.mp found
    obtain ⟨others,placedOthers,found⟩ := Option.bind_eq_some_iff.mp found
    cases found
    rcases List.mem_cons.mp member with isHere | member
    · cases isHere
      apply Bool.eq_false_iff.mpr
      intro uses
      have behind := readScopes_instNext moved (Or.inr ((Expr.usesInstNext_reads right).mp uses))
      cases behind
    · exact ih placedOthers place left right member

theorem mem_insertedAt {placed : List (BlockCounter × Assertation)} {counter : BlockCounter}
    {assertation : Assertation} : assertation ∈ insertedAt placed counter ↔ (counter, assertation) ∈ placed := by
  unfold insertedAt
  constructor
  · intro member
    obtain ⟨item,isItem,rfl⟩ := List.mem_map.mp member
    obtain ⟨isPlaced,same⟩ := List.mem_filter.mp isItem
    have isCounter : item.1 = counter := of_decide_eq_true same
    rw [← isCounter]
    exact isPlaced
  · intro member
    exact List.mem_map.mpr ⟨_,List.mem_filter.mpr ⟨member,decide_eq_true rfl⟩,rfl⟩

theorem withActions_flat (pre pos : List Assertation) (block : Block χ) :
    (block.withActions pre pos).pre ++ (block.withActions pre pos).pos = pre ++ pos := by
  cases block with
  | and block => rfl
  | or block => rfl

-- The actions of a built constructor, block by block, are the actions of the source in their order.
theorem build_assertations {assertations : List Assertation} {constructor : Constructor χ}
    (built : pattern.build assertations = some constructor) : constructor.assertations = assertations := by
  obtain ⟨placed,found,built⟩ := Option.bind_eq_some_iff.mp built
  obtain ⟨listed,_,sorted⟩ := place_sorted found
  split at built
  · rename_i inside
    cases built
    -- What comes after the match gets the number behind all blocks.
    let count := 2 * pattern.blocks.length
    let key : BlockCounter × Assertation → Nat := fun item => item.1.getD count
    have keyInside : ∀ item ∈ placed, ∀ place ∈ item.1, place < count := by
      intro item member place isPlace
      have small := inside item member place isPlace
      omega
    have keySorted : placed.Pairwise fun item later => key item ≤ key later := by
      apply sorted.imp_of_mem
      intro item later itemMember laterMember before
      cases laterPlace : later.1 with
      | none =>
        simp only [key,laterPlace,Option.getD_none]
        cases itemPlace : item.1 with
        | none => exact Nat.le_refl _
        | some place => exact Nat.le_of_lt (keyInside item itemMember place itemPlace)
      | some place =>
        obtain ⟨current,isCurrent,small⟩ := before place laterPlace
        have isCurrent : item.1 = some current := isCurrent
        simp only [key,laterPlace,isCurrent,Option.getD_some]
        exact small
    have keyBound : ∀ item ∈ placed, key item < count + 1 := by
      intro item member
      cases itemPlace : item.1 with
      | none =>
        simp only [key,itemPlace,Option.getD_none]
        exact Nat.lt_succ_self _
      | some place =>
        have small := keyInside item member place itemPlace
        simp only [key,itemPlace,Option.getD_some]
        omega
    have bucket : ∀ place < count, insertedAt placed (some place) = (placed.filter (key · = place)).map (·.2) := by
      intro place small
      refine congrArg (List.map fun item : BlockCounter × Assertation => item.2) ?_
      apply List.filter_congr
      intro item _
      cases itemPlace : item.1 with
      | none => simp [key,itemPlace,Nat.ne_of_gt small]
      | some other => simp [key,itemPlace]
    have last : insertedAt placed none = (placed.filter (key · = count)).map (·.2) := by
      refine congrArg (List.map fun item : BlockCounter × Assertation => item.2) ?_
      apply List.filter_congr
      intro item member
      cases itemPlace : item.1 with
      | none => simp [key,itemPlace]
      | some other => simp [key,itemPlace,Nat.ne_of_lt (keyInside item member other itemPlace)]
    have inOrder := Buckets.buckets_concat key keySorted keyBound
    unfold Constructor.assertations
    rw [Buckets.mapIdx_flatMap pattern.blocks _ _
      (fun num => insertedAt placed (some (2 * num)) ++ insertedAt placed (some (2 * num + 1)))
      (fun num block => withActions_flat _ _ block),
      Buckets.range_pairs fun place => insertedAt placed (some place)]
    calc
      (List.range count).flatMap (fun place => insertedAt placed (some place)) ++ insertedAt placed none
          = ((List.range count).flatMap (fun place => placed.filter (key · = place)) ++
              placed.filter (key · = count)).map (·.2) := by
            rw [List.map_append,List.map_flatMap,last]
            apply congrArg (· ++ _)
            apply List.flatMap_congr
            intro place member
            exact bucket place (List.mem_range.mp member)
      _ = placed.map (·.2) := by
            rw [List.range_succ,List.flatMap_append,List.flatMap_singleton] at inOrder
            rw [inOrder]
      _ = assertations := listed
  · cases built

theorem build_unfinished {assertations : List Assertation} {constructor : Constructor χ}
    (built : pattern.build assertations = some constructor) {block : Block χ} (isBlock : block ∈ constructor.blocks)
    {left : WriteScope} {right : Expr} (member : .assignment left right ∈ block.pre ++ block.pos) :
    right.usesInstNext = false := by
  obtain ⟨placed,found,built⟩ := Option.bind_eq_some_iff.mp built
  split at built
  · cases built
    obtain ⟨num,inside,rfl⟩ := List.mem_mapIdx.mp isBlock
    rw [withActions_flat] at member
    rcases List.mem_append.mp member with member | member
    · exact place_unfinished found _ left right (mem_insertedAt.mp member)
    · exact place_unfinished found _ left right (mem_insertedAt.mp member)
  · cases built

end Pattern

end Rsleigh.Decode
