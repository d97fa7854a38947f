import Rsleigh.Decode.Tables

namespace Rsleigh.Decode

open Fallible

variable {χ τ : Type}

def Verification.value : Verification χ → Option Expr
  | .contextCheck _ _ value | .tokenFieldCheck _ _ value => some value
  | .tableBuild _ | .subPattern _ => none

def Assertation.right : Assertation → Option Expr
  | .assignment _ right => some right
  | .globalSet _ _ => none

namespace AndBlock

-- The expressions that a block evaluates, and the token fields that it reads.
def exprs (block : AndBlock χ) : List Expr :=
  block.verifications.filterMap Verification.value ++ (block.pre ++ block.pos).filterMap Assertation.right

def ReadsField (block : AndBlock χ) (id : Nat) : Prop :=
  (∃ op value, .tokenFieldCheck id op value ∈ block.verifications) ∨
    (∃ expr ∈ block.exprs, .tokenField id ∈ expr.reads) ∨ id ∈ block.tokenFields

end AndBlock

def leastSum (blocks : List (Block χ)) : Nat :=
  (blocks.map fun block => block.len.least).sum

-- The matcher lengths that the solver finds hold the lengths of the matches.
namespace PatternLen

theorem greater_fold_least (lens : List PatternLen) :
    ∀ first : PatternLen, first.least ≤ (lens.foldl greater first).least ∧
      (∀ len ∈ lens, len.least ≤ (lens.foldl greater first).least) ∧
      ∀ most, first.least ≤ most → (∀ len ∈ lens, len.least ≤ most) → (lens.foldl greater first).least ≤ most := by
  induction lens with
  | nil =>
    intro first
    exact ⟨Nat.le_refl _,fun _ member => absurd member List.not_mem_nil,fun most small _ => small⟩
  | cons len rest ih =>
    intro first
    obtain ⟨ofFirst,ofRest,upper⟩ := ih (first.greater len)
    have step : (first.greater len).least = max first.least len.least := combine_least _ _ _
    rw [step] at ofFirst upper
    refine ⟨?_,?_,?_⟩
    · exact Nat.le_trans (Nat.le_max_left _ _) ofFirst
    · intro other member
      rcases List.mem_cons.mp member with rfl | member
      · exact Nat.le_trans (Nat.le_max_right _ _) ofFirst
      · exact ofRest other member
    · intro most small others
      apply upper most
      · exact Nat.max_le.mpr ⟨small,others len (List.mem_cons_self ..)⟩
      · exact fun other member => others other (List.mem_cons_of_mem _ member)

theorem greater_fold_greatest (lens : List PatternLen) :
    ∀ (first : PatternLen) {most : Nat}, (lens.foldl greater first).greatest = some most →
      (∃ firstMost, first.greatest = some firstMost ∧ firstMost ≤ most) ∧
        ∀ len ∈ lens, ∃ lenMost, len.greatest = some lenMost ∧ lenMost ≤ most := by
  induction lens with
  | nil =>
    intro first most bounded
    exact ⟨⟨most,bounded,Nat.le_refl most⟩,fun _ member => absurd member List.not_mem_nil⟩
  | cons len rest ih =>
    intro first most bounded
    obtain ⟨⟨stepMost,stepBound,small⟩,ofRest⟩ := ih (first.greater len) bounded
    obtain ⟨firstMost,lenMost,firstBound,lenBound,rfl⟩ := combine_greatest stepBound
    refine ⟨⟨firstMost,firstBound,Nat.le_trans (Nat.le_max_left _ _) small⟩,?_⟩
    intro other member
    rcases List.mem_cons.mp member with rfl | member
    · exact ⟨lenMost,lenBound,Nat.le_trans (Nat.le_max_right _ _) small⟩
    · exact ofRest other member

theorem concat_within {x y : PatternLen} {xLen yLen : Nat} (xWithin : x.Within xLen) (yWithin : y.Within yLen) :
    (x.concat y).Within (xLen + yLen) := by
  constructor
  · rw [concat,combine_least]
    exact Nat.add_le_add xWithin.1 yWithin.1
  · intro most bounded
    obtain ⟨xMost,yMost,xBound,yBound,rfl⟩ := combine_greatest bounded
    exact Nat.add_le_add (xWithin.2 xMost xBound) (yWithin.2 yMost yBound)

def greatestSum : List PatternLen → Option Nat
  | [] => some 0
  | len :: rest => do
    let most ← len.greatest
    let others ← greatestSum rest
    return most + others

theorem concat_fold_least (lens : List PatternLen) :
    ∀ first : PatternLen, (lens.foldl concat first).least = first.least + (lens.map least).sum := by
  induction lens with
  | nil =>
    intro first
    rfl
  | cons len rest ih =>
    intro first
    rw [List.foldl_cons,ih,concat,combine_least,List.map_cons,List.sum_cons,Nat.add_assoc]

theorem concat_fold_greatest (lens : List PatternLen) :
    ∀ (first : PatternLen) {most : Nat}, (lens.foldl concat first).greatest = some most →
      ∃ firstMost restMost, first.greatest = some firstMost ∧ greatestSum lens = some restMost ∧
        most = firstMost + restMost := by
  induction lens with
  | nil =>
    intro first most bounded
    exact ⟨most,0,bounded,rfl,rfl⟩
  | cons len rest ih =>
    intro first most bounded
    obtain ⟨stepMost,restMost,stepBound,restBound,rfl⟩ := ih (first.concat len) bounded
    obtain ⟨firstMost,lenMost,firstBound,lenBound,rfl⟩ := combine_greatest stepBound
    refine ⟨firstMost,lenMost + restMost,firstBound,?_,Nat.add_assoc _ _ _⟩
    unfold greatestSum
    rw [lenBound,restBound]
    rfl

end PatternLen

theorem greatestLen_le {lens : List (Option PatternLen)} :
    ∀ {most : Nat}, greatestLen lens = some most →
      ∀ entry ∈ lens, ∃ own ownMost, entry = some own ∧ own.greatest = some ownMost ∧ ownMost ≤ most := by
  induction lens with
  | nil =>
    intro most _ entry member
    exact absurd member List.not_mem_nil
  | cons head rest ih =>
    intro most found entry member
    cases head with
    | none => cases found
    | some len =>
      obtain ⟨lenMost,lenBound,found⟩ := Option.bind_eq_some_iff.mp found
      obtain ⟨others,restBound,found⟩ := Option.bind_eq_some_iff.mp found
      cases found
      rcases List.mem_cons.mp member with rfl | member
      · exact ⟨len,lenMost,rfl,lenBound,Nat.le_max_left _ _⟩
      · obtain ⟨own,ownMost,isOwn,ownBound,small⟩ := ih restBound entry member
        exact ⟨own,ownMost,isOwn,ownBound,Nat.le_trans small (Nat.le_max_right _ _)⟩

theorem solvePatternLen_least {lens : List (Option PatternLen)} {len : PatternLen}
    (solved : solvePatternLen lens = some len) {own : PatternLen} (member : some own ∈ lens) :
    len.least ≤ own.least := by
  have listed : own.least ∈ lens.filterMap fun entry => entry.map PatternLen.least :=
    List.mem_filterMap.mpr ⟨some own,member,rfl⟩
  unfold solvePatternLen at solved
  split at solved
  · cases solved
  · rename_i least _ isLeast _
    cases solved
    exact (List.min?_eq_some_iff.mp isLeast).2 _ listed
  · rename_i least greatest isLeast _
    cases solved
    rw [PatternLen.new_least]
    exact (List.min?_eq_some_iff.mp isLeast).2 _ listed

theorem solvePatternLen_greatest {lens : List (Option PatternLen)} {len : PatternLen}
    (solved : solvePatternLen lens = some len) {most : Nat} (bounded : len.greatest = some most) :
    ∀ entry ∈ lens, ∃ own ownMost, entry = some own ∧ own.greatest = some ownMost ∧ ownMost ≤ most := by
  unfold solvePatternLen at solved
  split at solved
  · cases solved
  · cases solved
    cases bounded
  · rename_i isGreatest
    cases solved
    rw [PatternLen.new_greatest] at bounded
    cases bounded
    exact greatestLen_le isGreatest

theorem mem_tableIds {verifications : List (Verification χ)} {table : Nat} (member : table ∈ tableIds verifications) :
    .tableBuild table ∈ verifications := by
  induction verifications with
  | nil => exact absurd member List.not_mem_nil
  | cons verification rest ih =>
    cases verification with
    | tableBuild other =>
      rcases List.mem_cons.mp member with rfl | member
      · exact List.mem_cons_self ..
      · exact List.mem_cons_of_mem _ (ih member)
    | _ => exact List.mem_cons_of_mem _ (ih member)

theorem tableBuild_mem {verifications : List (Verification χ)} {table : Nat}
    (member : .tableBuild table ∈ verifications) : table ∈ tableIds verifications := by
  induction verifications with
  | nil => exact absurd member List.not_mem_nil
  | cons verification rest ih =>
    rcases List.mem_cons.mp member with isHere | later
    · subst isHere
      exact List.mem_cons_self ..
    · have found := ih later
      cases verification with
      | tableBuild other => exact List.mem_cons_of_mem _ found
      | _ => exact found

namespace Specification

variable {specification : Specification χ} {table : Nat} {constructor : Constructor χ} {block : AndBlock χ}

theorem block_least (isConstructor : constructor ∈ specification.constructors table)
    (isBlock : .and block ∈ constructor.blocks) :
    block.own ≤ block.len.least ∧
      ∀ called ∈ tableIds block.verifications, (specification.tableLen called).least ≤ block.len.least := by
  rw [specification.blockLens table constructor isConstructor block isBlock]
  obtain ⟨ofOwn,ofVerifications,_⟩ := PatternLen.greater_fold_least
    (block.verifications.map fun verification => verification.patternLen specification.toSleigh specification.tableLen)
    (.defined block.own)
  refine ⟨ofOwn,?_⟩
  intro called member
  exact ofVerifications _ (List.mem_map.mpr ⟨.tableBuild called,mem_tableIds member,rfl⟩)

theorem block_greatest (isConstructor : constructor ∈ specification.constructors table)
    (isBlock : .and block ∈ constructor.blocks) {most : Nat} (bounded : block.len.greatest = some most) :
    block.own ≤ most ∧ ∀ called ∈ tableIds block.verifications,
      ∃ calledMost, (specification.tableLen called).greatest = some calledMost ∧ calledMost ≤ most := by
  rw [specification.blockLens table constructor isConstructor block isBlock] at bounded
  obtain ⟨⟨own,isOwn,small⟩,ofVerifications⟩ := PatternLen.greater_fold_greatest _ _ bounded
  cases isOwn
  refine ⟨small,?_⟩
  intro called member
  exact ofVerifications _ (List.mem_map.mpr ⟨.tableBuild called,mem_tableIds member,rfl⟩)

theorem constructor_least (isConstructor : constructor ∈ specification.constructors table) :
    constructor.len.least = leastSum constructor.blocks := by
  rw [specification.constructorLens table constructor isConstructor,calculateLen,PatternLen.concat_fold_least]
  simp only [leastSum,List.map_map]
  exact Nat.zero_add _

theorem calls_block (calls : constructor.calls table = true) :
    ∃ block, .and block ∈ constructor.blocks ∧ table ∈ tableIds block.verifications := by
  obtain ⟨block,member,calls⟩ := List.any_eq_true.mp calls
  cases block with
  | or block => cases calls
  | and block => exact ⟨block,member,of_decide_eq_true calls⟩

theorem leastSum_le {blocks : List (Block χ)} {block : Block χ} (member : block ∈ blocks) :
    block.len.least ≤ leastSum blocks :=
  List.le_sum_of_mem (List.mem_map.mpr ⟨block,member,rfl⟩)

theorem table_least (isConstructor : constructor ∈ specification.constructors table) :
    (specification.tableLen table).least ≤ constructor.len.least := by
  cases calls : constructor.calls table with
  | false =>
    apply solvePatternLen_least (specification.tableLens table)
    exact List.mem_map.mpr ⟨constructor,isConstructor,by simp [calls]⟩
  | true =>
    -- The constructor is left out of the minimum, but it is longer than the table it calls.
    obtain ⟨block,isBlock,called⟩ := calls_block calls
    rw [constructor_least isConstructor]
    exact Nat.le_trans ((block_least isConstructor isBlock).2 table called) (leastSum_le isBlock)

theorem table_greatest (isConstructor : constructor ∈ specification.constructors table) {most : Nat}
    (bounded : (specification.tableLen table).greatest = some most) :
    ∃ constructorMost, constructor.len.greatest = some constructorMost ∧ constructorMost ≤ most := by
  obtain ⟨own,ownMost,isOwn,ownBound,small⟩ := solvePatternLen_greatest (specification.tableLens table) bounded _
    (List.mem_map.mpr ⟨constructor,isConstructor,rfl⟩)
  split at isOwn
  · cases isOwn
  · cases isOwn
    exact ⟨ownMost,ownBound,small⟩

end Specification

namespace Specification

variable (specification : Specification χ)

-- Blocks that are left of a constructor after some others.
def Rest (before rest : List (Block χ)) : Prop :=
  ∃ table, ∃ constructor ∈ specification.constructors table, constructor.blocks = before ++ rest

-- A block that reads tokens comes after blocks of a single length only.
def Guarded : Prop :=
  ∀ before block after, specification.Rest before (.and block :: after) → (∃ id, block.ReadsField id) →
    ∀ other ∈ before, other.len.singleLen.isSome

-- Every token field that a block reads is inside of the tokens that the block counts as its own.
def OwnTokens : Prop :=
  ∀ before block after, specification.Rest before (.and block :: after) →
    ∀ id, block.ReadsField id → (specification.tokenField id).tokenLen ≤ block.own

-- How the bytes that are left bound what is still read: when a table may be called on some bytes, and when the rest of
-- a constructor may run on them.
structure Rooms where
  table : Nat → Nat → Prop
  blocks : List (Block χ) → Nat → Prop
  enter : ∀ {called constructor left}, table called left → constructor ∈ specification.constructors called →
    constructor.len.least ≤ left → blocks constructor.blocks left
  reads : ∀ {block rest left}, blocks (.and block :: rest) left →
    ∀ id, block.ReadsField id → (specification.tokenField id).tokenLen ≤ left
  calls : ∀ {block rest left}, blocks (.and block :: rest) left →
    ∀ called ∈ tableIds block.verifications, table called left
  next : ∀ {block rest left len}, blocks (.and block :: rest) left → block.len.Within len → len ≤ left →
    blocks rest (left - len)

variable {specification}

theorem rest_next {before rest : List (Block χ)} {block : Block χ}
    (isRest : specification.Rest before (block :: rest)) : specification.Rest (before ++ [block]) rest := by
  obtain ⟨table,constructor,isConstructor,shape⟩ := isRest
  refine ⟨table,constructor,isConstructor,?_⟩
  rw [shape,List.append_assoc]
  rfl

theorem rest_block {before rest : List (Block χ)} {block : AndBlock χ}
    (isRest : specification.Rest before (.and block :: rest)) :
    ∃ table, ∃ constructor ∈ specification.constructors table, .and block ∈ constructor.blocks := by
  obtain ⟨table,constructor,isConstructor,shape⟩ := isRest
  refine ⟨table,constructor,isConstructor,?_⟩
  rw [shape]
  exact List.mem_append_right _ (List.mem_cons_self ..)

-- With guarded reads, the minimum that the table checks covers every block up to the last one that reads.
def guardedRooms (own : specification.OwnTokens) (guarded : specification.Guarded) : specification.Rooms where
  table := fun _ _ => True
  blocks := fun rest left => ∃ before, specification.Rest before rest ∧
    ((∀ other ∈ before, other.len.singleLen.isSome) → leastSum rest ≤ left)
  enter := by
    intro called constructor left _ isConstructor enough
    refine ⟨[],⟨called,constructor,isConstructor,rfl⟩,?_⟩
    intro _
    rw [← constructor_least isConstructor]
    exact enough
  reads := by
    intro block rest left room id isRead
    obtain ⟨before,isRest,enough⟩ := room
    obtain ⟨table,constructor,isConstructor,isBlock⟩ := rest_block isRest
    have least := enough (guarded before block rest isRest ⟨id,isRead⟩)
    calc
      (specification.tokenField id).tokenLen ≤ block.own := own before block rest isRest id isRead
      _ ≤ block.len.least := (block_least isConstructor isBlock).1
      _ ≤ leastSum (.and block :: rest) := leastSum_le (List.mem_cons_self : Block.and block ∈ _)
      _ ≤ left := least
  calls := fun _ _ _ => trivial
  next := by
    intro block rest left len room within inside
    obtain ⟨before,isRest,enough⟩ := room
    refine ⟨before ++ [.and block],rest_next isRest,?_⟩
    intro singles
    have least := enough fun other member => singles other (List.mem_append_left _ member)
    obtain ⟨single,isSingle⟩ := Option.isSome_iff_exists.mp
      (singles (.and block) (List.mem_append_right _ (List.mem_singleton_self _)))
    have exact_ : block.len.least = len := by
      rw [PatternLen.single_within isSingle within]
      exact PatternLen.single_least isSingle
    have total : leastSum (.and block :: rest) = block.len.least + leastSum rest := rfl
    omega

-- A root that is no longer than the bytes it is called on.
def boundedRooms (own : specification.OwnTokens) : specification.Rooms where
  table := fun called left => ∃ most, (specification.tableLen called).greatest = some most ∧ most ≤ left
  blocks := fun rest left => (∃ before, specification.Rest before rest) ∧
    ∃ most, PatternLen.greatestSum (rest.map Block.len) = some most ∧ most ≤ left
  enter := by
    intro called constructor left room isConstructor _
    obtain ⟨most,isMost,small⟩ := room
    refine ⟨⟨[],called,constructor,isConstructor,rfl⟩,?_⟩
    obtain ⟨constructorMost,bounded,smaller⟩ := table_greatest isConstructor isMost
    rw [specification.constructorLens called constructor isConstructor] at bounded
    obtain ⟨first,sum,isFirst,isSum,rfl⟩ := PatternLen.concat_fold_greatest _ _ bounded
    cases isFirst
    exact ⟨sum,isSum,by omega⟩
  reads := by
    intro block rest left room id isRead
    obtain ⟨⟨before,isRest⟩,most,isMost,small⟩ := room
    obtain ⟨blockMost,isBlockMost,isMost⟩ := Option.bind_eq_some_iff.mp isMost
    obtain ⟨others,_,isMost⟩ := Option.bind_eq_some_iff.mp isMost
    cases isMost
    obtain ⟨table,constructor,isConstructor,isBlock⟩ := rest_block isRest
    have ownMost := (block_greatest isConstructor isBlock isBlockMost).1
    have inside := own before block rest isRest id isRead
    omega
  calls := by
    intro block rest left room called member
    obtain ⟨⟨before,isRest⟩,most,isMost,small⟩ := room
    obtain ⟨blockMost,isBlockMost,isMost⟩ := Option.bind_eq_some_iff.mp isMost
    obtain ⟨others,_,isMost⟩ := Option.bind_eq_some_iff.mp isMost
    cases isMost
    obtain ⟨table,constructor,isConstructor,isBlock⟩ := rest_block isRest
    obtain ⟨calledMost,isCalled,smaller⟩ := (block_greatest isConstructor isBlock isBlockMost).2 called member
    exact ⟨calledMost,isCalled,by omega⟩
  next := by
    intro block rest left len room within inside
    obtain ⟨⟨before,isRest⟩,most,isMost,small⟩ := room
    obtain ⟨blockMost,isBlockMost,isMost⟩ := Option.bind_eq_some_iff.mp isMost
    obtain ⟨others,isOthers,isMost⟩ := Option.bind_eq_some_iff.mp isMost
    cases isMost
    have blockLen := within.2 blockMost isBlockMost
    exact ⟨⟨_,rest_next isRest⟩,others,isOthers,by omega⟩

end Specification

-- The parts of a block's parser, where the fields they read are inside of the tokens and the
-- expressions divide by nothing that may be zero: they end with a value or without a match.
section Total

variable {sleigh : Sleigh χ} {instStart : Nat}

def NoMatch (failure : Failure) : Prop :=
  failure = .noMatch

theorem check_meets {tokens : List UInt8} {context : χ} {verification : Verification χ}
    (field : ∀ id op value, verification = .tokenFieldCheck id op value → (sleigh.tokenField id).tokenLen ≤ tokens.length)
    (total : ∀ value ∈ verification.value, value.Total)
    (reads : ∀ value ∈ verification.value, ∀ scope ∈ value.reads, scope ≠ .instNext ∧ (∀ local_, scope ≠ .var local_) ∧
      ∀ id, scope = .tokenField id → (sleigh.tokenField id).tokenLen ≤ tokens.length) :
    Meets NoMatch (fun _ => True) (verification.check sleigh instStart tokens context) := by
  have compared : ∀ value ∈ verification.value,
      ∃ word, value.eval (checkRead sleigh instStart tokens context) = .ok word := by
    intro value isValue
    apply Expr.eval_total (total value isValue)
    · exact fun _ => rfl
    · intro scope member
      obtain ⟨notNext,notVar,inside⟩ := reads value isValue scope member
      cases scope with
      | tokenField id =>
        obtain ⟨raw,read⟩ := TokenField.read_ok _ (inside id rfl)
        exact ⟨_,bind_ok.mpr ⟨raw,read,rfl⟩⟩
      | instNext => exact absurd rfl notNext
      | var id => exact absurd rfl (notVar id)
      | _ => exact ⟨_,rfl⟩
  have holds : ∀ op x y, Meets NoMatch (fun _ => True) (Decode.verification op x y) := by
    intro op x y
    unfold Decode.verification
    split
    · trivial
    · rfl
  cases verification with
  | contextCheck id op value =>
    obtain ⟨word,evaluated⟩ := compared value rfl
    simp only [Verification.check]
    rw [evaluated]
    exact holds _ _ _
  | tokenFieldCheck id op value =>
    obtain ⟨word,evaluated⟩ := compared value rfl
    obtain ⟨raw,read⟩ := TokenField.read_ok _ (field id op value rfl)
    simp only [Verification.check]
    rw [read]
    change Meets NoMatch _ (value.eval _ >>= _)
    rw [evaluated]
    exact holds _ _ _
  | tableBuild table => trivial
  | subPattern closure => trivial

theorem checks_meets {tokens : List UInt8} {context : χ} {partOfFlat : Bool} {verifications : List (Verification χ)}
    (each : ∀ verification ∈ verifications,
      Meets NoMatch (fun _ => True) (verification.check sleigh instStart tokens context)) :
    Meets NoMatch (fun _ => True) (checks sleigh instStart partOfFlat tokens context verifications) := by
  induction verifications with
  | nil => trivial
  | cons verification rest ih =>
    have later := ih fun other member => each other (List.mem_cons_of_mem _ member)
    unfold checks
    split
    · exact later
    · exact meets_bind (each verification (List.mem_cons_self ..)) fun _ _ => later

theorem disassembly_total {actions : List Assertation}
    (total : ∀ right ∈ actions.filterMap Assertation.right, right.Total) :
    ∀ {matching : Matching χ τ},
      (∀ right ∈ actions.filterMap Assertation.right, ∀ id, .tokenField id ∈ right.reads →
        (sleigh.tokenField id).tokenLen ≤ matching.tokens.length) →
      ∃ matching', disassembly sleigh instStart actions matching = .ok matching' := by
  induction actions with
  | nil =>
    intro matching _
    exact ⟨matching,rfl⟩
  | cons action rest ih =>
    intro matching inside
    cases action with
    | globalSet address context => exact ih total inside
    | assignment left right =>
      unfold disassembly
      split
      · exact ⟨matching,rfl⟩
      · rename_i early
        have here : right ∈ (Assertation.assignment left right :: rest).filterMap Assertation.right :=
          List.mem_cons_self ..
        obtain ⟨value,evaluated⟩ : ∃ value, right.eval (patternRead sleigh instStart matching) = .ok value := by
          apply Expr.eval_total (total right here)
          · exact fun _ => rfl
          · intro scope member
            cases scope with
            | tokenField id =>
              obtain ⟨raw,read⟩ := TokenField.read_ok _ (inside right here id member)
              exact ⟨_,bind_ok.mpr ⟨raw,read,rfl⟩⟩
            | instNext => exact absurd ((Expr.usesInstNext_reads right).mpr member) early
            | _ => exact ⟨_,rfl⟩
        rw [evaluated]
        apply ih
        · exact fun other member => total other (List.mem_cons_of_mem _ member)
        · rw [(write_frame matching left value).tokens]
          exact fun other member => inside other (List.mem_cons_of_mem _ member)

theorem readFields_total {tokens : List UInt8} {ids : List Nat}
    (inside : ∀ id ∈ ids, (sleigh.tokenField id).tokenLen ≤ tokens.length) :
    ∃ fields, readFields sleigh tokens ids = .ok fields := by
  induction ids with
  | nil => exact ⟨_,rfl⟩
  | cons id rest ih =>
    obtain ⟨raw,read⟩ := TokenField.read_ok _ (inside id (List.mem_cons_self ..))
    obtain ⟨others,readOthers⟩ := ih fun other member => inside other (List.mem_cons_of_mem _ member)
    unfold readFields
    rw [read,readOthers]
    exact ⟨_,rfl⟩

theorem postMatch_total {actions : List Assertation}
    (total : ∀ right ∈ actions.filterMap Assertation.right, right.Total) :
    ∀ {matching : Matching χ τ},
      (∀ right ∈ actions.filterMap Assertation.right, ∀ id, .tokenField id ∈ right.reads →
        matching.fields id ≠ none) →
      ∃ matching', postMatch sleigh instStart actions matching = .ok matching' ∧ Frame matching matching' := by
  induction actions with
  | nil =>
    intro matching _
    exact ⟨matching,rfl,frame_refl matching⟩
  | cons action rest ih =>
    intro matching produced
    cases action with
    | globalSet address context => exact ih total produced
    | assignment left right =>
      have here : right ∈ (Assertation.assignment left right :: rest).filterMap Assertation.right :=
        List.mem_cons_self ..
      have later := fun matching : Matching χ τ => @ih
        (fun other member => total other (List.mem_cons_of_mem _ member)) matching
      cases left with
      | context id => exact later matching fun other member => produced other (List.mem_cons_of_mem _ member)
      | var id =>
        obtain ⟨value,evaluated⟩ : ∃ value, right.eval (postRead sleigh instStart matching) = .ok value := by
          apply Expr.eval_total (total right here)
          · exact fun _ => rfl
          · intro scope member
            cases scope with
            | tokenField field =>
              cases isSome : matching.fields field with
              | none => exact absurd isSome (produced right here field member)
              | some raw => exact ⟨BitVec.ofNat 128 raw,by simp only [postRead,isSome]⟩
            | _ => exact ⟨_,rfl⟩
        obtain ⟨matching',run,frame⟩ := later { matching with locals := Function.update matching.locals id value }
          fun other member => produced other (List.mem_cons_of_mem _ member)
        refine ⟨matching',?_,⟨frame.tokens,frame.patternLen,frame.fields,frame.blocks⟩⟩
        unfold postMatch
        rw [evaluated]
        exact run

theorem tokenConstraint_total {tokens : List UInt8} {constraints : List (Nat × Nat)} :
    ∀ {i : Nat}, i + constraints.length ≤ tokens.length →
      ∃ applies, tokenConstraint tokens i constraints = .ok applies := by
  induction constraints with
  | nil =>
    intro i _
    exact ⟨true,rfl⟩
  | cons constraint rest ih =>
    intro i inside
    rcases constraint with ⟨mask,value⟩
    simp only [List.length_cons] at inside
    have here : i < tokens.length := by omega
    have later := @ih (i + 1) (by omega)
    unfold tokenConstraint
    split
    · exact later
    · rw [List.getElem?_eq_getElem here]
      simp only
      split
      · exact later
      · exact ⟨false,rfl⟩

end Total

namespace Specification

variable {specification : Specification χ} {parse : Nat → List UInt8 → χ → Except Failure (Nat × Parsed × χ)}
variable {instStart : Nat}

-- What a call of a table gives: no match, or one inside of the tokens and of the table's bounds,
-- as long as its blocks.
def Answers (specification : Specification χ) (table : Nat) (tokens : List UInt8)
    (call : Except Failure (Nat × Parsed × χ)) : Prop :=
  Meets NoMatch (fun result => result.1 = result.2.1.len ∧ result.1 ≤ tokens.length ∧
    (specification.tableLen table).Within result.1) call

-- The calls of a block answer: the first one in the block's context, the others in any.
def Ready (specification : Specification χ) (parse : Nat → List UInt8 → χ → Except Failure (Nat × Parsed × χ))
    (tokens : List UInt8) : List Nat → χ → Prop
  | [], _ => True
  | table :: rest, context =>
    specification.Answers table tokens (parse table tokens context) ∧ ∀ after, Ready specification parse tokens rest after

theorem ready_all {tokens : List UInt8} {tables : List Nat}
    (answers : ∀ table ∈ tables, ∀ context, specification.Answers table tokens (parse table tokens context)) :
    ∀ context, specification.Ready parse tokens tables context := by
  induction tables with
  | nil =>
    intro context
    trivial
  | cons table rest ih =>
    intro context
    refine ⟨answers table (List.mem_cons_self ..) context,?_⟩
    exact ih fun other member => answers other (List.mem_cons_of_mem _ member)

def Fits (specification : Specification χ) (table : Nat) (parsed : Parsed) : Prop :=
  (specification.tableLen table).Within parsed.len

-- The tables of a block, each within its bounds.
theorem build_meets {verifications : List (Verification χ)}
    (plain : ∀ closure, .subPattern closure ∉ verifications) :
    ∀ (blockLen : Nat) (tables : List Parsed) (matching : Matching χ Parsed),
      specification.Ready parse matching.tokens (tableIds verifications) matching.context →
      Meets NoMatch (fun result => ∃ more context, result.2.1 = tables ++ more ∧
        result.2.2 = { matching with context := context } ∧ result.1 = max blockLen (tablesLen more) ∧
        List.Forall₂ specification.Fits (tableIds verifications) more)
      (build parse blockLen tables matching verifications) := by
  induction verifications with
  | nil =>
    intro blockLen tables matching _
    exact ⟨[],matching.context,(List.append_nil _).symm,rfl,(Nat.max_zero _).symm,List.Forall₂.nil⟩
  | cons verification rest ih =>
    intro blockLen tables matching ready
    have later := ih fun closure member => plain closure (List.mem_cons_of_mem _ member)
    cases verification with
    | contextCheck id op value => exact later blockLen tables matching ready
    | tokenFieldCheck id op value => exact later blockLen tables matching ready
    | subPattern closure => exact absurd (List.mem_cons_self ..) (plain closure)
    | tableBuild table =>
      obtain ⟨answer,others⟩ := ready
      apply meets_bind answer
      intro result found
      rcases result with ⟨len,parsed,context⟩
      obtain ⟨isLen,_,within⟩ := found
      apply meets_mono (later (max blockLen len) (tables ++ [parsed]) { matching with context := context } (others context))
      intro result built
      obtain ⟨more,after,isTables,isMatching,isBlockLen,fits⟩ := built
      refine ⟨parsed :: more,after,?_,isMatching,?_,?_⟩
      · rw [isTables,List.append_assoc]
        rfl
      · rw [isBlockLen]
        have longest : tablesLen (parsed :: more) = max parsed.len (tablesLen more) := by rw [tablesLen]
        change len = parsed.len at isLen
        rw [longest,isLen,Nat.max_assoc]
      · refine List.Forall₂.cons ?_ fits
        change (specification.tableLen table).Within parsed.len
        change len = parsed.len at isLen
        rw [← isLen]
        exact within

theorem fits_lens {tables : List Nat} {parsed : List Parsed} (fits : List.Forall₂ specification.Fits tables parsed) :
    (∀ table ∈ tables, (specification.tableLen table).least ≤ tablesLen parsed) ∧
      ∀ most, (∀ table ∈ tables, ∃ tableMost, (specification.tableLen table).greatest = some tableMost ∧
        tableMost ≤ most) → tablesLen parsed ≤ most := by
  induction fits with
  | nil =>
    refine ⟨fun _ member => absurd member List.not_mem_nil,?_⟩
    intro most _
    rw [tablesLen]
    exact Nat.zero_le _
  | cons within _ ih =>
    rename_i table _ _ _ _
    obtain ⟨least,greatest⟩ := ih
    refine ⟨?_,?_⟩
    · intro other member
      rw [tablesLen]
      rcases List.mem_cons.mp member with rfl | member
      · exact Nat.le_trans within.1 (Nat.le_max_left _ _)
      · exact Nat.le_trans (least other member) (Nat.le_max_right _ _)
    · intro most bounded
      rw [tablesLen]
      obtain ⟨tableMost,isMost,small⟩ := bounded table (List.mem_cons_self ..)
      apply Nat.max_le.mpr
      exact ⟨Nat.le_trans (within.2 tableMost isMost) small,
        greatest most fun other member => bounded other (List.mem_cons_of_mem _ member)⟩

theorem block_len {table : Nat} {constructor : Constructor χ} {block : AndBlock χ} {parsed : List Parsed}
    (isConstructor : constructor ∈ specification.constructors table) (isBlock : .and block ∈ constructor.blocks)
    (own : ∀ id, block.ReadsField id → (specification.tokenField id).tokenLen ≤ block.own)
    (fits : List.Forall₂ specification.Fits (tableIds block.verifications) parsed) :
    max block.len.least (tablesLen parsed) = max block.own (tablesLen parsed) ∧
      block.len.Within (max block.len.least (tablesLen parsed)) := by
  obtain ⟨least,greatest⟩ := fits_lens fits
  have ownLeast := (block_least isConstructor isBlock).1
  have covered : block.len.least ≤ max block.own (tablesLen parsed) := by
    rw [specification.blockLens table constructor isConstructor block isBlock]
    apply (PatternLen.greater_fold_least _ _).2.2
    · exact Nat.le_max_left _ _
    · intro len member
      obtain ⟨verification,isVerification,rfl⟩ := List.mem_map.mp member
      cases verification with
      | contextCheck id op value => exact Nat.zero_le _
      | tokenFieldCheck id op value =>
        exact Nat.le_trans (own id (Or.inl ⟨op,value,isVerification⟩)) (Nat.le_max_left _ _)
      | tableBuild called =>
        exact Nat.le_trans (least called (tableBuild_mem isVerification)) (Nat.le_max_right _ _)
      | subPattern closure => exact Nat.zero_le _
  have same : max block.len.least (tablesLen parsed) = max block.own (tablesLen parsed) := by
    apply Nat.le_antisymm
    · exact Nat.max_le.mpr ⟨covered,Nat.le_max_right _ _⟩
    · exact Nat.max_le.mpr ⟨Nat.le_trans ownLeast (Nat.le_max_left _ _),Nat.le_max_right _ _⟩
  refine ⟨same,Nat.le_max_left _ _,?_⟩
  intro most bounded
  obtain ⟨ownMost,tables⟩ := block_greatest isConstructor isBlock bounded
  rw [same]
  exact Nat.max_le.mpr ⟨ownMost,greatest most tables⟩

end Specification

end Rsleigh.Decode
