import Rsleigh.Semantic.Blocks
import Rsleigh.Semantic.Operands
import Rsleigh.Lib.Paths

namespace Rsleigh.Semantic.SubTables

open Variants Paths

-- What a statement computes: it builds a table, or its ops read the exports of some tables.
inductive Action (P : Type) where
  | build (table : Nat)
  | emit (reads : List Nat) (payload : P)
  deriving DecidableEq, Repr

structure Test (C : Type) where
  reads : List Nat
  payload : C
  deriving DecidableEq, Repr

section Syntax

variable (P C : Type)

abbrev BodyStatement := Statement (Action P) (Test C)

abbrev Body := List (Semantic.Block (Action P) (Test C))

-- The ops of an operand, or those of a statement.
inductive Piece (A : Type) where
  | sub (table : Nat) (ops : List A)
  | own (statement : BodyStatement P C)

-- A constructor that code was generated for.
structure Constructor (φ : Type) where
  pattern : Pattern φ
  execution : Option (Body P C)
  distinct : (keys (patternTables pattern)).Nodup
  generates : patternGenerates pattern = true

end Syntax

inductive Failure where
  | panic
  | compileError
  deriving DecidableEq, Repr

variable {P C A φ : Type}

def Action.reads : Action P → List Nat
  | .build _ => []
  | .emit reads _ => reads

def buildOf : BodyStatement P C → Option Nat
  | .plain (.build table) => some table
  | _ => none

-- The tables whose exports the ops of a statement read. The condition of a return is not lowered.
def statementReads : BodyStatement P C → List Nat
  | .plain action => action.reads
  | .exported action => action.reads
  | .cpuBranch (some cond) .goto dst => dst.reads ++ cond.reads
  | .cpuBranch (some cond) .call dst => dst.reads ++ cond.reads
  | .cpuBranch _ _ dst => dst.reads
  | .localGoto (some cond) _ => cond.reads
  | .localGoto none _ => []

def statements (blocks : Body P C) : List (BodyStatement P C) := blocks.flatMap Block.statements

-- Where a block starts among the statements.
def blockStart (blocks : Body P C) (block : Nat) : Nat := (statements (blocks.take block)).length

def explicitlyBuilt (blocks : Body P C) : List Nat := (statements blocks).filterMap buildOf

-- The first statement that builds a table.
def firstBuildIn (body : List (BodyStatement P C)) (table : Nat) : Nat := body.findIdx (buildOf · == some table)

def isOptional (pattern : Pattern φ) (table : Nat) : Bool :=
  (((patternTables pattern).find? (·.table == table)).map fun produced => !produced.always).getD false

section Lift

variable (offsetUnique : Nat → A → A) (lift : Nat → List A)

-- A field is an Option when its table is optional: `as_ref().unwrap()`.
def fieldLift (constructor : Constructor P C φ) (matched : List Nat) (table : Nat) : Except Failure (List A) :=
  if isOptional constructor.pattern table && table ∉ matched then .error .panic else .ok (lift table)

-- All operands are lifted once, up front, each with its own range of uniques.
def subtableCache (constructor : Constructor P C φ) (matched : List Nat) : List Nat → Nat → Except Failure (List (Nat × List A))
  | [], _ => .ok []
  | table :: rest, idx => do
    let ops ← fieldLift lift constructor matched table
    let cache ← subtableCache constructor matched rest (idx + 1)
    return (table, ops.map (offsetUnique ((idx + 1) * 0x10000))) :: cache

def cachedOps (cache : List (Nat × List A)) (table : Nat) : List A := (cache.lookup table).getD []

-- `gen_blocks`: a `build` takes what is cached and leaves nothing.
def genBody (cache : Nat → List A) : List (BodyStatement P C) → List (Piece P C A)
  | [] => []
  | statement :: rest =>
    match buildOf statement with
    | some table => .sub table (cache table) :: genBody (Function.update cache table []) rest
    | none => .own statement :: genBody cache rest

def genLift (constructor : Constructor P C φ) (matched : List Nat) (blocks : Body P C) :
    Except Failure (List (Piece P C A)) := do
  let cache ← subtableCache offsetUnique lift constructor matched (keys (tableFields constructor.pattern)) 0
  let implicit := cache.filter fun entry => entry.1 ∉ explicitlyBuilt blocks
  return implicit.map (fun entry => .sub entry.1 entry.2) ++ genBody (cachedOps cache) (statements blocks)

-- Without an execution `lift` is called on the field itself, which an Option does not have.
def genBuilds (constructor : Constructor P C φ) : List Nat → Except Failure (List (Piece P C A))
  | [] => .ok []
  | table :: rest => do
    if isOptional constructor.pattern table then .error .compileError
    else do
      let builds ← genBuilds constructor rest
      return .sub table (lift table) :: builds

def genExecution (constructor : Constructor P C φ) (matched : List Nat) : Except Failure (List (Piece P C A)) :=
  match constructor.execution with
  | some blocks => genLift offsetUnique lift constructor matched blocks
  | none => genBuilds lift constructor (keys (tableFields constructor.pattern))

end Lift

-- Where control can go after a statement, as a position among the statements.
def onward (blocks : Body P C) (place : Nat) : BodyStatement P C → List Nat
  | .plain _ => [place + 1]
  | .exported _ => [place + 1]
  | .cpuBranch (some _) .goto _ => [place + 1]
  | .cpuBranch _ _ _ => []
  | .localGoto none block => [blockStart blocks block]
  | .localGoto (some _) block => [blockStart blocks block, place + 1]

def StatementEdge (blocks : Body P C) (place after : Nat) : Prop :=
  ∃ statement, (statements blocks)[place]? = some statement ∧ after ∈ onward blocks place statement

-- The same in the lifted list, in which `implicit` operands stand before the body.
def PieceEdge (blocks : Body P C) (implicit : Nat) (pieces : List (Piece P C A)) (place after : Nat) : Prop :=
  (∃ table ops, pieces[place]? = some (.sub table ops) ∧ after = place + 1) ∨
    ∃ statement target, pieces[place]? = some (.own statement) ∧ target ∈ onward blocks (place - implicit) statement ∧
      after = implicit + target

-- The same ops, with other uniques.
def Renamed (offsetUnique : Nat → A → A) (ops renamed : List A) : Prop :=
  renamed = ops ∨ ∃ offset, renamed = ops.map (offsetUnique offset)

section Spec

variable (constructor : Constructor P C φ) (choice : Choice)

def matchedTables : List Nat := patternMatched constructor.pattern choice

def body : Body P C := constructor.execution.getD []

-- The operands without a `build`, in the order of the pattern.
def implicitOperands : List Nat :=
  (firstMentions (patternMentions constructor.pattern)).filter fun table =>
    table ∈ matchedTables constructor choice ∧ table ∉ explicitlyBuilt (body constructor)

def firstBuild (table : Nat) : Nat := firstBuildIn (statements (body constructor)) table

-- Where the ops of an operand belong.
def operandPlace (table : Nat) : Nat :=
  if table ∈ explicitlyBuilt (body constructor) then
    (implicitOperands constructor choice).length + firstBuild constructor table
  else (implicitOperands constructor choice).idxOf table

variable (offsetUnique : Nat → A → A) (lift : Nat → List A)

-- The ops of the matched operands stand once each where they belong, among the statements in their order, and on
-- every path before what reads the export.
structure EmittedInOrder (pieces : List (Piece P C A)) : Prop where
  length : pieces.length = (implicitOperands constructor choice).length + (statements (body constructor)).length
  own : ∀ place statement, pieces[place]? = some (.own statement) ↔
    (implicitOperands constructor choice).length ≤ place ∧ buildOf statement = none ∧
      (statements (body constructor))[place - (implicitOperands constructor choice).length]? = some statement
  operand : ∀ table ∈ matchedTables constructor choice, ∃ ops, pieces[operandPlace constructor choice table]? =
    some (.sub table ops) ∧ Renamed offsetUnique (lift table) ops
  once : ∀ place table ops, pieces[place]? = some (.sub table ops) →
    ops = [] ∨ table ∈ matchedTables constructor choice ∧ place = operandPlace constructor choice table
  early : ∀ table ∈ matchedTables constructor choice, lift table ≠ [] → ∀ place statement,
    pieces[place]? = some (.own statement) → table ∈ statementReads statement →
      Dominates (PieceEdge (body constructor) (implicitOperands constructor choice).length pieces) 0
        (operandPlace constructor choice table) place

-- When they do: every operand is matched, and without an execution none is optional; the first `build` of an operand
-- with ops is passed on every path through the body to a statement that reads the export.
def Orderly : Prop :=
  match constructor.execution with
  | none => ∀ produced ∈ patternTables constructor.pattern, produced.always = true
  | some blocks =>
    (∀ table ∈ patternMentions constructor.pattern, table ∈ matchedTables constructor choice) ∧
      ∀ table ∈ explicitlyBuilt blocks, table ∈ patternMentions constructor.pattern → lift table ≠ [] →
        ∀ place statement, (statements blocks)[place]? = some statement → table ∈ statementReads statement →
          Dominates (StatementEdge blocks) 0 (firstBuild constructor table) place

end Spec

section Cache

variable {constructor : Constructor P C φ} {choice : Choice} {offsetUnique : Nat → A → A} {lift : Nat → List A}
  {tables : List Nat} {cache : List (Nat × List A)}

theorem always_unique {pattern : Pattern φ} (distinct : (keys (patternTables pattern)).Nodup)
    {produced : ProducedTable} (member : produced ∈ patternTables pattern) :
    isOptional pattern produced.table = !produced.always := by
  unfold isOptional
  generalize patternTables pattern = tables at distinct member
  induction tables with
  | nil => cases member
  | cons first rest ih =>
    rw [keys_cons,List.nodup_cons] at distinct
    rw [List.find?_cons]
    rcases List.mem_cons.mp member with rfl | member
    · simp
    · have other : first.table ≠ produced.table := fun same =>
        distinct.1 (same ▸ List.mem_map_of_mem member)
      rw [beq_false_of_ne other]
      exact ih distinct.2 member

theorem required_matched (member : choice ∈ patternChoices constructor.pattern)
    (mentioned : table ∈ patternMentions constructor.pattern) (required : isOptional constructor.pattern table = false) :
    table ∈ matchedTables constructor choice := by
  obtain ⟨⟨_,always⟩,produced,rfl⟩ := List.mem_map.mp ((mem_patternTables _).mpr mentioned)
  rw [always_unique constructor.distinct produced] at required
  cases always with
  | false => cases required
  | true => exact patternAlways_matched _ constructor.generates choice member produced

theorem fieldLift_ok (member : choice ∈ patternChoices constructor.pattern)
    (mentioned : table ∈ patternMentions constructor.pattern) {ops : List A} :
    fieldLift lift constructor (matchedTables constructor choice) table = .ok ops ↔
      table ∈ matchedTables constructor choice ∧ ops = lift table := by
  unfold fieldLift
  by_cases isMatched : table ∈ matchedTables constructor choice
  · simp [isMatched,eq_comm]
  · have optional : isOptional constructor.pattern table = true := by
      cases optional : isOptional constructor.pattern table with
      | true => rfl
      | false => exact absurd (required_matched member mentioned optional) isMatched
    simp [isMatched,optional]

theorem subtableCache_ok (member : choice ∈ patternChoices constructor.pattern)
    (mentioned : ∀ table ∈ tables, table ∈ patternMentions constructor.pattern) (idx : Nat) :
    (∃ cache, subtableCache offsetUnique lift constructor (matchedTables constructor choice) tables idx = .ok cache) ↔
      ∀ table ∈ tables, table ∈ matchedTables constructor choice := by
  induction tables generalizing idx with
  | nil => exact ⟨fun _ table isTable => absurd isTable List.not_mem_nil,fun _ => ⟨[],rfl⟩⟩
  | cons first rest ih =>
    have later := ih (fun table isTable => mentioned table (List.mem_cons_of_mem _ isTable)) (idx + 1)
    have here := @fieldLift_ok _ _ _ _ constructor choice lift first member (mentioned first List.mem_cons_self)
    simp only [subtableCache,bind_ok_iff]
    constructor
    · rintro ⟨cache,ops,isOps,restCache,isRest,_⟩ table isTable
      rcases List.mem_cons.mp isTable with rfl | isTable
      · exact (here.mp isOps).1
      · exact later.mp ⟨restCache,isRest⟩ table isTable
    · intro matched
      obtain ⟨restCache,isRest⟩ := later.mpr fun table isTable => matched table (List.mem_cons_of_mem _ isTable)
      exact ⟨_,_,here.mpr ⟨matched first List.mem_cons_self,rfl⟩,restCache,isRest,rfl⟩

theorem subtableCache_entries (member : choice ∈ patternChoices constructor.pattern)
    (mentioned : ∀ table ∈ tables, table ∈ patternMentions constructor.pattern) {idx : Nat}
    (isCache : subtableCache offsetUnique lift constructor (matchedTables constructor choice) tables idx = .ok cache) :
    cache.map Prod.fst = tables ∧ ∀ entry ∈ cache, ∃ offset, entry.2 = (lift entry.1).map (offsetUnique offset) := by
  induction tables generalizing idx cache with
  | nil =>
    obtain rfl := Except.ok.inj isCache
    exact ⟨rfl,fun entry isEntry => absurd isEntry List.not_mem_nil⟩
  | cons first rest ih =>
    simp only [subtableCache,bind_ok_iff] at isCache
    obtain ⟨ops,isOps,restCache,isRest,isWhole⟩ := isCache
    obtain rfl := Except.ok.inj isWhole
    obtain ⟨_,rfl⟩ := (fieldLift_ok member (mentioned first List.mem_cons_self)).mp isOps
    obtain ⟨restTables,entries⟩ := ih (fun table isTable =>
      mentioned table (List.mem_cons_of_mem _ isTable)) isRest
    refine ⟨by simp [restTables],fun entry isEntry => ?_⟩
    rcases List.mem_cons.mp isEntry with rfl | isEntry
    · exact ⟨_,rfl⟩
    · exact entries entry isEntry

theorem cachedOps_entry (distinct : (cache.map Prod.fst).Nodup) (isEntry : entry ∈ cache) :
    cachedOps cache entry.1 = entry.2 := by
  unfold cachedOps
  induction cache with
  | nil => cases isEntry
  | cons first rest ih =>
    rw [List.map_cons,List.nodup_cons] at distinct
    rw [List.lookup_cons]
    rcases List.mem_cons.mp isEntry with rfl | isEntry
    · simp
    · have other : entry.1 ≠ first.1 := fun same => distinct.1 (same ▸ List.mem_map_of_mem isEntry)
      rw [beq_false_of_ne other]
      exact ih distinct.2 isEntry

theorem cachedOps_absent (absent : table ∉ cache.map Prod.fst) : cachedOps cache table = [] := by
  unfold cachedOps
  rw [List.lookup_eq_none_iff.mpr]
  · rfl
  · intro entry isEntry
    have other : table ≠ entry.1 := fun same => absent (List.mem_map.mpr ⟨entry,isEntry,same.symm⟩)
    exact bne_iff_ne.mpr other

end Cache

section Emission

variable {cache : Nat → List A} {body : List (BodyStatement P C)}

theorem firstBuildIn_same {statement : BodyStatement P C} (isBuild : buildOf statement = some table) :
    firstBuildIn (statement :: body) table = 0 := by
  simp [firstBuildIn,List.findIdx_cons,isBuild]

theorem firstBuildIn_other {statement : BodyStatement P C} (other : buildOf statement ≠ some table) :
    firstBuildIn (statement :: body) table = firstBuildIn body table + 1 := by
  simp [firstBuildIn,List.findIdx_cons,beq_false_of_ne other]

theorem genBody_length : (genBody cache body : List (Piece P C A)).length = body.length := by
  induction body generalizing cache with
  | nil => rfl
  | cons statement rest ih =>
    unfold genBody
    split <;> rw [List.length_cons,ih,List.length_cons]

theorem genBody_own {place : Nat} {statement : BodyStatement P C} :
    (genBody cache body)[place]? = some (.own statement) ↔ buildOf statement = none ∧ body[place]? = some statement := by
  induction body generalizing cache place with
  | nil => simp [genBody]
  | cons first rest ih =>
    unfold genBody
    cases isBuild : buildOf first with
    | none =>
      cases place with
      | zero =>
        simp only [List.getElem?_cons_zero,Option.some.injEq,Piece.own.injEq]
        exact ⟨fun same => ⟨same ▸ isBuild,same⟩,And.right⟩
      | succ place => simpa using ih
    | some table =>
      cases place with
      | zero =>
        simp only [List.getElem?_cons_zero,Option.some.injEq]
        constructor
        · intro same
          cases same
        · rintro ⟨noBuild,rfl⟩
          rw [isBuild] at noBuild
          cases noBuild
      | succ place => simpa using ih

theorem genBody_sub {place table : Nat} {ops : List A} :
    (genBody cache body)[place]? = some (.sub table ops) ↔ ∃ statement, body[place]? = some statement ∧
      buildOf statement = some table ∧ ops = if firstBuildIn body table = place then cache table else [] := by
  induction body generalizing cache place with
  | nil => simp [genBody]
  | cons first rest ih =>
    unfold genBody
    cases isBuild : buildOf first with
    | none =>
      have other : buildOf first ≠ some table := by simp [isBuild]
      cases place with
      | zero => simp [isBuild]
      | succ place => simpa [firstBuildIn_other other] using ih
    | some built =>
      cases place with
      | zero =>
        simp only [List.getElem?_cons_zero,Option.some.injEq,Piece.sub.injEq]
        constructor
        · rintro ⟨rfl,rfl⟩
          exact ⟨first,rfl,isBuild,by rw [firstBuildIn_same isBuild,if_pos rfl]⟩
        · rintro ⟨_,rfl,isSame,rfl⟩
          obtain rfl := Option.some.inj (isBuild.symm.trans isSame)
          rw [firstBuildIn_same isBuild,if_pos rfl]
          exact ⟨rfl,rfl⟩
      | succ place =>
        simp only [List.getElem?_cons_succ,ih]
        by_cases same : built = table
        · subst same
          simp [firstBuildIn_same isBuild]
        · have other : buildOf first ≠ some table := by simpa [isBuild] using same
          simp [firstBuildIn_other other,Function.update_of_ne (Ne.symm same)]

theorem mem_explicitlyBuilt {blocks : Body P C} {table : Nat} :
    table ∈ explicitlyBuilt blocks ↔ ∃ statement ∈ statements blocks, buildOf statement = some table :=
  List.mem_filterMap

-- The first `build` of a table that has one.
theorem firstBuildIn_built {statement : BodyStatement P C} (member : statement ∈ body)
    (isBuild : buildOf statement = some table) :
    ∃ found, body[firstBuildIn body table]? = some found ∧ buildOf found = some table := by
  have inside : body.findIdx (buildOf · == some table) < body.length :=
    List.findIdx_lt_length_of_exists ⟨statement,member,by simp [isBuild]⟩
  exact ⟨_,List.getElem?_eq_getElem inside,by simpa using List.findIdx_getElem (w := inside)⟩

end Emission

section Laid

variable {constructor : Constructor P C φ} {choice : Choice} {offsetUnique : Nat → A → A} {lift : Nat → List A}
  {cache : List (Nat × List A)}

-- The list that is made of the cached operands.
def laidOut (constructor : Constructor P C φ) (cache : List (Nat × List A)) : List (Piece P C A) :=
  (cache.filter fun entry => entry.1 ∉ explicitlyBuilt (body constructor)).map (fun entry => .sub entry.1 entry.2) ++
    genBody (cachedOps cache) (statements (body constructor))

-- Every operand is matched and in the cache.
structure Filled (constructor : Constructor P C φ) (choice : Choice) (offsetUnique : Nat → A → A)
    (lift : Nat → List A) (cache : List (Nat × List A)) : Prop where
  tables : cache.map Prod.fst = firstMentions (patternMentions constructor.pattern)
  matched : ∀ table ∈ patternMentions constructor.pattern, table ∈ matchedTables constructor choice
  renamed : ∀ entry ∈ cache, Renamed offsetUnique (lift entry.1) entry.2

variable (filled : Filled constructor choice offsetUnique lift cache)

include filled

theorem Filled.distinct : (cache.map Prod.fst).Nodup := filled.tables ▸ firstMentions_nodup _

theorem Filled.entry (isMatched : table ∈ matchedTables constructor choice) :
    (table,cachedOps cache table) ∈ cache ∧ Renamed offsetUnique (lift table) (cachedOps cache table) := by
  have listed : table ∈ cache.map Prod.fst :=
    filled.tables ▸ mem_firstMentions.mpr (patternMatched_mentions _ _ isMatched)
  obtain ⟨⟨_,ops⟩,isEntry,rfl⟩ := List.mem_map.mp listed
  have same := cachedOps_entry filled.distinct isEntry
  have isRenamed := filled.renamed _ isEntry
  simp only at same isRenamed ⊢
  rw [same]
  exact ⟨isEntry,isRenamed⟩

theorem Filled.implicit : (cache.filter fun entry => entry.1 ∉ explicitlyBuilt (body constructor)).map Prod.fst =
    implicitOperands constructor choice := by
  unfold implicitOperands
  rw [← filled.tables,List.filter_map]
  congr 1
  apply List.filter_congr
  intro entry isEntry
  have mentioned : entry.1 ∈ patternMentions constructor.pattern :=
    mem_firstMentions.mp (filled.tables ▸ List.mem_map_of_mem isEntry)
  simp [filled.matched _ mentioned]

theorem Filled.implicit_get {place : Nat} (inside : place < (implicitOperands constructor choice).length) :
    ∃ entry ∈ cache, (implicitOperands constructor choice)[place]? = some entry.1 ∧
      (laidOut constructor cache)[place]? = some (.sub entry.1 entry.2) := by
  rw [← filled.implicit,List.length_map] at inside
  refine ⟨_,List.mem_of_mem_filter (List.getElem_mem inside),?_,?_⟩
  · rw [← filled.implicit,List.getElem?_map,List.getElem?_eq_getElem inside]
    rfl
  · unfold laidOut
    rw [List.getElem?_append_left (by simpa using inside),List.getElem?_map,List.getElem?_eq_getElem inside]
    rfl

theorem Filled.body_get (place : Nat) :
    (laidOut constructor cache)[(implicitOperands constructor choice).length + place]? =
      (genBody (cachedOps cache) (statements (body constructor)))[place]? := by
  have same : (implicitOperands constructor choice).length =
      ((cache.filter fun entry => entry.1 ∉ explicitlyBuilt (body constructor)).map
        (fun entry => (.sub entry.1 entry.2 : Piece P C A))).length := by
    rw [← filled.implicit,List.length_map,List.length_map]
  unfold laidOut
  rw [same,List.getElem?_append_right (Nat.le_add_right _ _),Nat.add_sub_cancel_left]

theorem Filled.own_iff {place : Nat} {statement : BodyStatement P C} :
    (laidOut constructor cache)[place]? = some (.own statement) ↔
      (implicitOperands constructor choice).length ≤ place ∧ buildOf statement = none ∧
        (statements (body constructor))[place - (implicitOperands constructor choice).length]? = some statement := by
  rcases Nat.lt_or_ge place (implicitOperands constructor choice).length with inside | outside
  · obtain ⟨entry,_,_,isSub⟩ := filled.implicit_get inside
    rw [isSub]
    simp [Nat.not_le_of_lt inside]
  · obtain ⟨offset,rfl⟩ := Nat.exists_eq_add_of_le outside
    rw [filled.body_get,genBody_own,Nat.add_sub_cancel_left]
    simp

theorem Filled.operand_get (isMatched : table ∈ matchedTables constructor choice) :
    (laidOut constructor cache)[operandPlace constructor choice table]? = some (.sub table (cachedOps cache table)) := by
  obtain ⟨isEntry,_⟩ := filled.entry isMatched
  unfold operandPlace
  split
  · rename_i built
    obtain ⟨statement,member,isBuild⟩ := mem_explicitlyBuilt.mp built
    obtain ⟨found,isFound,foundBuild⟩ := firstBuildIn_built member isBuild
    rw [filled.body_get,genBody_sub]
    exact ⟨found,isFound,foundBuild,by rw [firstBuild,if_pos rfl]⟩
  · rename_i unbuilt
    have listed : table ∈ implicitOperands constructor choice := by
      rw [← filled.implicit]
      exact List.mem_map.mpr ⟨_,List.mem_filter.mpr ⟨isEntry,by simpa using unbuilt⟩,rfl⟩
    obtain ⟨⟨other,ops⟩,member,isTable,isSub⟩ := filled.implicit_get (List.idxOf_lt_length_iff.mpr listed)
    rw [List.getElem?_eq_getElem (List.idxOf_lt_length_iff.mpr listed),List.getElem_idxOf] at isTable
    obtain rfl := Option.some.inj isTable
    have same := cachedOps_entry filled.distinct member
    rw [isSub]
    simp only at same ⊢
    rw [same]

theorem Filled.once {place : Nat} {ops : List A} (isSub : (laidOut constructor cache)[place]? = some (.sub table ops)) :
    ops = [] ∨ table ∈ matchedTables constructor choice ∧ place = operandPlace constructor choice table := by
  have inCache : ∀ entry ∈ cache, entry.1 ∈ matchedTables constructor choice := fun entry isEntry =>
    filled.matched _ (mem_firstMentions.mp (filled.tables ▸ List.mem_map_of_mem isEntry))
  rcases Nat.lt_or_ge place (implicitOperands constructor choice).length with inside | outside
  · obtain ⟨entry,isEntry,isTable,here⟩ := filled.implicit_get inside
    rw [here] at isSub
    simp only [Option.some.injEq,Piece.sub.injEq] at isSub
    obtain ⟨rfl,rfl⟩ := isSub
    refine .inr ⟨inCache entry isEntry,?_⟩
    rw [List.getElem?_eq_getElem inside] at isTable
    have listed : entry.1 ∈ implicitOperands constructor choice := Option.some.inj isTable ▸ List.getElem_mem inside
    have unbuilt : entry.1 ∉ explicitlyBuilt (body constructor) := by
      have kept := (List.mem_filter.mp listed).2
      simp only [decide_eq_true_eq] at kept
      exact kept.2
    have distinct : (implicitOperands constructor choice).Nodup := (firstMentions_nodup _).filter _
    unfold operandPlace
    rw [if_neg unbuilt,← Option.some.inj isTable,distinct.idxOf_getElem]
  · obtain ⟨offset,rfl⟩ := Nat.exists_eq_add_of_le outside
    rw [filled.body_get,genBody_sub] at isSub
    obtain ⟨statement,isStatement,isBuild,rfl⟩ := isSub
    split
    · rename_i isFirst
      by_cases known : table ∈ cache.map Prod.fst
      · obtain ⟨entry,isEntry,rfl⟩ := List.mem_map.mp known
        have built : entry.1 ∈ explicitlyBuilt (body constructor) :=
          mem_explicitlyBuilt.mpr ⟨statement,List.mem_of_getElem? isStatement,isBuild⟩
        refine .inr ⟨inCache entry isEntry,?_⟩
        unfold operandPlace
        rw [if_pos built,firstBuild,isFirst]
      · exact .inl (cachedOps_absent known)
    · exact .inl rfl

theorem Filled.leads (place after : Nat) (inside : place < (implicitOperands constructor choice).length) :
    PieceEdge (body constructor) (implicitOperands constructor choice).length (laidOut constructor cache) place after ↔
      after = place + 1 := by
  obtain ⟨entry,_,_,isSub⟩ := filled.implicit_get inside
  unfold PieceEdge
  rw [isSub]
  simp

theorem Filled.follows (place after : Nat) :
    PieceEdge (body constructor) (implicitOperands constructor choice).length (laidOut constructor cache)
      ((implicitOperands constructor choice).length + place) after ↔
        ∃ target, after = (implicitOperands constructor choice).length + target ∧
          StatementEdge (body constructor) place target := by
  unfold PieceEdge StatementEdge
  rw [filled.body_get]
  constructor
  · rintro (⟨table,ops,isSub,rfl⟩ | ⟨statement,target,isOwn,isTarget,rfl⟩)
    · obtain ⟨statement,isStatement,isBuild,_⟩ := genBody_sub.mp isSub
      refine ⟨place + 1,rfl,statement,isStatement,?_⟩
      cases statement with
      | plain action => exact List.mem_singleton_self _
      | _ => cases isBuild
    · obtain ⟨_,isStatement⟩ := genBody_own.mp isOwn
      rw [Nat.add_sub_cancel_left] at isTarget
      exact ⟨target,rfl,statement,isStatement,isTarget⟩
  · rintro ⟨target,rfl,statement,isStatement,isTarget⟩
    cases isBuild : buildOf statement with
    | none =>
      refine .inr ⟨statement,target,genBody_own.mpr ⟨isBuild,isStatement⟩,?_,rfl⟩
      rw [Nat.add_sub_cancel_left]
      exact isTarget
    | some table =>
      refine .inl ⟨table,_,genBody_sub.mpr ⟨statement,isStatement,isBuild,rfl⟩,?_⟩
      cases statement with
      | plain action => rw [List.mem_singleton.mp isTarget,Nat.add_assoc]
      | _ => cases isBuild

-- Only the operands with a `build` of their own can come late.
theorem Filled.emitted_iff : EmittedInOrder constructor choice offsetUnique lift (laidOut constructor cache) ↔
    ∀ table ∈ explicitlyBuilt (body constructor), table ∈ patternMentions constructor.pattern → lift table ≠ [] →
      ∀ place statement, (statements (body constructor))[place]? = some statement → table ∈ statementReads statement →
        Dominates (StatementEdge (body constructor)) 0 (firstBuild constructor table) place := by
  constructor
  · intro emitted table built mentioned some place statement isStatement reads
    have noBuild : buildOf statement = none := by
      cases statement with
      | plain action =>
        cases action with
        | build => cases reads
        | emit => rfl
      | _ => rfl
    have early := emitted.early table (filled.matched table mentioned) some
      ((implicitOperands constructor choice).length + place) statement
      (filled.own_iff.mpr ⟨Nat.le_add_right _ _,noBuild,by rw [Nat.add_sub_cancel_left]; exact isStatement⟩) reads
    unfold operandPlace at early
    rw [if_pos built] at early
    exact (dominates_after filled.leads filled.follows).mp early
  · intro passed
    refine ⟨?_,fun place statement => filled.own_iff,fun table isMatched => ⟨_,filled.operand_get isMatched,
      (filled.entry isMatched).2⟩,fun place table ops => filled.once,?_⟩
    · rw [laidOut,List.length_append,List.length_map,genBody_length,← filled.implicit,List.length_map]
    · intro table isMatched some place statement isOwn reads
      obtain ⟨outside,_,isStatement⟩ := filled.own_iff.mp isOwn
      obtain ⟨offset,rfl⟩ := Nat.exists_eq_add_of_le outside
      rw [Nat.add_sub_cancel_left] at isStatement
      have mentioned := patternMatched_mentions _ _ isMatched
      by_cases built : table ∈ explicitlyBuilt (body constructor)
      · have early := passed table built mentioned some offset statement isStatement reads
        unfold operandPlace
        rw [if_pos built]
        exact (dominates_after filled.leads filled.follows).mpr early
      · have listed : table ∈ implicitOperands constructor choice :=
          List.mem_filter.mpr ⟨mem_firstMentions.mpr mentioned,by simp [isMatched,built]⟩
        unfold operandPlace
        rw [if_neg built]
        exact dominates_line filled.leads filled.follows (List.idxOf_lt_length_iff.mpr listed)

end Laid

section Main

variable {constructor : Constructor P C φ} {choice : Choice} {offsetUnique : Nat → A → A} {lift : Nat → List A}

theorem fields_order (constructor : Constructor P C φ) :
    keys (tableFields constructor.pattern) = firstMentions (patternMentions constructor.pattern) :=
  tableFields_order constructor.distinct

theorem mem_fields : table ∈ keys (tableFields constructor.pattern) ↔ table ∈ patternMentions constructor.pattern := by
  rw [fields_order,mem_firstMentions]

theorem genBuilds_iff {tables : List Nat} {pieces : List (Piece P C A)} :
    genBuilds lift constructor tables = .ok pieces ↔
      (∀ table ∈ tables, isOptional constructor.pattern table = false) ∧
        pieces = tables.map fun table => .sub table (lift table) := by
  induction tables generalizing pieces with
  | nil =>
    constructor
    · exact fun isNil => ⟨fun table isTable => absurd isTable List.not_mem_nil,(Except.ok.inj isNil).symm⟩
    · rintro ⟨_,rfl⟩
      rfl
  | cons first rest ih =>
    unfold genBuilds
    cases optional : isOptional constructor.pattern first with
    | true => simp [optional]
    | false =>
      simp only [Bool.false_eq_true,if_false,bind_ok_iff,ih]
      constructor
      · rintro ⟨_,⟨required,rfl⟩,isWhole⟩
        obtain rfl := Except.ok.inj isWhole
        exact ⟨by simpa [optional] using required,rfl⟩
      · rintro ⟨required,rfl⟩
        exact ⟨_,⟨fun table isTable => required table (List.mem_cons_of_mem _ isTable),rfl⟩,rfl⟩

theorem genBuilds_inOrder (isNone : constructor.execution = none) (member : choice ∈ patternChoices constructor.pattern) :
    (∃ pieces, genBuilds lift constructor (keys (tableFields constructor.pattern)) = .ok pieces ∧
      EmittedInOrder constructor choice offsetUnique lift pieces) ↔
        ∀ produced ∈ patternTables constructor.pattern, produced.always = true := by
  have noBody : body constructor = [] := by rw [body,isNone]; rfl
  constructor
  · rintro ⟨pieces,isPieces,_⟩ produced isProduced
    have required := (genBuilds_iff.mp isPieces).1 produced.table
      (mem_fields.mpr ((mem_patternTables _).mp (List.mem_map_of_mem isProduced)))
    rw [always_unique constructor.distinct isProduced] at required
    simpa using required
  · intro always
    have required : ∀ table ∈ patternMentions constructor.pattern, isOptional constructor.pattern table = false := by
      intro table mentioned
      obtain ⟨produced,isProduced,rfl⟩ := List.mem_map.mp ((mem_patternTables _).mpr mentioned)
      rw [always_unique constructor.distinct isProduced,always produced isProduced]
      rfl
    have filled : Filled constructor choice offsetUnique lift
        ((keys (tableFields constructor.pattern)).map fun table => (table,lift table)) := by
      refine ⟨by simp [Function.comp_def,fields_order],fun table mentioned =>
        required_matched member mentioned (required table mentioned),fun entry isEntry => ?_⟩
      obtain ⟨table,_,rfl⟩ := List.mem_map.mp isEntry
      exact .inl rfl
    have same : laidOut constructor ((keys (tableFields constructor.pattern)).map fun table => (table,lift table)) =
        (keys (tableFields constructor.pattern)).map fun table => .sub table (lift table) := by
      simp [laidOut,noBody,explicitlyBuilt,statements,genBody]
    refine ⟨_,genBuilds_iff.mpr ⟨fun table isTable => required table (mem_fields.mp isTable),rfl⟩,?_⟩
    rw [← same,filled.emitted_iff,noBody]
    intro table built
    cases built

theorem genLift_inOrder {blocks : Body P C} (isSome : constructor.execution = some blocks)
    (member : choice ∈ patternChoices constructor.pattern) :
    (∃ pieces, genLift offsetUnique lift constructor (matchedTables constructor choice) blocks = .ok pieces ∧
      EmittedInOrder constructor choice offsetUnique lift pieces) ↔
        (∀ table ∈ patternMentions constructor.pattern, table ∈ matchedTables constructor choice) ∧
          ∀ table ∈ explicitlyBuilt blocks, table ∈ patternMentions constructor.pattern → lift table ≠ [] →
            ∀ place statement, (statements blocks)[place]? = some statement → table ∈ statementReads statement →
              Dominates (StatementEdge blocks) 0 (firstBuild constructor table) place := by
  have isBody : body constructor = blocks := by rw [body,isSome]; rfl
  have cached := @subtableCache_ok _ _ _ _ constructor choice offsetUnique lift _ member
    (fun table isTable => mem_fields.mp isTable) 0
  have lifted : ∀ {cache}, subtableCache offsetUnique lift constructor (matchedTables constructor choice)
      (keys (tableFields constructor.pattern)) 0 = .ok cache → Filled constructor choice offsetUnique lift cache := by
    intro cache isCache
    obtain ⟨tables,entries⟩ := subtableCache_entries member (fun table isTable => mem_fields.mp isTable) isCache
    exact ⟨tables.trans (fields_order _),fun table mentioned => cached.mp ⟨cache,isCache⟩ table (mem_fields.mpr mentioned),
      fun entry isEntry => .inr (entries entry isEntry)⟩
  simp only [genLift,bind_ok_iff]
  constructor
  · rintro ⟨pieces,⟨cache,isCache,isPieces⟩,emitted⟩
    obtain rfl := Except.ok.inj isPieces
    have filled := lifted isCache
    have same := filled.emitted_iff
    rw [laidOut,isBody] at same
    exact ⟨filled.matched,same.mp emitted⟩
  · rintro ⟨matched,passed⟩
    obtain ⟨cache,isCache⟩ := cached.mpr fun table isTable => matched table (mem_fields.mp isTable)
    have same := (lifted isCache).emitted_iff
    rw [laidOut,isBody] at same
    exact ⟨_,⟨cache,isCache,rfl⟩,same.mpr passed⟩

-- Whatever branches are taken and whatever the operands lift to.
theorem genExecution_inOrder (constructor : Constructor P C φ) (choice : Choice)
    (member : choice ∈ patternChoices constructor.pattern) (offsetUnique : Nat → A → A) (lift : Nat → List A) :
    (∃ pieces, genExecution offsetUnique lift constructor (matchedTables constructor choice) = .ok pieces ∧
      EmittedInOrder constructor choice offsetUnique lift pieces) ↔ Orderly constructor choice lift := by
  unfold genExecution Orderly
  cases isExecution : constructor.execution with
  | none => exact genBuilds_inOrder isExecution member
  | some blocks => exact genLift_inOrder isExecution member

-- Two operands; the second is built where the body says so, and then both are read.
def buildSecond : Constructor Unit Unit Unit where
  pattern := [.and () [.check (.tableBuild 0),.check (.tableBuild 1)]]
  execution := some [⟨none,none,[.plain (.build 1),.plain (.emit [0,1] ())]⟩]
  distinct := by decide
  generates := rfl

theorem genExecution_inOrder_second :
    ∃ pieces, genExecution (fun _ op => op) (fun table => [table]) buildSecond
        (matchedTables buildSecond (.both (.both .done (.both .done .done)) .done)) = .ok pieces ∧
      EmittedInOrder buildSecond (.both (.both .done (.both .done .done)) .done) (fun _ op => op)
        (fun table => [table]) pieces := by
  refine (genExecution_inOrder buildSecond _ (by decide) _ _).mpr ⟨by decide,?_⟩
  intro table built _ _ place statement _ _
  have isFirst : firstBuild buildSecond table = 0 := by
    rw [List.mem_singleton.mp built]
    rfl
  rw [isFirst]
  exact dominates_root _

-- An operand of one branch of an or, and a body that does nothing.
def oneBranch : Constructor Unit Unit Unit where
  pattern := [.or () (.subPattern [.and () [.check (.tableBuild 0)]])
    [.check (.contextCheck 0 .eq (.value (.integer 1)))]]
  execution := some [⟨none,none,[]⟩]
  distinct := by decide
  generates := by decide

theorem oneBranch_panics : .both (.branch 1 .done) .done ∈ patternChoices oneBranch.pattern ∧
    genExecution (fun _ op => op) (fun table => [table]) oneBranch
      (matchedTables oneBranch (.both (.branch 1 .done) .done)) = .error .panic ∧
    ¬ ∃ pieces, genExecution (fun _ op => op) (fun table => [table]) oneBranch
        (matchedTables oneBranch (.both (.branch 1 .done) .done)) = .ok pieces ∧
      EmittedInOrder oneBranch (.both (.branch 1 .done) .done) (fun _ op => op) (fun table => [table]) pieces := by
  have panics : genExecution (fun _ op => op) (fun table => [table]) oneBranch
      (matchedTables oneBranch (.both (.branch 1 .done) .done)) = .error .panic := by
    have fields : keys (tableFields oneBranch.pattern) = [0] := fields_order oneBranch
    change genLift _ _ _ _ [⟨none,none,[]⟩] = _
    unfold genLift
    rw [fields]
    rfl
  refine ⟨by decide,panics,?_⟩
  rintro ⟨pieces,isPieces,_⟩
  rw [panics] at isPieces
  cases isPieces

end Main

end Rsleigh.Semantic.SubTables
