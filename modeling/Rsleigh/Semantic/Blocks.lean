import Rsleigh.Lib.Rewriting
import Rsleigh.Lib.Trace

namespace Rsleigh.Semantic

inductive BranchCall where
  | goto
  | call
  | ret
deriving DecidableEq, Repr

-- P stands for what a statement computes, C for a condition.
section Syntax

variable (P C : Type)

inductive BranchDst where
  | label (name : String)
  | cpu (dst : P)
deriving DecidableEq, Repr

-- A statement of a body as parsed. Delayslot, Build, Declare, Assignment and
-- MemWrite all become one statement of the current block.
inductive RawStatement where
  | label (name : String)
  | exported (value : P)
  | branch (cond : Option C) (kind : BranchCall) (dst : BranchDst P)
  | plain (statement : P)
deriving DecidableEq, Repr

inductive Statement where
  | plain (statement : P)
  | exported (value : P)
  | cpuBranch (cond : Option C) (kind : BranchCall) (dst : P)
  | localGoto (cond : Option C) (dst : Nat)
deriving DecidableEq, Repr

structure Block where
  name : Option String
  next : Option Nat
  statements : List (Statement P C)
deriving DecidableEq, Repr

structure Execution where
  blocks : List (Block P C)
  current : Nat
deriving DecidableEq, Repr

end Syntax

inductive ExecutionError where
  | duplicatedLabel (name : String)
  | missingLabel (name : String)
  | invalidLocalGoto
  | multipleNext (old : Nat)
deriving DecidableEq, Repr

variable {P C σ : Type}

def newEmpty : Execution P C := ⟨[⟨none,none,[]⟩],0⟩

def blockByName (blocks : List (Block P C)) (name : String) : Option Nat :=
  blocks.findIdx? fun block => block.name == some name

def newBlock (exec : Execution P C) (name : String) : Option (Execution P C) :=
  if (blockByName exec.blocks name).isSome then none
  else some { exec with blocks := exec.blocks ++ [⟨some name,none,[]⟩] }

-- `set_current_block`: the old block falls through into the new one. The source
-- panics when it already had a successor.
def setCurrentBlock (exec : Execution P C) (block : Nat) : Except ExecutionError (Execution P C) :=
  match exec.blocks[exec.current]?.bind (·.next) with
  | some old => .error (.multipleNext old)
  | none => .ok ⟨exec.blocks.modify exec.current fun b => { b with next := some block },block⟩

def insertStatement (exec : Execution P C) (statement : Statement P C) : Execution P C :=
  { exec with blocks := exec.blocks.modify exec.current fun b => { b with statements := b.statements ++ [statement] } }

def newLocalGoto (exec : Execution P C) (cond : Option C) (kind : BranchCall) (name : String) :
    Except ExecutionError (Statement P C) :=
  if kind ≠ .goto then .error .invalidLocalGoto
  else match blockByName exec.blocks name with
    | none => .error (.missingLabel name)
    | some dst => .ok (.localGoto cond dst)

def createBlocks (exec : Execution P C) : List (RawStatement P C) → Except ExecutionError (Execution P C)
  | [] => .ok exec
  | .label name :: rest =>
    match newBlock exec name with
    | none => .error (.duplicatedLabel name)
    | some exec => createBlocks exec rest
  | _ :: rest => createBlocks exec rest

def addStatement (exec : Execution P C) : RawStatement P C → Except ExecutionError (Execution P C)
  | .label name =>
    match blockByName exec.blocks name with
    | none => .error (.missingLabel name)
    | some block => setCurrentBlock exec block
  | .exported value => .ok (insertStatement exec (.exported value))
  | .plain statement => .ok (insertStatement exec (.plain statement))
  | .branch cond kind (.label name) => (newLocalGoto exec cond kind name).map (insertStatement exec)
  | .branch cond kind (.cpu dst) => .ok (insertStatement exec (.cpuBranch cond kind dst))

-- What the last statement of a block does to it.
def closeBlock (block : Block P C) : Block P C :=
  match block.statements.getLast? with
  | some (.localGoto none dst) => { block with next := some dst, statements := block.statements.dropLast }
  | some (.exported _) | some (.cpuBranch none _ _) => { block with next := none }
  | _ => block

def extend (exec : Execution P C) (input : List (RawStatement P C)) : Except ExecutionError (Execution P C) := do
  let created ← createBlocks exec input
  let filled ← input.foldlM addStatement created
  return { filled with blocks := filled.blocks.map closeBlock }

-- What is emitted for a statement: its own ops, or a transfer. The destination
-- of a local goto is the number of a block.
inductive Op (P C : Type) where
  | run (statement : P)
  | branch (block : Nat)
  | cbranch (block : Nat) (cond : C)
  | leave (dst : P)
  | cleave (dst : P) (cond : C)
deriving DecidableEq, Repr

-- `gen_branch` tests the condition only for a goto.
def genBranch (cond : Option C) (kind : BranchCall) (dst : P) : Op P C :=
  match cond,kind with
  | some cond,.goto => .cleave dst cond
  | _,_ => .leave dst

def genStatement : Statement P C → Op P C
  | .plain statement => .run statement
  | .exported value => .run value
  | .cpuBranch cond kind dst => genBranch cond kind dst
  | .localGoto none dst => .branch dst
  | .localGoto (some cond) dst => .cbranch dst cond

def genBlock (block : Block P C) : List (Op P C) := block.statements.map genStatement

-- Every block in order; `next` is not looked at.
def genBlocks (blocks : List (Block P C)) : List (Op P C) := blocks.flatMap genBlock

def labels : List (RawStatement P C) → List String
  | [] => []
  | .label name :: rest => name :: labels rest
  | _ :: rest => labels rest

-- The block a label names: blocks are made in the order of the labels, after the
-- entry block.
def blockId (names : List String) (name : String) : Nat := names.idxOf name + 1

def convert (names : List String) : RawStatement P C → Statement P C
  | .label _ => .localGoto none 0
  | .exported value => .exported value
  | .plain statement => .plain statement
  | .branch cond _ (.label name) => .localGoto cond (blockId names name)
  | .branch cond kind (.cpu dst) => .cpuBranch cond kind dst

-- The blocks of a body, written as one recursion over its statements.
def buildBlocks (names : List String) (current : Nat) (name : Option String) (done : List (Statement P C)) :
    List (RawStatement P C) → List (Block P C)
  | [] => [⟨name,none,done⟩]
  | .label next :: rest =>
    ⟨name,some (current + 1),done⟩ :: buildBlocks names (current + 1) (some next) [] rest
  | statement :: rest => buildBlocks names current name (done ++ [convert names statement]) rest

-- Local gotos of the body that resolve.
def Resolved (names : List String) (body : List (RawStatement P C)) : Prop :=
  ∀ cond kind name, .branch cond kind (.label name) ∈ body → kind = .goto ∧ name ∈ names

-- The blocks of the labels are made when no label comes twice.
theorem createBlocks_iff {exec created : Execution P C} : createBlocks exec body = .ok created ↔
    (labels body).Nodup ∧ (∀ name ∈ labels body, ∀ block ∈ exec.blocks, block.name ≠ some name) ∧
      created = ⟨exec.blocks ++ (labels body).map fun name => ⟨some name,none,[]⟩,exec.current⟩ := by
  induction body generalizing exec with
  | nil => simp [createBlocks,labels,eq_comm]
  | cons statement rest ih =>
    cases statement with
    | label name =>
      simp only [createBlocks,newBlock,labels,List.nodup_cons,List.mem_cons]
      by_cases used : ∃ block ∈ exec.blocks, block.name = some name
      · have found : (blockByName exec.blocks name).isSome = true := by
          simpa [blockByName,List.findIdx?_isSome] using used
        simp only [found,if_true]
        constructor
        · intro failed
          cases failed
        · rintro ⟨-,absent,-⟩
          obtain ⟨block,inside,named⟩ := used
          exact absurd named (absent name (.inl rfl) block inside)
      · have absent : ∀ block ∈ exec.blocks, block.name ≠ some name := fun block inside named =>
          used ⟨block,inside,named⟩
        have found : (blockByName exec.blocks name).isSome = false := by
          simpa [blockByName,List.findIdx?_isSome] using absent
        simp only [found,Bool.false_eq_true,if_false,ih,List.mem_append,List.mem_singleton]
        constructor
        · rintro ⟨distinct,outside,rfl⟩
          refine ⟨⟨fun member => outside name member ⟨some name,none,[]⟩ (.inr rfl) rfl,distinct⟩,?_,by simp⟩
          rintro other (rfl | member) block inside
          · exact absent block inside
          · exact outside other member block (.inl inside)
        · rintro ⟨⟨single,distinct⟩,outside,rfl⟩
          refine ⟨distinct,?_,by simp⟩
          rintro other member block (inside | rfl)
          · exact outside other (.inr member) block inside
          · intro equal
            obtain rfl := Option.some.inj equal
            exact single member
    | _ => exact ih

theorem bind_ok_iff {ε α β : Type} {b : β} {x : Except ε α} {f : α → Except ε β} :
    x >>= f = .ok b ↔ ∃ a, x = .ok a ∧ f a = .ok b := by
  cases x with
  | error e => exact ⟨fun ok => (by cases ok),fun ⟨_,ok,_⟩ => (by cases ok)⟩
  | ok a => exact ⟨fun ok => ⟨a,rfl,ok⟩,fun ⟨_,equal,ok⟩ => Except.ok.inj equal ▸ ok⟩

section Fill

variable {names : List String} {blocks : List (Block P C)} {exec filled : Execution P C}

theorem blockByName_map (blocks : List (Block P C)) (name : String) :
    blockByName blocks name = (blocks.map (·.name)).findIdx? (· == some name) := by
  rw [blockByName,List.findIdx?_map]
  rfl

theorem blockByName_member (named : blocks.map Block.name = none :: names.map some) (member : name ∈ names) :
    blockByName blocks name = some (blockId names name) := by
  have found : names.findIdx? (· == name) = some (names.idxOf name) := by
    rw [List.findIdx?_eq_some_iff_findIdx_eq]
    exact ⟨List.idxOf_lt_length_iff.mpr member,rfl⟩
  have lifted : ((fun other => other == some name) ∘ some) = fun other : String => other == name := by
    funext other
    simp
  rw [blockByName_map,named,List.findIdx?_cons,List.findIdx?_map,lifted,found]
  rfl

theorem member_of_blockByName (named : blocks.map Block.name = none :: names.map some)
    (found : blockByName blocks name = some block) : name ∈ names := by
  rw [blockByName_map,named] at found
  by_contra missing
  have nowhere : (none :: names.map some).findIdx? (· == some name) = none := by
    rw [List.findIdx?_eq_none_iff]
    simpa using fun other member (equal : other = name) => missing (equal ▸ member)
  rw [nowhere] at found
  cases found

theorem resolved_iff {cond : Option C} : Resolved names [(.branch cond kind (.label name) : RawStatement P C)] ↔
    kind = .goto ∧ name ∈ names :=
  ⟨fun resolved => resolved cond kind name List.mem_cons_self,fun found cond' kind' name' member => by
    obtain ⟨rfl,rfl,rfl⟩ : cond' = cond ∧ kind' = kind ∧ name' = name := by simpa using member
    exact found⟩

theorem addStatement_iff {statement : RawStatement P C} (named : exec.blocks.map Block.name = none :: names.map some)
    (inside : ∀ name, statement ≠ .label name) : addStatement exec statement = .ok filled ↔
    Resolved names [statement] ∧ filled = insertStatement exec (convert names statement) := by
  cases statement with
  | label name => exact absurd rfl (inside name)
  | exported value => simp [addStatement,convert,Resolved,eq_comm]
  | plain statement => simp [addStatement,convert,Resolved,eq_comm]
  | branch cond kind dst =>
    cases dst with
    | cpu dst => simp [addStatement,convert,Resolved,eq_comm]
    | label name =>
      rw [resolved_iff,addStatement,newLocalGoto]
      by_cases goto : kind = .goto
      · by_cases member : name ∈ names
        · simp [goto,member,blockByName_member named member,convert,Except.map,eq_comm]
        · cases found : blockByName exec.blocks name with
          | none => simp [goto,member,Except.map]
          | some dst => exact absurd (member_of_blockByName named found) member
      · simp [goto,Except.map]

theorem resolved_cons {statement : RawStatement P C} : Resolved names (statement :: body) ↔
    Resolved names [statement] ∧ Resolved names body := by
  constructor
  · intro resolved
    refine ⟨fun cond kind name member => resolved cond kind name ?_,fun cond kind name member =>
      resolved cond kind name (List.mem_cons_of_mem _ member)⟩
    rw [List.mem_singleton.mp member]
    exact List.mem_cons_self
  · rintro ⟨first,rest⟩ cond kind name member
    rcases List.mem_cons.mp member with rfl | member
    · exact first cond kind name List.mem_cons_self
    · exact rest cond kind name member

theorem blockId_next {before : List (Block P C)} (distinct : names.Nodup)
    (named : (before.map Block.name) ++ name :: some next :: later = none :: names.map some) :
    next ∈ names ∧ blockId names next = before.length + 1 := by
  have place : (none :: names.map some)[before.length + 1]? = some (some next) := by
    rw [← named]
    simp
  rw [List.getElem?_cons_succ,List.getElem?_map,Option.map_eq_some_iff] at place
  obtain ⟨other,here,equal⟩ := place
  obtain rfl := Option.some.inj equal
  obtain ⟨inside,rfl⟩ := List.getElem?_eq_some_iff.mp here
  exact ⟨List.getElem_mem inside,by rw [blockId,distinct.idxOf_getElem _ inside]⟩

theorem addStatement_label {before : List (Block P C)} {done : List (Statement P C)} {later : List (Block P C)}
    (named : (before ++ ⟨name,none,done⟩ :: later).map Block.name = none :: names.map some)
    (member : next ∈ names) (id : blockId names next = before.length + 1) :
    addStatement ⟨before ++ ⟨name,none,done⟩ :: later,before.length⟩ (.label next) =
      .ok ⟨before ++ ⟨name,some (before.length + 1),done⟩ :: later,before.length + 1⟩ := by
  have unset : (before ++ ⟨name,none,done⟩ :: later)[before.length]?.bind Block.next = none := by simp
  simp only [addStatement,blockByName_member named member,id,setCurrentBlock,unset,Rewriting.modify_at]

-- Statements are added to the last open block; the blocks of later labels wait
-- behind it.
theorem fill_iff {before : List (Block P C)} {done : List (Statement P C)} (distinct : names.Nodup)
    (named : (before.map Block.name) ++ name :: (labels body).map some = none :: names.map some) :
    body.foldlM addStatement
      ⟨before ++ ⟨name,none,done⟩ :: (labels body).map (fun next => ⟨some next,none,[]⟩),before.length⟩ = .ok filled ↔
    Resolved names body ∧
      filled = ⟨before ++ buildBlocks names before.length name done body,before.length + (labels body).length⟩ := by
  induction body generalizing before name done with
  | nil =>
    have resolved : Resolved names ([] : List (RawStatement P C)) := fun _ _ _ member => by cases member
    simp only [resolved,true_and,List.foldlM_nil,labels,buildBlocks]
    exact ⟨fun ok => (Except.ok.inj ok).symm,fun equal => equal ▸ rfl⟩
  | cons statement rest ih =>
    have waiting : ((before ++ ⟨name,none,done⟩ :: (labels (statement :: rest)).map
        fun next => (⟨some next,none,[]⟩ : Block P C)).map Block.name) = none :: names.map some := by
      rw [← named]
      simp
    rw [List.foldlM_cons,bind_ok_iff,resolved_cons]
    by_cases label : ∃ next, statement = .label next
    · obtain ⟨next,rfl⟩ := label
      obtain ⟨member,id⟩ := blockId_next distinct named
      let closed : Block P C := ⟨name,some (before.length + 1),done⟩
      have named' : ((before ++ [closed]).map Block.name) ++ some next :: (labels rest).map some =
          none :: names.map some := by simpa [labels] using named
      have opened : (⟨before ++ closed :: (labels (.label next :: rest)).map
          (fun next => ⟨some next,none,[]⟩),before.length + 1⟩ : Execution P C) =
          ⟨(before ++ [closed]) ++ ⟨some next,none,[]⟩ :: (labels rest).map (fun next => ⟨some next,none,[]⟩),
            (before ++ [closed]).length⟩ := by simp [labels]
      have trivial : Resolved names [(.label next : RawStatement P C)] := by simp [Resolved]
      have built : before ++ buildBlocks names before.length name done (.label next :: rest) =
          (before ++ [closed]) ++ buildBlocks names (before ++ [closed]).length (some next) [] rest := by
        simp [buildBlocks,closed]
      have current : before.length + (labels (.label next :: rest)).length =
          (before ++ [closed]).length + (labels rest).length := by
        simp only [labels,List.length_append,List.length_cons,List.length_nil]
        omega
      simp only [addStatement_label waiting member id,Except.ok.injEq,exists_eq_left',trivial,true_and,built,current]
      rw [opened]
      exact ih named'
    · have inside : ∀ next, statement ≠ .label next := fun next equal => label ⟨next,equal⟩
      have same : labels (statement :: rest) = labels rest := by
        cases statement <;> first | rfl | exact absurd rfl (inside _)
      have built : buildBlocks names before.length name done (statement :: rest) =
          buildBlocks names before.length name (done ++ [convert names statement]) rest := by
        cases statement <;> first | rfl | exact absurd rfl (inside _)
      rw [same] at named waiting ⊢
      have added : ∀ exec, addStatement ⟨before ++ ⟨name,none,done⟩ :: (labels rest).map
          (fun next => ⟨some next,none,[]⟩),before.length⟩ statement = .ok exec ↔ _ :=
        fun _ => addStatement_iff waiting inside
      simp only [added,insertStatement,Rewriting.modify_at,built]
      constructor
      · rintro ⟨_,⟨here,rfl⟩,filling⟩
        rw [ih named] at filling
        exact ⟨⟨here,filling.1⟩,filling.2⟩
      · rintro ⟨⟨here,later⟩,rfl⟩
        exact ⟨_,⟨here,rfl⟩,(ih named).mpr ⟨later,rfl⟩⟩

end Fill

end Rsleigh.Semantic
