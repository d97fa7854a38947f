import Rsleigh.Semantic.Variants

namespace Rsleigh.Semantic.Variants

variable {φ : Type}

-- A table that is built; `always` is off when a branch leaves it out.
structure ProducedTable where
  table : Nat
  always : Bool
  deriving DecidableEq, Repr

def keys (tables : List ProducedTable) : List Nat := tables.map ProducedTable.table

-- `HashMap::from_iter`: a later entry replaces an earlier one.
def insertTable (tables : List ProducedTable) (produced : ProducedTable) : List ProducedTable :=
  tables.filter (·.table ≠ produced.table) ++ [produced]

def collect (tables : List ProducedTable) : List ProducedTable := tables.foldl insertTable []

-- The next branch of an or: tables it adds are not always built, nor are those it has not.
def addMissing (tables : List ProducedTable) (produced : ProducedTable) : List ProducedTable :=
  if produced.table ∈ keys tables then tables else tables ++ [⟨produced.table, false⟩]

def addBranch (tables branch : List ProducedTable) : List ProducedTable :=
  (branch.foldl addMissing tables).map fun produced =>
    if produced.table ∈ keys branch then produced else { produced with always := false }

-- `BlockBase::tables` and `Pattern::tables`.
mutual

def Verification.tables : Verification φ → List ProducedTable
  | .check (.tableBuild table) => [⟨table, true⟩]
  | .check (.contextCheck _ _ _) => []
  | .check (.tokenFieldCheck _ _ _) => []
  | .subPattern pattern => patternTables pattern

def allTables : List (Verification φ) → List ProducedTable
  | [] => []
  | verification :: rest => verification.tables ++ allTables rest

def orTables (tables : List ProducedTable) : List (Verification φ) → List ProducedTable
  | [] => tables
  | branch :: rest => orTables (addBranch tables branch.tables) rest

def Block.tables : Block φ → List ProducedTable
  | .and _ verifications => collect (allTables verifications)
  | .or _ first rest => orTables first.tables rest

def patternTables : List (Block φ) → List ProducedTable
  | [] => []
  | block :: rest => block.tables ++ patternTables rest

end

-- `pattern_table_order`: the tables in the order of the pattern, each where it comes first.
def addOrdered (out : List Nat) (table : Nat) : List Nat := if table ∈ out then out else out ++ [table]

mutual

def Verification.tableOrder (out : List Nat) : Verification φ → List Nat
  | .check (.tableBuild table) => addOrdered out table
  | .check (.contextCheck _ _ _) => out
  | .check (.tokenFieldCheck _ _ _) => out
  | .subPattern pattern => patternTableOrder out pattern

def allTableOrder (out : List Nat) : List (Verification φ) → List Nat
  | [] => out
  | verification :: rest => allTableOrder (verification.tableOrder out) rest

def Block.tableOrder (out : List Nat) : Block φ → List Nat
  | .and _ verifications => allTableOrder out verifications
  | .or _ first rest => allTableOrder (first.tableOrder out) rest

def patternTableOrder (out : List Nat) : List (Block φ) → List Nat
  | [] => out
  | block :: rest => patternTableOrder (block.tableOrder out) rest

end

-- `table_fields`: block by block, in the order of the pattern; ids decide between tables it has not.
def before (order : List Nat) (a b : ProducedTable) : Bool :=
  order.idxOf a.table < order.idxOf b.table ∨ order.idxOf a.table = order.idxOf b.table ∧ a.table ≤ b.table

def tableFields (pattern : Pattern φ) : List ProducedTable :=
  pattern.flatMap fun block => block.tables.mergeSort (before (patternTableOrder [] pattern))

-- Whether code is generated for a pattern: no table directly in an or (a `todo!`), no table twice in the code of
-- a pattern, and no branch that may leave out a table of the or that is always built (both `unreachable!`).
mutual

def Verification.generates : Verification φ → Bool
  | .check _ => true
  | .subPattern pattern => patternGenerates pattern && (keys (patternTables pattern)).Nodup

def allGenerate : List (Verification φ) → Bool
  | [] => true
  | verification :: rest => verification.generates && allGenerate rest

def Verification.branchGenerates (tables : List ProducedTable) : Verification φ → Bool
  | .check (.tableBuild _) => false
  | .check (.contextCheck _ _ _) => tables.all fun produced => !produced.always
  | .check (.tokenFieldCheck _ _ _) => tables.all fun produced => !produced.always
  | .subPattern pattern => patternGenerates pattern && (keys (patternTables pattern)).Nodup &&
      tables.all fun produced => !produced.always || ⟨produced.table, true⟩ ∈ patternTables pattern

def branchesGenerate (tables : List ProducedTable) : List (Verification φ) → Bool
  | [] => true
  | branch :: rest => branch.branchGenerates tables && branchesGenerate tables rest

def Block.generates : Block φ → Bool
  | .and _ verifications => (keys (allTables verifications)).Nodup && allGenerate verifications
  | .or phase first rest => first.branchGenerates (Block.or phase first rest).tables &&
      branchesGenerate (Block.or phase first rest).tables rest

def patternGenerates : List (Block φ) → Bool
  | [] => true
  | block :: rest => block.generates && patternGenerates rest

end

-- The tables that are built when these branches are taken.
mutual

def Verification.matched : Verification φ → Choice → List Nat
  | .check (.tableBuild table), _ => [table]
  | .check (.contextCheck _ _ _), _ => []
  | .check (.tokenFieldCheck _ _ _), _ => []
  | .subPattern pattern, choice => patternMatched pattern choice

def allMatched : List (Verification φ) → Choice → List Nat
  | [], _ => []
  | verification :: rest, .both first later => verification.matched first ++ allMatched rest later
  | _ :: _, _ => []

def branchMatched : List (Verification φ) → Nat → Choice → List Nat
  | [], _, _ => []
  | branch :: _, 0, inner => branch.matched inner
  | _ :: rest, index + 1, inner => branchMatched rest index inner

def Block.matched : Block φ → Choice → List Nat
  | .and _ verifications, choice => allMatched verifications choice
  | .or _ first _, .branch 0 inner => first.matched inner
  | .or _ _ rest, .branch (index + 1) inner => branchMatched rest index inner
  | .or _ _ _, _ => []

def patternMatched : List (Block φ) → Choice → List Nat
  | [], _ => []
  | block :: rest, .both first later => block.matched first ++ patternMatched rest later
  | _ :: _, _ => []

end

-- All the tables of a pattern, in its order.
mutual

def Verification.mentions : Verification φ → List Nat
  | .check (.tableBuild table) => [table]
  | .check (.contextCheck _ _ _) => []
  | .check (.tokenFieldCheck _ _ _) => []
  | .subPattern pattern => patternMentions pattern

def allMentions : List (Verification φ) → List Nat
  | [] => []
  | verification :: rest => verification.mentions ++ allMentions rest

def Block.mentions : Block φ → List Nat
  | .and _ verifications => allMentions verifications
  | .or _ first rest => first.mentions ++ allMentions rest

def patternMentions : List (Block φ) → List Nat
  | [] => []
  | block :: rest => block.mentions ++ patternMentions rest

end

section Maps

variable {tables branch : List ProducedTable}

@[simp] theorem keys_nil : keys [] = [] := rfl

@[simp] theorem keys_cons (produced : ProducedTable) : keys (produced :: tables) = produced.table :: keys tables := rfl

@[simp] theorem keys_append : keys (tables ++ branch) = keys tables ++ keys branch := List.map_append

theorem insertTable_keys (produced : ProducedTable) :
    keys (insertTable tables produced) = (keys tables).filter (· ≠ produced.table) ++ [produced.table] := by
  unfold insertTable keys
  rw [List.map_append,List.filter_map]
  rfl

theorem insertTable_nodup {produced : ProducedTable} (nodup : (keys tables).Nodup) :
    (keys (insertTable tables produced)).Nodup := by
  rw [insertTable_keys]
  refine List.nodup_append.mpr ⟨nodup.filter _,List.pairwise_singleton _ _,fun table kept other same => ?_⟩
  rw [List.mem_singleton.mp same]
  simpa using (List.mem_filter.mp kept).2

theorem mem_insertTable {produced : ProducedTable} {table : Nat} :
    table ∈ keys (insertTable tables produced) ↔ table ∈ keys tables ∨ table = produced.table := by
  rw [insertTable_keys]
  by_cases same : table = produced.table <;> simp [same]

theorem collect_spec (produced tables : List ProducedTable) (nodup : (keys tables).Nodup) :
    (keys (produced.foldl insertTable tables)).Nodup ∧
      ∀ table, table ∈ keys (produced.foldl insertTable tables) ↔ table ∈ keys tables ∨ table ∈ keys produced := by
  induction produced generalizing tables with
  | nil => exact ⟨nodup,fun table => by simp⟩
  | cons first rest ih =>
    obtain ⟨distinct,members⟩ := ih (insertTable tables first) (insertTable_nodup nodup)
    refine ⟨distinct,fun table => ?_⟩
    rw [List.foldl_cons,members,mem_insertTable]
    simp [or_assoc]

theorem mem_collect {table : Nat} : table ∈ keys (collect tables) ↔ table ∈ keys tables := by
  unfold collect
  simpa using (collect_spec tables [] List.nodup_nil).2 table

theorem collect_distinct (nodup : (keys tables).Nodup) : collect tables = tables := by
  suffices general : ∀ before, (keys (before ++ tables)).Nodup → tables.foldl insertTable before = before ++ tables by
    exact general [] nodup
  clear nodup
  intro before
  induction tables generalizing before with
  | nil => simp
  | cons first rest ih =>
    intro distinct
    have untouched : insertTable before first = before ++ [first] := by
      unfold insertTable
      rw [List.filter_eq_self.mpr]
      intro other member
      rw [keys_append,List.nodup_append] at distinct
      simpa using distinct.2.2 other.table (List.mem_map_of_mem member) first.table List.mem_cons_self
    rw [List.foldl_cons,untouched,ih _ (by simpa using distinct)]
    simp

theorem mem_addMissing {produced : ProducedTable} {table : Nat} :
    table ∈ keys (addMissing tables produced) ↔ table ∈ keys tables ∨ table = produced.table := by
  unfold addMissing
  split
  · rename_i there
    exact ⟨Or.inl,fun found => found.elim (fun old => old) fun same => same ▸ there⟩
  · simp

theorem addBranch_keys : keys (addBranch tables branch) = keys (branch.foldl addMissing tables) := by
  unfold addBranch keys
  rw [List.map_map]
  apply List.map_congr_left
  intro produced _
  simp only [Function.comp_apply]
  split <;> rfl

theorem mem_addBranch {table : Nat} :
    table ∈ keys (addBranch tables branch) ↔ table ∈ keys tables ∨ table ∈ keys branch := by
  rw [addBranch_keys]
  induction branch generalizing tables with
  | nil => simp
  | cons first rest ih =>
    rw [List.foldl_cons,ih,mem_addMissing,keys_cons,List.mem_cons,or_assoc]

end Maps

-- A table is in the map of what mentions it.
mutual

theorem Verification.mem_tables {table : Nat} : ∀ verification : Verification φ,
    table ∈ keys verification.tables ↔ table ∈ verification.mentions
  | .check (.tableBuild _) => Iff.rfl
  | .check (.contextCheck _ _ _) => Iff.rfl
  | .check (.tokenFieldCheck _ _ _) => Iff.rfl
  | .subPattern pattern => mem_patternTables pattern

theorem mem_allTables {table : Nat} : ∀ verifications : List (Verification φ),
    table ∈ keys (allTables verifications) ↔ table ∈ allMentions verifications
  | [] => Iff.rfl
  | verification :: rest => by
    rw [allTables,keys_append,List.mem_append,verification.mem_tables,mem_allTables rest,allMentions,List.mem_append]

theorem mem_orTables {table : Nat} : ∀ (rest : List (Verification φ)) (tables : List ProducedTable),
    table ∈ keys (orTables tables rest) ↔ table ∈ keys tables ∨ table ∈ allMentions rest
  | [],_ => by simp [orTables,allMentions]
  | branch :: rest,tables => by
    rw [orTables,mem_orTables rest,mem_addBranch,branch.mem_tables,allMentions,List.mem_append,or_assoc]

theorem Block.mem_tables {table : Nat} : ∀ block : Block φ, table ∈ keys block.tables ↔ table ∈ block.mentions
  | .and _ verifications => by rw [Block.tables,mem_collect,mem_allTables verifications,Block.mentions]
  | .or _ first rest => by
    rw [Block.tables,mem_orTables rest,first.mem_tables,Block.mentions,List.mem_append]

theorem mem_patternTables {table : Nat} : ∀ pattern : List (Block φ),
    table ∈ keys (patternTables pattern) ↔ table ∈ patternMentions pattern
  | [] => Iff.rfl
  | block :: rest => by
    rw [patternTables,keys_append,List.mem_append,block.mem_tables,mem_patternTables rest,patternMentions,
      List.mem_append]

end

-- The walk over the pattern adds what it mentions, one table after the other.
mutual

theorem Verification.tableOrder_mentions : ∀ (verification : Verification φ) (out : List Nat),
    verification.tableOrder out = verification.mentions.foldl addOrdered out
  | .check (.tableBuild _),_ => rfl
  | .check (.contextCheck _ _ _),_ => rfl
  | .check (.tokenFieldCheck _ _ _),_ => rfl
  | .subPattern pattern,out => patternTableOrder_mentions pattern out

theorem allTableOrder_mentions : ∀ (verifications : List (Verification φ)) (out : List Nat),
    allTableOrder out verifications = (allMentions verifications).foldl addOrdered out
  | [],_ => rfl
  | verification :: rest,out => by
    rw [allTableOrder,allTableOrder_mentions rest,verification.tableOrder_mentions,allMentions,List.foldl_append]

theorem Block.tableOrder_mentions : ∀ (block : Block φ) (out : List Nat),
    block.tableOrder out = block.mentions.foldl addOrdered out
  | .and _ verifications,out => allTableOrder_mentions verifications out
  | .or _ first rest,out => by
    rw [Block.tableOrder,allTableOrder_mentions rest,first.tableOrder_mentions,Block.mentions,List.foldl_append]

theorem patternTableOrder_mentions : ∀ (pattern : List (Block φ)) (out : List Nat),
    patternTableOrder out pattern = (patternMentions pattern).foldl addOrdered out
  | [],_ => rfl
  | block :: rest,out => by
    rw [patternTableOrder,patternTableOrder_mentions rest,block.tableOrder_mentions,patternMentions,
      List.foldl_append]

end

section Order

-- Tables in the order in which they are first mentioned.
def firstMentions (tables : List Nat) : List Nat := tables.foldl addOrdered []

theorem mem_foldl_ordered {tables out : List Nat} {table : Nat} :
    table ∈ tables.foldl addOrdered out ↔ table ∈ out ∨ table ∈ tables := by
  induction tables generalizing out with
  | nil => simp
  | cons first rest ih =>
    have one : table ∈ addOrdered out first ↔ table ∈ out ∨ table = first := by
      unfold addOrdered
      split
      · rename_i there
        exact ⟨Or.inl,fun found => found.elim (fun old => old) fun same => same ▸ there⟩
      · simp
    rw [List.foldl_cons,ih,one,List.mem_cons,or_assoc]

theorem mem_firstMentions {tables : List Nat} {table : Nat} : table ∈ firstMentions tables ↔ table ∈ tables := by
  unfold firstMentions
  rw [mem_foldl_ordered]
  simp

theorem firstMentions_nodup (tables : List Nat) : (firstMentions tables).Nodup := by
  suffices general : ∀ out : List Nat, out.Nodup → (tables.foldl addOrdered out).Nodup by
    exact general [] List.nodup_nil
  induction tables with
  | nil => exact fun out nodup => nodup
  | cons first rest ih =>
    intro out nodup
    apply ih
    unfold addOrdered
    split
    · exact nodup
    · rename_i absent
      refine List.nodup_append.mpr ⟨nodup,List.pairwise_singleton _ _,fun table old other new same => ?_⟩
      exact absent (List.mem_singleton.mp new ▸ same ▸ old)

theorem foldl_ordered_append {out tables : List Nat} (fresh : ∀ table ∈ tables, table ∉ out) (done : List Nat) :
    tables.foldl addOrdered (out ++ done) = out ++ tables.foldl addOrdered done := by
  induction tables generalizing done with
  | nil => rfl
  | cons first rest ih =>
    have step : addOrdered (out ++ done) first = out ++ addOrdered done first := by
      unfold addOrdered
      by_cases there : first ∈ done <;> simp [there,fresh first List.mem_cons_self]
    rw [List.foldl_cons,List.foldl_cons,step,
      ih fun table member => fresh table (List.mem_cons_of_mem _ member)]

theorem firstMentions_append {first rest : List Nat} (disjoint : ∀ table ∈ first, table ∉ rest) :
    firstMentions (first ++ rest) = firstMentions first ++ firstMentions rest := by
  have fresh : ∀ table ∈ rest, table ∉ firstMentions first := fun table later earlier =>
    disjoint table (mem_firstMentions.mp earlier) later
  have joined := foldl_ordered_append fresh []
  rw [List.append_nil] at joined
  unfold firstMentions at joined ⊢
  rw [List.foldl_append,joined]

end Order

section Fields

variable {order : List Nat}

theorem sorted_keys {tables : List ProducedTable} {part : List Nat} (inOrder : part.Sublist order) (nodup : order.Nodup)
    (perm : (keys tables).Perm part) : keys (tables.mergeSort (before order)) = part := by
  have positions : order.Pairwise fun a b => order.idxOf a < order.idxOf b := by
    rw [List.pairwise_iff_getElem]
    intro i j inside inside' less
    rw [nodup.idxOf_getElem,nodup.idxOf_getElem]
    exact less
  have sorted : (tables.mergeSort (before order)).Pairwise fun a b => order.idxOf a.table ≤ order.idxOf b.table := by
    have total : ∀ a b, before order a b || before order b a := by
      intro a b
      simp only [before,Bool.or_eq_true,decide_eq_true_eq]
      omega
    have transitive : ∀ a b c, before order a b → before order b c → before order a c := by
      intro a b c
      simp only [before,decide_eq_true_eq]
      omega
    refine (List.pairwise_mergeSort transitive total tables).imp fun isBefore => ?_
    simp only [before,decide_eq_true_eq] at isBefore
    omega
  have isPerm : (keys (tables.mergeSort (before order))).Perm part :=
    ((List.mergeSort_perm tables (before order)).map ProducedTable.table).trans perm
  have apart : ∀ a b, a ∈ keys (tables.mergeSort (before order)) → b ∈ part → order.idxOf a ≤ order.idxOf b →
      order.idxOf b ≤ order.idxOf a → a = b := fun a b isKey _ below above =>
    (List.idxOf_inj (inOrder.subset (isPerm.subset isKey))).mp (Nat.le_antisymm below above)
  exact List.Perm.eq_of_pairwise apart (List.pairwise_map.mpr sorted)
    ((positions.sublist inOrder).imp Nat.le_of_lt) isPerm

theorem block_perm {block : Block φ} (nodup : (keys block.tables).Nodup) :
    (keys block.tables).Perm (firstMentions block.mentions) := by
  rw [List.perm_ext_iff_of_nodup nodup (firstMentions_nodup _)]
  intro table
  rw [block.mem_tables,mem_firstMentions]

theorem fields_inOrder (nodupOrder : order.Nodup) {pattern : List (Block φ)} (nodup : (keys (patternTables pattern)).Nodup)
    (inOrder : (firstMentions (patternMentions pattern)).Sublist order) :
    keys (pattern.flatMap fun block => block.tables.mergeSort (before order)) = firstMentions (patternMentions pattern) := by
  induction pattern with
  | nil => rfl
  | cons block rest ih =>
    rw [patternTables,keys_append,List.nodup_append] at nodup
    obtain ⟨here,later,apart⟩ := nodup
    have disjoint : ∀ table ∈ block.mentions, table ∉ patternMentions rest := fun table mentioned again =>
      apart table (block.mem_tables.mpr mentioned) table ((mem_patternTables rest).mpr again) rfl
    rw [patternMentions,firstMentions_append disjoint] at inOrder ⊢
    rw [List.flatMap_cons,keys_append,
      sorted_keys ((List.sublist_append_left _ _).trans inOrder) nodupOrder (block_perm here),
      ih later ((List.sublist_append_right _ _).trans inOrder)]

theorem tableFields_order {pattern : Pattern φ} (nodup : (keys (patternTables pattern)).Nodup) :
    keys (tableFields pattern) = firstMentions (patternMentions pattern) := by
  have sameOrder : patternTableOrder [] pattern = firstMentions (patternMentions pattern) :=
    patternTableOrder_mentions pattern []
  unfold tableFields
  rw [sameOrder]
  exact fields_inOrder (firstMentions_nodup _) nodup (List.Sublist.refl _)

end Fields

-- What the branches build is mentioned.
mutual

theorem Verification.matched_mentions {table : Nat} : ∀ (verification : Verification φ) (choice : Choice),
    table ∈ verification.matched choice → table ∈ verification.mentions
  | .check (.tableBuild _),_,isMatched => isMatched
  | .check (.contextCheck _ _ _),_,isMatched => isMatched
  | .check (.tokenFieldCheck _ _ _),_,isMatched => isMatched
  | .subPattern pattern,choice,isMatched => patternMatched_mentions pattern choice isMatched

theorem allMatched_mentions {table : Nat} : ∀ (verifications : List (Verification φ)) (choice : Choice),
    table ∈ allMatched verifications choice → table ∈ allMentions verifications
  | [],_,isMatched => by cases isMatched
  | verification :: rest,.both first later,isMatched => by
    rw [allMentions,List.mem_append]
    rcases List.mem_append.mp isMatched with here | there
    · exact .inl (verification.matched_mentions first here)
    · exact .inr (allMatched_mentions rest later there)
  | _ :: _,.done,isMatched => by cases isMatched
  | _ :: _,.branch _ _,isMatched => by cases isMatched

theorem branchMatched_mentions {table : Nat} : ∀ (branches : List (Verification φ)) (index : Nat) (inner : Choice),
    table ∈ branchMatched branches index inner → table ∈ allMentions branches
  | [],_,_,isMatched => by cases isMatched
  | branch :: _,0,inner,isMatched => by
    rw [allMentions,List.mem_append]
    exact .inl (branch.matched_mentions inner isMatched)
  | _ :: rest,index + 1,inner,isMatched => by
    rw [allMentions,List.mem_append]
    exact .inr (branchMatched_mentions rest index inner isMatched)

theorem Block.matched_mentions {table : Nat} : ∀ (block : Block φ) (choice : Choice),
    table ∈ block.matched choice → table ∈ block.mentions
  | .and _ verifications,choice,isMatched => allMatched_mentions verifications choice isMatched
  | .or _ first _,.branch 0 inner,isMatched => List.mem_append_left _ (first.matched_mentions inner isMatched)
  | .or _ _ rest,.branch (index + 1) inner,isMatched =>
    List.mem_append_right _ (branchMatched_mentions rest index inner isMatched)
  | .or _ _ _,.done,isMatched => by cases isMatched
  | .or _ _ _,.both _ _,isMatched => by cases isMatched

theorem patternMatched_mentions {table : Nat} : ∀ (pattern : List (Block φ)) (choice : Choice),
    table ∈ patternMatched pattern choice → table ∈ patternMentions pattern
  | [],_,isMatched => by cases isMatched
  | block :: rest,.both first later,isMatched => by
    rw [patternMentions,List.mem_append]
    rcases List.mem_append.mp isMatched with here | there
    · exact .inl (block.matched_mentions first here)
    · exact .inr (patternMatched_mentions rest later there)
  | _ :: _,.done,isMatched => by cases isMatched
  | _ :: _,.branch _ _,isMatched => by cases isMatched

end

theorem combine_parts {choice : Choice} {firsts laters : List Choice} (member : choice ∈ combine firsts laters) :
    ∃ first ∈ firsts, ∃ later ∈ laters, choice = .both first later := by
  obtain ⟨first,isFirst,isChoice⟩ := List.mem_flatMap.mp member
  obtain ⟨later,isLater,rfl⟩ := List.mem_map.mp isChoice
  exact ⟨first,isFirst,later,isLater,rfl⟩

-- A table that is always built is built on each way through the pattern.
mutual

theorem Verification.always_matched {table : Nat} : ∀ (verification : Verification φ), verification.generates = true →
    ∀ choice ∈ verification.choices, ⟨table,true⟩ ∈ verification.tables → table ∈ verification.matched choice
  | .check (.tableBuild _),_,_,_,produced => by simpa [Verification.tables,Verification.matched] using produced
  | .check (.contextCheck _ _ _),_,_,_,produced => by cases produced
  | .check (.tokenFieldCheck _ _ _),_,_,_,produced => by cases produced
  | .subPattern pattern,generates,choice,member,produced =>
    patternAlways_matched pattern (Bool.and_eq_true_iff.mp generates).1 choice member produced

theorem allAlways_matched {table : Nat} : ∀ (verifications : List (Verification φ)), allGenerate verifications = true →
    ∀ choice ∈ allChoices verifications, ⟨table,true⟩ ∈ allTables verifications → table ∈ allMatched verifications choice
  | [],_,_,_,produced => by cases produced
  | verification :: rest,generates,choice,member,produced => by
    obtain ⟨here,there⟩ := Bool.and_eq_true_iff.mp generates
    obtain ⟨first,isFirst,later,isLater,rfl⟩ := combine_parts member
    rw [allMatched,List.mem_append]
    rcases List.mem_append.mp produced with produced | produced
    · exact .inl (verification.always_matched here first isFirst produced)
    · exact .inr (allAlways_matched rest there later isLater produced)

theorem Verification.branch_matched {table : Nat} {tables : List ProducedTable} (produced : ⟨table,true⟩ ∈ tables) :
    ∀ (branch : Verification φ), branch.branchGenerates tables = true → ∀ choice ∈ branch.choices,
      table ∈ branch.matched choice
  | .check (.tableBuild _),generates,_,_ => by cases generates
  | .check (.contextCheck _ _ _),generates,_,_ => by simpa using List.all_eq_true.mp generates _ produced
  | .check (.tokenFieldCheck _ _ _),generates,_,_ => by simpa using List.all_eq_true.mp generates _ produced
  | .subPattern pattern,generates,choice,member => by
    obtain ⟨inner,kept⟩ := Bool.and_eq_true_iff.mp generates
    have there : ⟨table,true⟩ ∈ patternTables pattern := by simpa using List.all_eq_true.mp kept _ produced
    exact patternAlways_matched pattern (Bool.and_eq_true_iff.mp inner).1 choice member there

theorem branchAlways_matched {table : Nat} {tables : List ProducedTable} (produced : ⟨table,true⟩ ∈ tables) :
    ∀ (branches : List (Verification φ)) (index : Nat), branchesGenerate tables branches = true →
      ∀ choice ∈ branchChoices index branches, ∃ offset inner, choice = .branch (index + offset) inner ∧
        table ∈ branchMatched branches offset inner
  | [],_,_,_,member => by cases member
  | branch :: rest,index,generates,choice,member => by
    obtain ⟨here,there⟩ := Bool.and_eq_true_iff.mp generates
    rcases List.mem_append.mp member with member | member
    · obtain ⟨inner,isInner,rfl⟩ := List.mem_map.mp member
      exact ⟨0,inner,rfl,branch.branch_matched produced here inner isInner⟩
    · obtain ⟨offset,inner,rfl,isMatched⟩ := branchAlways_matched produced rest (index + 1) there choice member
      exact ⟨offset + 1,inner,by rw [Nat.add_assoc,Nat.add_comm 1],isMatched⟩

theorem Block.always_matched {table : Nat} : ∀ (block : Block φ), block.generates = true →
    ∀ choice ∈ block.choices, ⟨table,true⟩ ∈ block.tables → table ∈ block.matched choice
  | .and _ verifications,generates,choice,member,produced => by
    obtain ⟨nodup,inner⟩ := Bool.and_eq_true_iff.mp generates
    rw [Block.tables,collect_distinct (of_decide_eq_true nodup)] at produced
    exact allAlways_matched verifications inner choice member produced
  | .or phase first rest,generates,choice,member,produced => by
    obtain ⟨here,there⟩ := Bool.and_eq_true_iff.mp generates
    rcases List.mem_append.mp member with member | member
    · obtain ⟨inner,isInner,rfl⟩ := List.mem_map.mp member
      exact first.branch_matched produced here inner isInner
    · obtain ⟨offset,inner,rfl,isMatched⟩ := branchAlways_matched produced rest 1 there choice member
      rw [Nat.add_comm]
      exact isMatched

theorem patternAlways_matched {table : Nat} : ∀ (pattern : List (Block φ)), patternGenerates pattern = true →
    ∀ choice ∈ patternChoices pattern, ⟨table,true⟩ ∈ patternTables pattern → table ∈ patternMatched pattern choice
  | [],_,_,_,produced => by cases produced
  | block :: rest,generates,choice,member,produced => by
    obtain ⟨here,there⟩ := Bool.and_eq_true_iff.mp generates
    obtain ⟨first,isFirst,later,isLater,rfl⟩ := combine_parts member
    rw [patternMatched,List.mem_append]
    rcases List.mem_append.mp produced with produced | produced
    · exact .inl (block.always_matched here first isFirst produced)
    · exact .inr (patternAlways_matched rest there later isLater produced)

end

end Rsleigh.Semantic.Variants
