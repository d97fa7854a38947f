import Mathlib
import Rsleigh.Lib.CommonSubsequence

namespace Rsleigh.Agent.LineDiff

open CommonSubsequence

-- agent/compare.rs.
def maxLcsCells : Nat := 2000000

-- The table of the loops, from the row and the column of the start on.
abbrev Table := Nat → Nat → Nat

def Table.set (dp : Table) (i j value : Nat) : Table :=
  fun row column => if row = i ∧ column = j then value else dp row column

-- Entries are of 32 bits.
def entry (old new : List String) (dp : Table) (i j : Nat) : Nat :=
  if old[i - 1]? = new[j - 1]? then (dp (i - 1) (j - 1) + 1) % 2 ^ 32 else max (dp (i - 1) j) (dp i (j - 1))

def fillRow (old new : List String) (dp : Table) (i n : Nat) : Table :=
  (List.range' 1 n).foldl (fun dp j => dp.set i j (entry old new dp i j)) dp

def fillTable (old new : List String) (m n : Nat) : Table :=
  (List.range' 1 m).foldl (fun dp i => fillRow old new dp i n) fun _ _ => 0

-- The lines come out from the last one on.
def walk (old new : List String) (dp : Table) (i j : Nat) (out : List (Char × String)) : List (Char × String) :=
  if more : 0 < i ∨ 0 < j then
    if same : 0 < i ∧ 0 < j ∧ old[i - 1]? = new[j - 1]? then
      walk old new dp (i - 1) (j - 1) ((' ', old.getD (i - 1) "") :: out)
    else if added : 0 < j ∧ (i = 0 ∨ dp (i - 1) j ≤ dp i (j - 1)) then
      walk old new dp i (j - 1) (('+', new.getD (j - 1) "") :: out)
    else walk old new dp (i - 1) j (('-', old.getD (i - 1) "") :: out)
  else out
termination_by i + j

def lineDiff (old new : List String) : Option (List (Char × String)) :=
  let m := old.length
  let n := new.length
  if maxLcsCells < min ((m + 1) * (n + 1)) (2 ^ 64 - 1) then none
  else some (walk old new (fillTable old new m n) m n [])

-- What a diff says of one of the lists: the lines without a tag, and those with the tag of this list.
def side (tag : Char) (diff : List (Char × String)) : List String :=
  (diff.filter fun line => line.1 = ' ' ∨ line.1 = tag).map Prod.snd

def unchanged (diff : List (Char × String)) : Nat := diff.countP fun line => line.1 = ' '

def changed (diff : List (Char × String)) : Nat := diff.countP fun line => line.1 ≠ ' '

-- The table with whole rows filled, and the entries of one more.
structure Filled (old new : List String) (dp : Table) (i j : Nat) : Prop where
  above : ∀ row column, row < i → column ≤ new.length → dp row column = prefixLength old new row column
  before : ∀ column, column ≤ j → dp i column = prefixLength old new i column
  below : ∀ row column, i < row → dp row column = 0

theorem prefixLength_zero (old new : List String) (i : Nat) : prefixLength old new i 0 = 0 := by
  cases i <;> simp [prefixLength]

theorem entry_right {old new : List String} {dp : Table} {i j : Nat} (filled : Filled old new dp (i + 1) j)
    (inColumns : j < new.length) (small : i + 1 < 2 ^ 32) :
    entry old new dp (i + 1) (j + 1) = prefixLength old new (i + 1) (j + 1) := by
  have corner := filled.above i j (Nat.lt_succ_self i) (Nat.le_of_lt inColumns)
  have up := filled.above i (j + 1) (Nat.lt_succ_self i) inColumns
  have left := filled.before j (Nat.le_refl j)
  have bound := prefixLength_le old new i j
  rw [entry,prefixLength]
  simp only [Nat.add_sub_cancel,corner,up,left]
  rw [Nat.mod_eq_of_lt (by omega)]

theorem set_filled {old new : List String} {dp : Table} {i j : Nat} (filled : Filled old new dp (i + 1) j)
    (inColumns : j < new.length) (small : i + 1 < 2 ^ 32) :
    Filled old new (dp.set (i + 1) (j + 1) (entry old new dp (i + 1) (j + 1))) (i + 1) (j + 1) where
  above := by
    intro row column isAbove inside
    rw [Table.set,if_neg (by omega)]
    exact filled.above row column isAbove inside
  before := by
    intro column isBefore
    rw [Table.set]
    by_cases isLast : column = j + 1
    · rw [if_pos ⟨rfl,isLast⟩,isLast]
      exact entry_right filled inColumns small
    · rw [if_neg (by omega)]
      exact filled.before column (by omega)
  below := by
    intro row column isBelow
    rw [Table.set,if_neg (by omega)]
    exact filled.below row column isBelow

theorem fillRow_filled {old new : List String} {dp : Table} {i : Nat} (filled : Filled old new dp (i + 1) 0)
    (small : i + 1 < 2 ^ 32) : ∀ n ≤ new.length, Filled old new (fillRow old new dp (i + 1) n) (i + 1) n := by
  intro n
  induction n with
  | zero => exact fun _ => filled
  | succ n ih =>
    intro inside
    have before := ih (by omega)
    have step := set_filled before inside small
    unfold fillRow at step ⊢
    rwa [List.range'_1_concat,List.foldl_append,Nat.add_comm 1 n]

theorem next_filled {old new : List String} {dp : Table} {i : Nat} (filled : Filled old new dp i new.length) :
    Filled old new dp (i + 1) 0 where
  above := by
    intro row column isAbove inside
    rcases Nat.lt_succ_iff_lt_or_eq.mp isAbove with above | same
    · exact filled.above row column above inside
    · rw [same]
      exact filled.before column inside
  before := by
    intro column isBefore
    rw [Nat.le_zero.mp isBefore,filled.below (i + 1) 0 (Nat.lt_succ_self i),prefixLength_zero]
  below := by
    intro row column isBelow
    exact filled.below row column (by omega)

theorem fillTable_filled {old new : List String} : ∀ m < 2 ^ 32,
    Filled old new (fillTable old new m new.length) m new.length := by
  intro m
  induction m with
  | zero =>
    intro _
    exact ⟨fun row column isAbove => absurd isAbove (Nat.not_lt_zero row),fun column _ => by simp [fillTable,prefixLength],
      fun row column _ => rfl⟩
  | succ m ih =>
    intro small
    have rows := next_filled (ih (by omega))
    have row := fillRow_filled rows small new.length (Nat.le_refl _)
    unfold fillTable at row ⊢
    rwa [List.range'_1_concat,List.foldl_append,Nat.add_comm 1 m]

theorem side_concat (tag : Char) (diff : List (Char × String)) (line : Char × String) :
    side tag (diff ++ [line]) = side tag diff ++ if line.1 = ' ' ∨ line.1 = tag then [line.2] else [] := by
  unfold side
  rw [List.filter_append,List.map_append]
  by_cases kept : line.1 = ' ' ∨ line.1 = tag <;> simp [kept]

theorem unchanged_concat (diff : List (Char × String)) (line : Char × String) :
    unchanged (diff ++ [line]) = unchanged diff + if line.1 = ' ' then 1 else 0 := by
  unfold unchanged
  rw [List.countP_append]
  by_cases same : line.1 = ' ' <;> simp [same]

theorem changed_concat (diff : List (Char × String)) (line : Char × String) :
    changed (diff ++ [line]) = changed diff + if line.1 = ' ' then 0 else 1 := by
  unfold changed
  rw [List.countP_append]
  by_cases same : line.1 = ' ' <;> simp [same]

-- What has been walked to gives the first lines of both lists, with as many lines in common as there can be.
structure Walked (old new : List String) (i j : Nat) (diff : List (Char × String)) : Prop where
  oldSide : side '-' diff = old.take i
  newSide : side '+' diff = new.take j
  common : unchanged diff = prefixLength old new i j
  lines : changed diff + 2 * unchanged diff = i + j

theorem walked_nil (old new : List String) : Walked old new 0 0 [] :=
  ⟨by simp [side],by simp [side],by simp [unchanged,prefixLength],by simp [changed,unchanged]⟩

theorem take_line {lines : List String} {i : Nat} (inside : i < lines.length) :
    lines.take (i + 1) = lines.take i ++ [lines.getD i ""] := by
  rw [List.take_succ_eq_append_getElem inside]
  simp [inside]

theorem walked_same {old new : List String} {i j : Nat} {diff : List (Char × String)} (walked : Walked old new i j diff)
    (inOld : i < old.length) (inNew : j < new.length) (same : old[i]? = new[j]?) :
    Walked old new (i + 1) (j + 1) (diff ++ [(' ', old.getD i "")]) where
  oldSide := by rw [side_concat,walked.oldSide,take_line inOld]; rfl
  newSide := by
    have sameLine : old.getD i "" = new.getD j "" := by rw [List.getD,List.getD,same]
    rw [side_concat,walked.newSide,take_line inNew,sameLine]
    rfl
  common := by
    rw [unchanged_concat,walked.common,prefixLength,if_pos same]
    rfl
  lines := by
    have before := walked.lines
    simp only [changed_concat,unchanged_concat,if_true]
    omega

theorem walked_added {old new : List String} {i j : Nat} {diff : List (Char × String)} (walked : Walked old new i j diff)
    (inNew : j < new.length) (common : prefixLength old new i (j + 1) = prefixLength old new i j) :
    Walked old new i (j + 1) (diff ++ [('+', new.getD j "")]) where
  oldSide := by rw [side_concat,walked.oldSide]; simp
  newSide := by rw [side_concat,walked.newSide,take_line inNew]; rfl
  common := by rw [unchanged_concat,walked.common,common]; rfl
  lines := by
    have before := walked.lines
    have tagged : ¬ '+' = ' ' := by decide
    simp only [changed_concat,unchanged_concat,tagged,if_false]
    omega

theorem walked_removed {old new : List String} {i j : Nat} {diff : List (Char × String)} (walked : Walked old new i j diff)
    (inOld : i < old.length) (common : prefixLength old new (i + 1) j = prefixLength old new i j) :
    Walked old new (i + 1) j (diff ++ [('-', old.getD i "")]) where
  oldSide := by rw [side_concat,walked.oldSide,take_line inOld]; rfl
  newSide := by rw [side_concat,walked.newSide]; simp
  common := by rw [unchanged_concat,walked.common,common]; rfl
  lines := by
    have before := walked.lines
    have tagged : ¬ '-' = ' ' := by decide
    simp only [changed_concat,unchanged_concat,tagged,if_false]
    omega

theorem filled_entry {old new : List String} {dp : Table} (filled : Filled old new dp old.length new.length)
    {i j : Nat} (inOld : i ≤ old.length) (inNew : j ≤ new.length) : dp i j = prefixLength old new i j := by
  rcases Nat.lt_or_eq_of_le inOld with above | last
  · exact filled.above i j above inNew
  · rw [last]
    exact filled.before j inNew

-- The walk follows the table: where two lines differ it leaves the one without which as many lines are in common.
theorem walk_walked {old new : List String} {dp : Table} (filled : Filled old new dp old.length new.length) :
    ∀ i j, i ≤ old.length → j ≤ new.length → ∀ out, ∃ diff, walk old new dp i j out = diff ++ out ∧
      Walked old new i j diff := by
  intro i j
  induction total : i + j using Nat.strong_induction_on generalizing i j with
  | h total ih =>
    intro inOld inNew out
    rw [walk]
    by_cases more : 0 < i ∨ 0 < j
    · rw [dif_pos more]
      by_cases same : 0 < i ∧ 0 < j ∧ old[i - 1]? = new[j - 1]?
      · obtain ⟨isOld,isNew,sameLine⟩ := same
        obtain ⟨i,rfl⟩ := Nat.exists_eq_add_one.mpr isOld
        obtain ⟨j,rfl⟩ := Nat.exists_eq_add_one.mpr isNew
        rw [dif_pos ⟨isOld,isNew,sameLine⟩]
        obtain ⟨diff,isWalk,walked⟩ := ih (i + j) (by omega) i j rfl (by omega) (by omega)
          ((' ', old.getD i "") :: out)
        refine ⟨diff ++ [(' ', old.getD i "")],?_,walked_same walked inOld inNew sameLine⟩
        rw [List.append_assoc]
        exact isWalk
      · rw [dif_neg same]
        by_cases added : 0 < j ∧ (i = 0 ∨ dp (i - 1) j ≤ dp i (j - 1))
        · obtain ⟨j,rfl⟩ := Nat.exists_eq_add_one.mpr added.1
          rw [dif_pos added]
          have common : prefixLength old new i (j + 1) = prefixLength old new i j := by
            rcases added.2 with first | less
            · simp [first,prefixLength]
            · cases i with
              | zero => simp [prefixLength]
              | succ i =>
                rw [Nat.add_sub_cancel,Nat.add_sub_cancel,filled_entry filled (by omega) inNew,
                  filled_entry filled inOld (by omega)] at less
                have differ : ¬ old[i]? = new[j]? := fun sameLine => same ⟨by omega,by omega,sameLine⟩
                rw [prefixLength,if_neg differ,max_eq_right less]
          obtain ⟨diff,isWalk,walked⟩ := ih (i + j) (by omega) i j rfl inOld (by omega)
            (('+', new.getD j "") :: out)
          refine ⟨diff ++ [('+', new.getD j "")],?_,walked_added walked inNew common⟩
          rw [List.append_assoc]
          exact isWalk
        · have isOld : 0 < i := by omega
          obtain ⟨i,rfl⟩ := Nat.exists_eq_add_one.mpr isOld
          rw [dif_neg added]
          have common : prefixLength old new (i + 1) j = prefixLength old new i j := by
            cases j with
            | zero => rw [prefixLength_zero,prefixLength_zero]
            | succ j =>
              have greater : dp (i + 1) j < dp i (j + 1) := by
                by_contra notGreater
                exact added ⟨by omega,Or.inr (Nat.not_lt.mp notGreater)⟩
              rw [filled_entry filled inOld (by omega),filled_entry filled (by omega) inNew] at greater
              have differ : ¬ old[i]? = new[j]? := fun sameLine => same ⟨by omega,by omega,sameLine⟩
              rw [prefixLength,if_neg differ,max_eq_left greater.le]
          obtain ⟨diff,isWalk,walked⟩ := ih (i + j) (by omega) i j rfl (by omega) inNew
            (('-', old.getD i "") :: out)
          refine ⟨diff ++ [('-', old.getD i "")],?_,walked_removed walked inOld common⟩
          rw [List.append_assoc]
          exact isWalk
    · have atStart : i = 0 ∧ j = 0 := by omega
      obtain ⟨rfl,rfl⟩ := atStart
      rw [dif_neg more]
      exact ⟨[],rfl,walked_nil old new⟩

theorem side_length {tag : Char} (notSame : tag ≠ ' ') (diff : List (Char × String)) :
    (side tag diff).length = unchanged diff + diff.countP fun line => line.1 = tag := by
  unfold side unchanged
  rw [List.length_map,← List.countP_eq_length_filter]
  induction diff with
  | nil => rfl
  | cons line rest ih =>
    simp only [List.countP_cons,ih]
    by_cases same : line.1 = ' '
    · simp [same,notSame.symm]
      omega
    · by_cases tagged : line.1 = tag <;> simp [tagged,same,notSame]
      omega

theorem changed_ge (diff : List (Char × String)) :
    (side '-' diff).length + (side '+' diff).length ≤ changed diff + 2 * unchanged diff := by
  rw [side_length (by decide),side_length (by decide)]
  have disjoint : (diff.countP fun line => line.1 = '-') + (diff.countP fun line => line.1 = '+') ≤ changed diff := by
    unfold changed
    induction diff with
    | nil => simp
    | cons line rest ih =>
      simp only [List.countP_cons,decide_not] at ih ⊢
      by_cases removed : line.1 = '-'
      · simp [removed]
        omega
      · by_cases added : line.1 = '+'
        · simp [added]
          omega
        · simp [removed,added]
          omega
  omega

theorem side_common (tag : Char) (diff : List (Char × String)) :
    ((diff.filter fun line => line.1 = ' ').map Prod.snd).Sublist (side tag diff) := by
  refine List.Sublist.map _ (List.monotone_filter_right _ fun line isSame => ?_)
  simp only [decide_eq_true_eq] at isSame ⊢
  exact Or.inl isSame

theorem unchanged_le {old new : List String} {diff : List (Char × String)} {length : Nat} (longest : Longest old new length)
    (oldSide : side '-' diff = old) (newSide : side '+' diff = new) : unchanged diff ≤ length := by
  have inOld := side_common '-' diff
  have inNew := side_common '+' diff
  rw [oldSide] at inOld
  rw [newSide] at inNew
  have bound := longest.greatest _ inOld inNew
  rwa [List.length_map,← List.countP_eq_length_filter] at bound

-- A diff says what both lists are, and no diff that says this changes fewer lines.
theorem lineDiff_minimal {old new : List String} {diff : List (Char × String)} (isDiff : lineDiff old new = some diff) :
    side '-' diff = old ∧ side '+' diff = new ∧ Longest old new (unchanged diff) ∧
      ∀ other : List (Char × String), side '-' other = old → side '+' other = new → changed diff ≤ changed other := by
  unfold lineDiff at isDiff
  dsimp only at isDiff
  split at isDiff
  · cases isDiff
  · rename_i fits
    have cells : old.length + 1 ≤ (old.length + 1) * (new.length + 1) := Nat.le_mul_of_pos_right _ (Nat.succ_pos _)
    have small : old.length < 2 ^ 32 := by
      unfold maxLcsCells at fits
      omega
    obtain ⟨walkedDiff,isWalk,walked⟩ := walk_walked (fillTable_filled old.length small) old.length new.length
      (Nat.le_refl _) (Nat.le_refl _) []
    rw [List.append_nil] at isWalk
    have same : diff = walkedDiff := (Option.some.inj isDiff).symm.trans isWalk
    subst same
    have oldSide : side '-' diff = old := by rw [walked.oldSide,List.take_length]
    have newSide : side '+' diff = new := by rw [walked.newSide,List.take_length]
    have longest : Longest old new (unchanged diff) := by
      have whole := prefixLength_longest old new old.length new.length (Nat.le_refl _) (Nat.le_refl _)
      rwa [List.take_length,List.take_length,← walked.common] at whole
    refine ⟨oldSide,newSide,longest,fun other otherOld otherNew => ?_⟩
    have kept := unchanged_le longest otherOld otherNew
    have lines := walked.lines
    have otherLines := changed_ge other
    rw [otherOld,otherNew] at otherLines
    omega

-- A line moves up.
def movedLine : List String × List String := (["a = 1;","b = 2;","return a;"],["b = 2;","a = 1;","return a;"])

theorem movedLine_diff : lineDiff movedLine.1 movedLine.2 =
    some [('-', "a = 1;"),(' ', "b = 2;"),('+', "a = 1;"),(' ', "return a;")] := by
  simp [lineDiff,movedLine,maxLcsCells,walk,fillTable,fillRow,List.range',Table.set,entry]

theorem lineDiff_minimal_moved : Longest movedLine.1 movedLine.2 2 :=
  (lineDiff_minimal movedLine_diff).2.2.1

end Rsleigh.Agent.LineDiff
