import Mathlib.Data.List.Basic
import Mathlib.Order.Lattice

namespace Rsleigh.CommonSubsequence

section Length

variable {α : Type} {left right : List α} {x y : α}

-- The length of a longest common subsequence.
structure Longest (left right : List α) (length : Nat) : Prop where
  reached : ∃ common : List α, common.Sublist left ∧ common.Sublist right ∧ common.length = length
  greatest : ∀ common : List α, common.Sublist left → common.Sublist right → common.length ≤ length

theorem longest_nil_left (right : List α) : Longest [] right 0 :=
  ⟨⟨[],List.nil_sublist _,List.nil_sublist _,rfl⟩,fun _ isLeft _ => isLeft.length_le⟩

theorem longest_nil_right (left : List α) : Longest left [] 0 :=
  ⟨⟨[],List.nil_sublist _,List.nil_sublist _,rfl⟩,fun _ _ isRight => isRight.length_le⟩

theorem sublist_concat {common : List α} (isCommon : common.Sublist (left ++ [x])) :
    common.Sublist left ∨ ∃ rest, common = rest ++ [x] ∧ rest.Sublist left := by
  obtain ⟨rest,last,rfl,isRest,isLast⟩ := List.sublist_append_iff.mp isCommon
  rcases List.sublist_singleton.mp isLast with rfl | rfl
  · rw [List.append_nil]
    exact Or.inl isRest
  · exact Or.inr ⟨rest,rfl,isRest⟩

theorem longest_match {length : Nat} (longest : Longest left right length) :
    Longest (left ++ [x]) (right ++ [x]) (length + 1) := by
  obtain ⟨common,isLeft,isRight,isLength⟩ := longest.reached
  constructor
  · refine ⟨common ++ [x],isLeft.append (List.Sublist.refl _),isRight.append (List.Sublist.refl _),?_⟩
    rw [List.length_append,isLength,List.length_singleton]
  · intro other otherLeft otherRight
    rcases sublist_concat otherLeft with inLeft | ⟨rest,rfl,restLeft⟩
    · rcases sublist_concat otherRight with inRight | ⟨rest,rfl,restRight⟩
      · have := longest.greatest other inLeft inRight
        omega
      · have := longest.greatest rest ((List.sublist_append_left _ _).trans inLeft) restRight
        rw [List.length_append,List.length_singleton]
        omega
    · rcases sublist_concat otherRight with inRight | ⟨rest',same,restRight⟩
      · have := longest.greatest rest restLeft ((List.sublist_append_left _ _).trans inRight)
        rw [List.length_append,List.length_singleton]
        omega
      · rw [List.append_left_inj] at same
        have := longest.greatest rest restLeft (same ▸ restRight)
        rw [List.length_append,List.length_singleton]
        omega

theorem longest_differ {one two : Nat} (differ : x ≠ y) (shorterLeft : Longest left (right ++ [y]) one)
    (shorterRight : Longest (left ++ [x]) right two) : Longest (left ++ [x]) (right ++ [y]) (max one two) := by
  constructor
  · rcases le_total one two with less | less
    · obtain ⟨common,isLeft,isRight,isLength⟩ := shorterRight.reached
      exact ⟨common,isLeft,isRight.trans (List.sublist_append_left _ _),by rw [isLength,max_eq_right less]⟩
    · obtain ⟨common,isLeft,isRight,isLength⟩ := shorterLeft.reached
      exact ⟨common,isLeft.trans (List.sublist_append_left _ _),isRight,by rw [isLength,max_eq_left less]⟩
  · intro other otherLeft otherRight
    rcases sublist_concat otherLeft with inLeft | ⟨rest,rfl,restLeft⟩
    · exact (shorterLeft.greatest other inLeft otherRight).trans (le_max_left _ _)
    · rcases sublist_concat otherRight with inRight | ⟨rest',same,_⟩
      · exact (shorterRight.greatest _ otherLeft inRight).trans (le_max_right _ _)
      · exact absurd (List.singleton_inj.mp (List.append_inj' same rfl).2) differ

end Length

section Recurrence

variable {α : Type} [DecidableEq α]

-- The recurrence for the lengths of the longest common subsequences of the first items.
def prefixLength (left right : List α) : Nat → Nat → Nat
  | 0, _ => 0
  | _ + 1, 0 => 0
  | i + 1, j + 1 =>
    if left[i]? = right[j]? then prefixLength left right i j + 1
    else max (prefixLength left right i (j + 1)) (prefixLength left right (i + 1) j)

theorem prefixLength_longest (left right : List α) :
    ∀ i j, i ≤ left.length → j ≤ right.length → Longest (left.take i) (right.take j) (prefixLength left right i j) := by
  intro i
  induction i with
  | zero => exact fun j _ _ => by simpa [prefixLength] using longest_nil_left _
  | succ i rowHypothesis =>
    intro j
    induction j with
    | zero => exact fun _ _ => by simpa [prefixLength] using longest_nil_right _
    | succ j ih =>
      intro inLeft inRight
      have isLeft : left[i]? = some left[i] := List.getElem?_eq_getElem inLeft
      have isRight : right[j]? = some right[j] := List.getElem?_eq_getElem inRight
      rw [prefixLength,isLeft,isRight,List.take_succ_eq_append_getElem inLeft,List.take_succ_eq_append_getElem inRight]
      split
      · rename_i same
        rw [Option.some.inj same]
        exact longest_match (rowHypothesis j (by omega) (by omega))
      · rename_i differ
        have shorterLeft := rowHypothesis (j + 1) (by omega) inRight
        have shorterRight := ih inLeft (by omega)
        rw [List.take_succ_eq_append_getElem inRight] at shorterLeft
        rw [List.take_succ_eq_append_getElem inLeft] at shorterRight
        exact longest_differ (fun same => differ (congrArg some same)) shorterLeft shorterRight

theorem prefixLength_le (left right : List α) : ∀ i j, prefixLength left right i j ≤ i := by
  intro i
  induction i with
  | zero => exact fun j => by simp [prefixLength]
  | succ i rowHypothesis =>
    intro j
    induction j with
    | zero => simp [prefixLength]
    | succ j ih =>
      have before := rowHypothesis j
      have above := rowHypothesis (j + 1)
      rw [prefixLength]
      split <;> omega

end Recurrence

end Rsleigh.CommonSubsequence
