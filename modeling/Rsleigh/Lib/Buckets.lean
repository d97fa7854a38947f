import Mathlib.Data.List.Basic
import Mathlib.Data.List.Range

namespace Rsleigh.Buckets

variable {α : Type} (key : α → Nat)

theorem split_greatest {items : List α} {greatest : Nat} (sorted : items.Pairwise fun a b => key a ≤ key b)
    (bound : ∀ item ∈ items, key item ≤ greatest) :
    items.filter (fun item => key item < greatest) ++ items.filter (fun item => key item = greatest) = items := by
  induction items with
  | nil => rfl
  | cons item rest ih =>
    obtain ⟨before,restSorted⟩ := List.pairwise_cons.mp sorted
    have split := ih restSorted fun other member => bound other (List.mem_cons_of_mem _ member)
    by_cases small : key item < greatest
    · have notGreatest : key item ≠ greatest := Nat.ne_of_lt small
      simp only [List.filter_cons,small,decide_true,if_true,notGreatest,decide_false]
      exact congrArg (item :: ·) split
    · have isGreatest : key item = greatest := Nat.le_antisymm (bound item (List.mem_cons_self ..)) (Nat.le_of_not_lt small)
      have none : rest.filter (fun other => key other < greatest) = [] := by
        apply List.filter_eq_nil_iff.mpr
        intro other member
        have after := before other member
        simp only [decide_eq_true_eq]
        omega
      rw [none] at split
      simp only [List.filter_cons,isGreatest,Nat.lt_irrefl,decide_false,decide_true,if_true,none]
      exact congrArg (item :: ·) split

theorem buckets_concat {items : List α} {count : Nat} (sorted : items.Pairwise fun a b => key a ≤ key b)
    (bound : ∀ item ∈ items, key item < count) :
    (List.range count).flatMap (fun i => items.filter fun item => key item = i) = items := by
  induction count generalizing items with
  | zero =>
    cases items with
    | nil => rfl
    | cons item rest => exact absurd (bound item (List.mem_cons_self ..)) (Nat.not_lt_zero _)
  | succ count ih =>
    have low := ih (sorted.filter fun item => key item < count)
      fun item member => by simpa using (List.mem_filter.mp member).2
    have lowBuckets : (List.range count).flatMap (fun i => items.filter fun item => key item = i) =
        items.filter fun item => key item < count := by
      refine Eq.trans ?_ low
      apply List.flatMap_congr
      intro i member
      have small := List.mem_range.mp member
      rw [List.filter_filter]
      apply List.filter_congr
      intro item _
      by_cases same : key item = i
      · simp [same,small]
      · simp [same]
    rw [List.range_succ,List.flatMap_append,lowBuckets,List.flatMap_singleton]
    exact split_greatest key sorted fun item member => Nat.le_of_lt_succ (bound item member)

theorem range_pairs (bucket : Nat → List α) (count : Nat) :
    (List.range count).flatMap (fun i => bucket (2 * i) ++ bucket (2 * i + 1)) =
      (List.range (2 * count)).flatMap bucket := by
  induction count with
  | zero => rfl
  | succ count ih =>
    have twice : 2 * (count + 1) = 2 * count + 1 + 1 := by omega
    rw [twice,List.range_succ,List.range_succ,List.range_succ,List.flatMap_append,ih]
    simp

theorem mapIdx_flatMap {β γ : Type} (elements : List β) (place : Nat → β → γ) (read : γ → List α)
    (bucket : Nat → List α) (same : ∀ i element, read (place i element) = bucket i) :
    (elements.mapIdx place).flatMap read = (List.range elements.length).flatMap bucket := by
  rw [List.flatMap_def,List.flatMap_def]
  apply congrArg List.flatten
  apply List.ext_getElem
  · simp
  · intro i inMapped inRange
    simp [same]

end Rsleigh.Buckets
