import Mathlib.Data.Finset.Card
import Mathlib.Logic.Relation
import Mathlib.Algebra.BigOperators.Group.Finset.Basic

namespace Rsleigh.Exploration

section Run

variable {α : Type} [DecidableEq α] (inside : α → Bool) (next : α → List α)

-- A stack of nodes that wait. A node is visited once, and those outside are passed over.
def explore : Nat → List α → List α → Option (List α)
  | 0, _, _ => none
  | _ + 1, seen, [] => some seen
  | fuel + 1, seen, node :: pending =>
    if !inside node || node ∈ seen then explore fuel seen pending
    else explore fuel (node :: seen) (next node ++ pending)

end Run

section Reached

variable {α : Type} (inside : α → Bool) (next : α → List α)

-- A step between nodes inside.
def Step (a b : α) : Prop := inside a = true ∧ inside b = true ∧ b ∈ next a

def Reached (root node : α) : Prop := inside root = true ∧ Relation.ReflTransGen (Step inside next) root node

-- What the nodes that have been seen lead to waits, or has been seen.
structure Searching (root : α) (seen pending : List α) : Prop where
  found : ∀ node ∈ seen, Reached inside next root node
  waiting : ∀ node ∈ pending, inside node = true → Reached inside next root node
  closed : ∀ node ∈ seen, ∀ after ∈ next node, inside after = true → after ∈ seen ∨ after ∈ pending
  rooted : inside root = true → root ∈ seen ∨ root ∈ pending

variable {inside next}

theorem reached_inside (reached : Reached inside next root node) : inside node = true := by
  obtain ⟨isRoot,steps⟩ := reached
  cases steps with
  | refl => exact isRoot
  | tail _ isStep => exact isStep.2.1

theorem searching_start (root : α) : Searching inside next root [] [root] where
  found _ member := absurd member List.not_mem_nil
  waiting node member isInside := by
    obtain rfl := List.mem_singleton.mp member
    exact ⟨isInside,Relation.ReflTransGen.refl⟩
  closed _ member := absurd member List.not_mem_nil
  rooted _ := .inr List.mem_cons_self

theorem searching_skip [DecidableEq α] {seen pending : List α} (searching : Searching inside next root seen (node :: pending))
    (skipped : (!inside node || node ∈ seen) = true) : Searching inside next root seen pending := by
  have known : inside node = true → node ∈ seen := by
    intro isInside
    rw [isInside] at skipped
    simpa using skipped
  refine ⟨searching.found,fun other member => searching.waiting other (List.mem_cons_of_mem _ member),?_,?_⟩
  · intro from_ member after isNext isInside
    rcases searching.closed from_ member after isNext isInside with before | waits
    · exact .inl before
    · rcases List.mem_cons.mp waits with rfl | waits
      · exact .inl (known isInside)
      · exact .inr waits
  · intro isInside
    rcases searching.rooted isInside with before | waits
    · exact .inl before
    · rcases List.mem_cons.mp waits with rfl | waits
      · exact .inl (known isInside)
      · exact .inr waits

theorem searching_visit {seen pending : List α} (searching : Searching inside next root seen (node :: pending))
    (isInside : inside node = true) :
    Searching inside next root (node :: seen) (next node ++ pending) := by
  have isReached := searching.waiting node List.mem_cons_self isInside
  have moved : ∀ other, other ∈ seen ∨ other ∈ node :: pending → other ∈ node :: seen ∨ other ∈ next node ++ pending := by
    rintro other (before | waits)
    · exact .inl (List.mem_cons_of_mem _ before)
    · rcases List.mem_cons.mp waits with rfl | waits
      · exact .inl List.mem_cons_self
      · exact .inr (List.mem_append_right _ waits)
  refine ⟨?_,?_,?_,fun isRoot => moved root (searching.rooted isRoot)⟩
  · intro other member
    rcases List.mem_cons.mp member with rfl | before
    · exact isReached
    · exact searching.found other before
  · intro other member otherInside
    rcases List.mem_append.mp member with isNext | waits
    · exact ⟨isReached.1,isReached.2.tail ⟨isInside,otherInside,isNext⟩⟩
    · exact searching.waiting other (List.mem_cons_of_mem _ waits) otherInside
  · intro other member after isNext afterInside
    rcases List.mem_cons.mp member with rfl | before
    · exact .inr (List.mem_append_left _ isNext)
    · exact moved after (searching.closed other before after isNext afterInside)

theorem searching_done {seen : List α} (searching : Searching inside next root seen []) (node : α) :
    node ∈ seen ↔ Reached inside next root node := by
  refine ⟨searching.found node,?_⟩
  rintro ⟨isRoot,steps⟩
  induction steps with
  | refl => exact (searching.rooted isRoot).resolve_right List.not_mem_nil
  | tail _ isStep ih =>
    exact (searching.closed _ ih _ isStep.2.2 isStep.2.1).resolve_right List.not_mem_nil

end Reached

section Measure

variable {α : Type} [DecidableEq α] {inside : α → Bool} {next : α → List α}

-- What waits, and what the nodes that have not been seen can still add.
def work (next : α → List α) (within : Finset α) (seen pending : List α) : Nat :=
  pending.length + ∑ node ∈ within.filter (· ∉ seen), ((next node).length + 1)

theorem work_visit {within : Finset α} {seen pending : List α} (isWithin : node ∈ within) (fresh : node ∉ seen) :
    work next within (node :: seen) (next node ++ pending) < work next within seen (node :: pending) := by
  have removed : within.filter (· ∉ node :: seen) = (within.filter (· ∉ seen)).erase node := by
    ext other
    simp only [Finset.mem_filter,Finset.mem_erase,List.mem_cons,not_or]
    tauto
  have isMember : node ∈ within.filter (· ∉ seen) := Finset.mem_filter.mpr ⟨isWithin,fresh⟩
  have split := Finset.add_sum_erase (within.filter (· ∉ seen)) (fun node => (next node).length + 1) isMember
  unfold work
  rw [removed,List.length_append,List.length_cons]
  omega

-- With enough steps the search comes to its end.
theorem explore_searching {within : Finset α} (bounded : ∀ node, inside node = true → node ∈ within) :
    ∀ (fuel : Nat) (seen pending : List α), work next within seen pending < fuel →
      Searching inside next root seen pending →
      ∃ result, explore inside next fuel seen pending = some result ∧
        ∀ node, node ∈ result ↔ Reached inside next root node := by
  intro fuel
  induction fuel with
  | zero =>
    intro seen pending enough
    exact absurd enough (Nat.not_lt_zero _)
  | succ fuel ih =>
    intro seen pending enough searching
    cases pending with
    | nil => exact ⟨seen,rfl,searching_done searching⟩
    | cons node pending =>
      rw [explore]
      by_cases skipped : (!inside node || node ∈ seen) = true
      · rw [if_pos skipped]
        refine ih seen pending ?_ (searching_skip searching skipped)
        unfold work at enough ⊢
        rw [List.length_cons] at enough
        omega
      · rw [if_neg skipped]
        have isInside : inside node = true := by
          cases isInside : inside node with
          | true => rfl
          | false =>
            rw [isInside] at skipped
            exact absurd rfl skipped
        have fresh : node ∉ seen := by
          intro member
          rw [decide_eq_true member,Bool.or_true] at skipped
          exact skipped rfl
        have less : work next within (node :: seen) (next node ++ pending) < work next within seen (node :: pending) :=
          work_visit (bounded node isInside) fresh
        exact ih _ _ (by omega) (searching_visit searching isInside)

theorem explore_exact {within : Finset α} (bounded : ∀ node, inside node = true → node ∈ within) (root : α) (fuel : Nat)
    (enough : 1 + ∑ node ∈ within, ((next node).length + 1) < fuel) :
    ∃ result, explore inside next fuel [] [root] = some result ∧ ∀ node, node ∈ result ↔ Reached inside next root node := by
  refine explore_searching bounded fuel [] [root] ?_ (searching_start root)
  unfold work
  rw [Finset.filter_true_of_mem fun _ _ => List.not_mem_nil]
  exact enough

end Measure

end Rsleigh.Exploration
