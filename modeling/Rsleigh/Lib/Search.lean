import Mathlib

namespace Rsleigh.Search

section Leads

variable {α : Type} (goal : α → Bool) (next : α → List α)

-- Some path from here comes to a goal.
inductive Leads : α → Prop where
  | here {place : α} : goal place = true → Leads place
  | step {place after : α} : after ∈ next place → Leads after → Leads place

-- The same, over paths of fewer than `rounds` steps.
def leadsWithin : Nat → α → Bool
  | 0, _ => false
  | rounds + 1, place => goal place || (next place).any (leadsWithin rounds)

end Leads

variable {α : Type} {goal : α → Bool} {next : α → List α}

theorem leads_within : ∀ {rounds : Nat} {place : α}, leadsWithin goal next rounds place = true →
    Leads goal next place := by
  intro rounds
  induction rounds with
  | zero =>
    intro place within
    cases within
  | succ rounds ih =>
    intro place within
    rcases Bool.or_eq_true_iff.mp within with isGoal | later
    · exact Leads.here isGoal
    · obtain ⟨after,isNext,leads⟩ := List.any_eq_true.mp later
      exact Leads.step isNext (ih leads)

theorem within_succ : ∀ {rounds : Nat} {place : α}, leadsWithin goal next rounds place = true →
    leadsWithin goal next (rounds + 1) place = true := by
  intro rounds
  induction rounds with
  | zero =>
    intro place within
    cases within
  | succ rounds ih =>
    intro place within
    unfold leadsWithin
    rcases Bool.or_eq_true_iff.mp within with isGoal | later
    · exact Bool.or_eq_true_iff.mpr (Or.inl isGoal)
    · obtain ⟨after,isNext,leads⟩ := List.any_eq_true.mp later
      exact Bool.or_eq_true_iff.mpr (Or.inr (List.any_eq_true.mpr ⟨after,isNext,ih leads⟩))

theorem within_mono {rounds more : Nat} (le : rounds ≤ more) {place : α}
    (within : leadsWithin goal next rounds place = true) : leadsWithin goal next more place = true := by
  induction le with
  | refl => exact within
  | step _ ih => exact within_succ ih

theorem within_leads {place : α} (leads : Leads goal next place) :
    ∃ rounds, leadsWithin goal next rounds place = true := by
  induction leads with
  | here isGoal => exact ⟨1,Bool.or_eq_true_iff.mpr (Or.inl isGoal)⟩
  | step isNext _ ih =>
    obtain ⟨rounds,within⟩ := ih
    exact ⟨rounds + 1,Bool.or_eq_true_iff.mpr (Or.inr (List.any_eq_true.mpr ⟨_,isNext,within⟩))⟩

-- The places that are found grow with the rounds, and a round that finds nothing is the last one that does.
theorem leads_iff {places : Finset α} (closed : ∀ place, Leads goal next place → place ∈ places) (place : α) :
    Leads goal next place ↔ leadsWithin goal next places.card place = true := by
  constructor
  · intro leads
    obtain ⟨rounds,within⟩ := within_leads leads
    let found : Nat → Finset α := fun rounds => places.filter fun place => leadsWithin goal next rounds place = true
    have mem_found : ∀ {rounds : Nat} {place : α},
        place ∈ found rounds ↔ leadsWithin goal next rounds place = true := by
      intro rounds place
      exact ⟨fun member => (Finset.mem_filter.mp member).2,fun within =>
        Finset.mem_filter.mpr ⟨closed place (leads_within within),within⟩⟩
    have grows : ∀ rounds, found rounds ⊆ found (rounds + 1) := by
      intro rounds place member
      exact mem_found.mpr (within_succ (mem_found.mp member))
    have settles : ∀ rounds, (found rounds).card = (found (rounds + 1)).card →
        (found (rounds + 1)).card = (found (rounds + 2)).card := by
      intro rounds same
      have equal : found rounds = found (rounds + 1) := Finset.eq_of_subset_of_card_le (grows rounds) (Nat.le_of_eq same.symm)
      apply congrArg Finset.card
      apply Finset.Subset.antisymm (grows (rounds + 1))
      intro place member
      apply mem_found.mpr
      rcases Bool.or_eq_true_iff.mp (mem_found.mp member) with isGoal | later
      · exact Bool.or_eq_true_iff.mpr (Or.inl isGoal)
      · obtain ⟨after,isNext,within⟩ := List.any_eq_true.mp later
        have before : leadsWithin goal next rounds after = true := mem_found.mp (equal ▸ mem_found.mpr within)
        exact Bool.or_eq_true_iff.mpr (Or.inr (List.any_eq_true.mpr ⟨after,isNext,before⟩))
    have bounded : ∀ rounds, (found rounds).card ≤ places.card :=
      fun rounds => Finset.card_le_card (Finset.filter_subset _ places)
    have mono : Monotone fun rounds => (found rounds).card :=
      monotone_nat_of_le_succ fun rounds => Finset.card_le_card (grows rounds)
    have enough := within_mono (Nat.le_max_left rounds places.card) within
    have last := Nat.stabilises_of_monotone mono bounded settles (Nat.le_max_right rounds places.card)
    have subset : found places.card ⊆ found (max rounds places.card) := fun place member =>
      mem_found.mpr (within_mono (Nat.le_max_right rounds places.card) (mem_found.mp member))
    have equal := Finset.eq_of_subset_of_card_le subset (Nat.le_of_eq last)
    exact mem_found.mp (equal ▸ mem_found.mpr enough)
  · exact leads_within

end Rsleigh.Search
