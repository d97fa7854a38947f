import Mathlib.Data.List.Sort

namespace Rsleigh.Insertion

variable {tighter : α → α → Bool}

-- A new entry comes right before the first one that it is tighter than, or after all of them.
def insertBefore (tighter : α → α → Bool) (entry : α) : List α → List α
  | [] => [entry]
  | first :: rest => if tighter entry first then entry :: first :: rest else first :: insertBefore tighter entry rest

def insertAll (tighter : α → α → Bool) (entries : List α) : List α :=
  entries.foldl (fun order entry => insertBefore tighter entry order) []

def Strictly (tighter : α → α → Bool) (x y : α) : Prop :=
  tighter x y = true ∧ tighter y x = false

-- No entry is strictly tighter than one before it.
def Ordered (tighter : α → α → Bool) (order : List α) : Prop :=
  order.Pairwise fun x y => ¬Strictly tighter y x

theorem insertBefore_perm (entry : α) (order : List α) : (insertBefore tighter entry order).Perm (entry :: order) := by
  induction order with
  | nil => exact List.Perm.refl _
  | cons first rest ih =>
    unfold insertBefore
    split
    · exact List.Perm.refl _
    · exact (ih.cons first).trans (List.Perm.swap entry first rest)

theorem insertBefore_ordered (transitive : ∀ x y z, tighter x y = true → tighter y z = true → tighter x z = true)
    (entry : α) {order : List α} (ordered : Ordered tighter order) : Ordered tighter (insertBefore tighter entry order) := by
  induction order with
  | nil => exact List.pairwise_singleton _ entry
  | cons first rest ih =>
    obtain ⟨isFirst,restOrdered⟩ := List.pairwise_cons.mp ordered
    unfold insertBefore
    split
    · rename_i before
      refine List.pairwise_cons.mpr ⟨?_,ordered⟩
      intro later isLater strictly
      rcases List.mem_cons.mp isLater with rfl | isLater
      · simp [Strictly,before] at strictly
      · -- it would be strictly tighter than the first entry too
        apply isFirst later isLater
        refine ⟨transitive _ _ _ strictly.1 before,?_⟩
        apply Bool.eq_false_iff.mpr
        intro back
        have looser := transitive _ _ _ before back
        simp [strictly.2] at looser
    · rename_i behind
      refine List.pairwise_cons.mpr ⟨?_,ih restOrdered⟩
      intro later isLater strictly
      rcases List.mem_cons.mp ((insertBefore_perm entry rest).mem_iff.mp isLater) with rfl | isLater
      · exact behind strictly.1
      · exact isFirst later isLater strictly

theorem foldl_perm (entries : List α) : ∀ order : List α,
    (entries.foldl (fun order entry => insertBefore tighter entry order) order).Perm (entries ++ order) := by
  induction entries with
  | nil => exact fun order => List.Perm.refl _
  | cons entry rest ih =>
    intro order
    refine (ih _).trans ?_
    refine ((insertBefore_perm entry order).append_left rest).trans ?_
    exact List.perm_middle

theorem foldl_ordered (transitive : ∀ x y z, tighter x y = true → tighter y z = true → tighter x z = true)
    (entries : List α) : ∀ {order : List α}, Ordered tighter order →
      Ordered tighter (entries.foldl (fun order entry => insertBefore tighter entry order) order) := by
  induction entries with
  | nil => exact fun ordered => ordered
  | cons entry rest ih =>
    intro order ordered
    exact ih (insertBefore_ordered transitive entry ordered)

theorem insertAll_perm (entries : List α) : (insertAll tighter entries).Perm entries := by
  simpa [insertAll] using @foldl_perm _ tighter entries []

theorem insertAll_ordered (transitive : ∀ x y z, tighter x y = true → tighter y z = true → tighter x z = true)
    (entries : List α) : Ordered tighter (insertAll tighter entries) :=
  foldl_ordered transitive entries List.Pairwise.nil

theorem ordered_precedes [DecidableEq α] {order : List α} {x y : α} (ordered : Ordered tighter order)
    (isX : x ∈ order) (isY : y ∈ order) (strictly : Strictly tighter x y) : order.idxOf x < order.idxOf y := by
  have inX := List.idxOf_lt_length_of_mem isX
  have inY := List.idxOf_lt_length_of_mem isY
  rcases Nat.lt_trichotomy (order.idxOf x) (order.idxOf y) with before | same | later
  · exact before
  · have isSame : x = y := by
      rw [← List.getElem_idxOf inX,← List.getElem_idxOf inY]
      simp only [same]
    subst isSame
    simp [Strictly] at strictly
  · have pair := List.pairwise_iff_getElem.mp ordered _ _ inY inX later
    rw [List.getElem_idxOf inX,List.getElem_idxOf inY] at pair
    exact absurd strictly pair

end Rsleigh.Insertion
