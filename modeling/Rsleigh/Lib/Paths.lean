import Mathlib.Data.List.Perm.Subperm
import Mathlib.Logic.Relation

namespace Rsleigh.Paths

-- The paths from the root, by the nodes they pass, the last one first.
inductive Path (edge : α → α → Prop) (root : α) : α → List α → Prop where
  | start : Path edge root root [root]
  | step : Path edge root a nodes → edge a b → Path edge root b (b :: nodes)

-- Every path from the root to `b` passes `d`.
def Dominates (edge : α → α → Prop) (root d b : α) : Prop :=
  ∀ nodes, Path edge root b nodes → d ∈ nodes

-- Every path of at most `bound` nodes does.
def DominatesWithin (edge : α → α → Prop) (root : α) (bound : Nat) (d b : α) : Prop :=
  ∀ nodes, Path edge root b nodes → nodes.length ≤ bound → d ∈ nodes

-- The last node, `b` apart, that all paths from the root to `b` pass.
structure ImmediatelyDominates (edge : α → α → Prop) (root d b : α) : Prop where
  dominates : Dominates edge root d b
  strict : d ≠ b
  closest : ∀ e, Dominates edge root e b → e ≠ b → Dominates edge root e d

section Paths

variable {edge : α → α → Prop} {root : α}

theorem path_last (path : Path edge root b nodes) : b ∈ nodes := by
  cases path with
  | start => exact List.mem_singleton_self _
  | step before isEdge => exact List.mem_cons_self

theorem path_root (path : Path edge root b nodes) : root ∈ nodes := by
  induction path with
  | start => exact List.mem_singleton_self _
  | step before isEdge ih => exact List.mem_cons_of_mem _ ih

theorem path_reached (path : Path edge root b nodes) : Relation.ReflTransGen edge root b := by
  induction path with
  | start => exact .refl
  | step before isEdge ih => exact ih.tail isEdge

theorem reached_path (reached : Relation.ReflTransGen edge root b) : ∃ nodes, Path edge root b nodes := by
  induction reached with
  | refl => exact ⟨[root],.start⟩
  | tail before isEdge ih =>
    obtain ⟨nodes,path⟩ := ih
    exact ⟨_,.step path isEdge⟩

theorem path_prefix (path : Path edge root b nodes) (passed : d ∈ nodes) :
    ∃ before, Path edge root d before ∧ before <:+ nodes := by
  induction path with
  | start =>
    rw [List.mem_singleton.mp passed]
    exact ⟨_,.start,List.suffix_refl _⟩
  | @step a nodes b before isEdge ih =>
    rcases List.mem_cons.mp passed with isLast | passed
    · rw [isLast]
      exact ⟨_,.step before isEdge,List.suffix_refl _⟩
    · obtain ⟨first,firstPath,isSuffix⟩ := ih passed
      exact ⟨first,firstPath,isSuffix.trans (List.suffix_cons _ _)⟩

theorem passed_reached (path : Path edge root b nodes) (passed : d ∈ nodes) : Relation.ReflTransGen edge root d := by
  obtain ⟨before,beforePath,_⟩ := path_prefix path passed
  exact path_reached beforePath

theorem path_simple (path : Path edge root b nodes) :
    ∃ simple, Path edge root b simple ∧ simple.Nodup ∧ simple ⊆ nodes := by
  induction path with
  | start => exact ⟨[root],.start,List.pairwise_singleton _ _,List.Subset.refl _⟩
  | @step a nodes b before isEdge ih =>
    obtain ⟨simple,simplePath,nodup,subset⟩ := ih
    by_cases passed : b ∈ simple
    · obtain ⟨first,firstPath,isSuffix⟩ := path_prefix simplePath passed
      exact ⟨first,firstPath,nodup.sublist isSuffix.sublist,
        fun node member => List.mem_cons_of_mem _ (subset (isSuffix.subset member))⟩
    · exact ⟨b :: simple,.step simplePath isEdge,List.nodup_cons.mpr ⟨passed,nodup⟩,List.cons_subset_cons _ subset⟩

theorem dominates_self (b : α) : Dominates edge root b b := fun _ path => path_last path

theorem dominates_root (b : α) : Dominates edge root root b := fun _ path => path_root path

theorem dominates_trans (first : Dominates edge root e d) (second : Dominates edge root d b) :
    Dominates edge root e b := by
  intro nodes path
  obtain ⟨before,beforePath,isSuffix⟩ := path_prefix path (second nodes path)
  exact isSuffix.subset (first before beforePath)

theorem dominates_before (dominates : Dominates edge root d b) (other : d ≠ b) (isEdge : edge a b) :
    Dominates edge root d a := by
  intro nodes path
  rcases List.mem_cons.mp (dominates _ (.step path isEdge)) with same | passed
  · exact absurd same other
  · exact passed

theorem dominator_reached (reached : Relation.ReflTransGen edge root b) (dominates : Dominates edge root d b) :
    Relation.ReflTransGen edge root d := by
  obtain ⟨nodes,path⟩ := reached_path reached
  exact passed_reached path (dominates nodes path)

theorem within_trans (first : DominatesWithin edge root bound e d) (second : DominatesWithin edge root bound d b) :
    DominatesWithin edge root bound e b := by
  intro nodes path short
  obtain ⟨before,beforePath,isSuffix⟩ := path_prefix path (second nodes path short)
  exact isSuffix.subset (first before beforePath (Nat.le_trans isSuffix.length_le short))

theorem within_succ (notRoot : b ≠ root)
    (before : ∀ a, edge a b → Relation.ReflTransGen edge root a → DominatesWithin edge root bound d a) :
    DominatesWithin edge root (bound + 1) d b := by
  intro nodes path short
  cases path with
  | start => exact absurd rfl notRoot
  | step path isEdge =>
    rw [List.length_cons,Nat.add_le_add_iff_right] at short
    exact List.mem_cons_of_mem _ (before _ isEdge (path_reached path) _ path short)

theorem within_all {order : List α} (listed : ∀ node, Relation.ReflTransGen edge root node → node ∈ order)
    (dominates : DominatesWithin edge root order.length d b) : Dominates edge root d b := by
  intro nodes path
  obtain ⟨simple,simplePath,nodup,subset⟩ := path_simple path
  apply subset
  apply dominates simple simplePath
  have inOrder : simple ⊆ order := fun node member => listed node (passed_reached simplePath member)
  exact (nodup.subperm inOrder).length_le

end Paths

section Lead

-- A graph whose first nodes form a line that leads into another graph.
variable {edge inner : Nat → Nat → Prop} {line : Nat}

theorem line_path (leads : ∀ a b, a < line → (edge a b ↔ b = a + 1)) (place : Nat) (inLine : place ≤ line) :
    Path edge 0 place (List.range (place + 1)).reverse := by
  induction place with
  | zero => exact .start
  | succ place ih =>
    rw [List.range_succ,List.reverse_append]
    exact .step (ih (Nat.le_of_succ_le inLine)) ((leads _ _ inLine).mpr rfl)

theorem path_after (leads : ∀ a b, a < line → (edge a b ↔ b = a + 1))
    (follows : ∀ a b, edge (line + a) b ↔ ∃ after, b = line + after ∧ inner a after) (path : Path inner 0 place nodes) :
    Path edge 0 (line + place) (nodes.map (line + ·) ++ (List.range line).reverse) := by
  induction path with
  | start =>
    have whole := line_path leads line (Nat.le_refl _)
    rw [List.range_succ,List.reverse_append] at whole
    exact whole
  | step before isEdge ih => exact .step ih ((follows _ _).mpr ⟨_,rfl,isEdge⟩)

theorem path_split (leads : ∀ a b, a < line → (edge a b ↔ b = a + 1))
    (follows : ∀ a b, edge (line + a) b ↔ ∃ after, b = line + after ∧ inner a after) (path : Path edge 0 place nodes) :
    (place < line ∧ nodes = (List.range (place + 1)).reverse) ∨ ∃ after later, place = line + after ∧
      Path inner 0 after later ∧ nodes = later.map (line + ·) ++ (List.range line).reverse := by
  induction path with
  | start =>
    rcases Nat.eq_zero_or_pos line with none | some
    · exact .inr ⟨0,[0],by rw [none],.start,by simp [none]⟩
    · exact .inl ⟨some,rfl⟩
  | @step a nodes b before isEdge ih =>
    rcases ih with ⟨inLine,rfl⟩ | ⟨after,later,rfl,laterPath,rfl⟩
    · obtain rfl := (leads _ _ inLine).mp isEdge
      rcases Nat.lt_or_ge (a + 1) line with still | past
      · exact .inl ⟨still,by rw [List.range_succ (n := a + 1),List.reverse_append]; rfl⟩
      · obtain rfl : line = a + 1 := Nat.le_antisymm past inLine
        exact .inr ⟨0,[0],rfl,.start,rfl⟩
    · obtain ⟨next,rfl,isNext⟩ := (follows _ _).mp isEdge
      exact .inr ⟨next,next :: later,rfl,.step laterPath isNext,rfl⟩

theorem dominates_line (leads : ∀ a b, a < line → (edge a b ↔ b = a + 1))
    (follows : ∀ a b, edge (line + a) b ↔ ∃ after, b = line + after ∧ inner a after) (inLine : d < line) :
    Dominates edge 0 d (line + place) := by
  intro nodes path
  rcases path_split leads follows path with ⟨before,_⟩ | ⟨after,later,_,_,rfl⟩
  · omega
  · simp [inLine]

theorem dominates_after (leads : ∀ a b, a < line → (edge a b ↔ b = a + 1))
    (follows : ∀ a b, edge (line + a) b ↔ ∃ after, b = line + after ∧ inner a after) :
    Dominates edge 0 (line + d) (line + place) ↔ Dominates inner 0 d place := by
  constructor
  · intro dominates nodes path
    have passed := dominates _ (path_after leads follows path)
    have outside : ¬ line + d < line := Nat.not_lt_of_le (Nat.le_add_right _ _)
    simpa [outside] using passed
  · intro dominates nodes path
    rcases path_split leads follows path with ⟨before,_⟩ | ⟨after,later,same,laterPath,rfl⟩
    · omega
    · obtain rfl := Nat.add_left_cancel same
      simp [dominates later laterPath]

end Lead

section Gates

variable {edge : α → α → Prop} {root : α}

theorem path_head (path : Path edge root b nodes) : ∃ before, nodes = b :: before := by
  cases path with
  | start => exact ⟨[],rfl⟩
  | step before isEdge => exact ⟨_,rfl⟩

theorem simple_before (path : Path edge root b nodes) (nodup : nodes.Nodup) (passed : d ∈ nodes) (other : d ≠ b) :
    ∃ before, Path edge root d before ∧ b ∉ before ∧ before.Nodup := by
  obtain ⟨before,beforePath,isSuffix⟩ := path_prefix path passed
  obtain ⟨rest,rfl⟩ := path_head path
  obtain ⟨earlier,rfl⟩ := path_head beforePath
  rcases List.suffix_cons_iff.mp isSuffix with same | inner
  · exact absurd (List.cons.inj same).1 other
  · rw [List.nodup_cons] at nodup
    exact ⟨_,beforePath,fun passedTwice => nodup.1 (inner.subset passedTwice),nodup.2.sublist inner.sublist⟩

theorem dominates_antisymm (reached : Relation.ReflTransGen edge root b) (down : Dominates edge root d b)
    (up : Dominates edge root b d) : d = b := by
  obtain ⟨nodes,path⟩ := reached_path reached
  obtain ⟨simple,simplePath,nodup,_⟩ := path_simple path
  by_contra other
  obtain ⟨before,beforePath,missed,_⟩ := simple_before simplePath nodup (down simple simplePath) other
  exact missed (up before beforePath)

theorem gate_not_above (reached : Relation.ReflTransGen edge root c) (notRoot : arm ≠ root)
    (only : ∀ a, edge a arm → a = c) : ¬Dominates edge root arm c := by
  intro dominates
  obtain ⟨nodes,path⟩ := reached_path reached
  obtain ⟨simple,simplePath,nodup,_⟩ := path_simple path
  have passes : ∀ {before}, Path edge root arm before → ∃ rest, before = arm :: rest ∧ c ∈ rest := by
    intro before beforePath
    cases beforePath with
    | start => exact absurd rfl notRoot
    | @step a nodes _ earlier isEdge => exact ⟨nodes,rfl,only a isEdge ▸ path_last earlier⟩
  by_cases same : arm = c
  · subst same
    obtain ⟨rest,rfl,again⟩ := passes simplePath
    exact (List.nodup_cons.mp nodup).1 again
  · obtain ⟨before,beforePath,missed,_⟩ := simple_before simplePath nodup (dominates simple simplePath) same
    obtain ⟨rest,rfl,passed⟩ := passes beforePath
    exact missed (List.mem_cons_of_mem _ passed)

-- Behind a node that leads back to the root or on to `arm`, everything is behind `arm`.
theorem gate_behind (dominates : Dominates edge root c b) (other : b ≠ c)
    (leads : ∀ next, edge c next → next = root ∨ next = arm) : Dominates edge root arm b ∧
      (Relation.ReflTransGen edge root b → arm ≠ root) := by
  have simply : ∀ {b nodes}, Path edge root b nodes → nodes.Nodup → c ∈ nodes → b ≠ c → arm ∈ nodes ∧ arm ≠ root := by
    intro b nodes path
    induction path with
    | start => exact fun _ passed notLast => absurd (List.mem_singleton.mp passed).symm notLast
    | @step a nodes b before isEdge ih =>
      intro nodup passed notLast
      rw [List.nodup_cons] at nodup
      have earlier : c ∈ nodes := (List.mem_cons.mp passed).resolve_left fun same => notLast same.symm
      by_cases isGate : a = c
      · subst isGate
        rcases leads b isEdge with rfl | rfl
        · exact absurd (path_root before) nodup.1
        · exact ⟨List.mem_cons_self,fun isRoot => nodup.1 (isRoot ▸ path_root before)⟩
      · obtain ⟨found,notRoot⟩ := ih nodup.2 earlier isGate
        exact ⟨List.mem_cons_of_mem _ found,notRoot⟩
  constructor
  · intro nodes path
    obtain ⟨simple,simplePath,nodup,subset⟩ := path_simple path
    exact subset (simply simplePath nodup (dominates simple simplePath) other).1
  · intro reached
    obtain ⟨nodes,path⟩ := reached_path reached
    obtain ⟨simple,simplePath,nodup,_⟩ := path_simple path
    exact (simply simplePath nodup (dominates simple simplePath) other).2

end Gates

end Rsleigh.Paths
