import Mathlib.Data.List.Basic

namespace Rsleigh.Hops

section Search

variable {α β : Type} [DecidableEq α] (flows : α → α → Bool) (reads : α → Option β) (nodes : List α)

-- The nodes that flow to one node and have not been visited: what the first that reads anything reads, or the nodes
-- visited so far and those of the next level.
def scanNode (target : α) : List α → List α → List α → β ⊕ (List α × List α)
  | [], visited, next => .inr (visited, next)
  | pred :: preds, visited, next =>
    if pred ∈ visited || !flows pred target then scanNode target preds visited next
    else
      match reads pred with
      | some found => .inl found
      | none => scanNode target preds (pred :: visited) (next ++ [pred])

def scanLevel : List α → List α → List α → β ⊕ (List α × List α)
  | [], visited, next => .inr (visited, next)
  | target :: targets, visited, next =>
    match scanNode flows reads target nodes visited next with
    | .inl found => .inl found
    | .inr (visited, next) => scanLevel targets visited next

-- A search against the edges, level by level, for the first node that reads anything.
def hops : Nat → List α → List α → Option β
  | 0, _, _ => none
  | bound + 1, visited, frontier =>
    match scanLevel flows reads nodes frontier visited [] with
    | .inl found => some found
    | .inr (visited, next) => hops bound visited next

end Search

section Spec

variable {α β : Type} (flows : α → α → Bool) (reads : α → Option β) (goal : α)

-- The edges from a node to the goal, when no node after it reads anything.
inductive Trail : Nat → α → Prop where
  | here : Trail 0 goal
  | back : Trail n next → reads next = none → flows pred next = true → Trail (n + 1) pred

-- A node at the end of a trail that reads nothing itself.
def Silent (n : Nat) (node : α) : Prop := Trail flows reads goal n node ∧ reads node = none

-- What a scan of one level gives: what the node at the end of a longer trail reads, or such nodes that read nothing.
def Scanned (n : Nat) : β ⊕ (List α × List α) → Prop
  | .inl found => ∃ node, Trail flows reads goal (n + 1) node ∧ reads node = some found
  | .inr (_, next) => ∀ node ∈ next, Silent flows reads goal (n + 1) node

variable {flows reads goal}

variable [DecidableEq α]

theorem scanNode_scanned {target : α} (silent : Silent flows reads goal n target) (preds visited next : List α)
    (level : ∀ node ∈ next, Silent flows reads goal (n + 1) node) :
    Scanned flows reads goal n (scanNode flows reads target preds visited next) := by
  induction preds generalizing visited next with
  | nil => exact level
  | cons pred preds ih =>
    unfold scanNode
    by_cases skipped : (pred ∈ visited || !flows pred target) = true
    · rw [if_pos skipped]
      exact ih visited next level
    · rw [if_neg skipped]
      have isEdge : flows pred target = true := by
        by_contra noEdge
        exact skipped (by simp [noEdge])
      have trail : Trail flows reads goal (n + 1) pred := .back silent.1 silent.2 isEdge
      cases read : reads pred with
      | some found => exact ⟨pred,trail,read⟩
      | none =>
        apply ih
        intro node member
        rcases List.mem_append.mp member with before | last
        · exact level node before
        · rw [List.mem_singleton.mp last]
          exact ⟨trail,read⟩

theorem scanLevel_scanned (nodes targets visited next : List α) (frontier : ∀ node ∈ targets, Silent flows reads goal n node)
    (level : ∀ node ∈ next, Silent flows reads goal (n + 1) node) :
    Scanned flows reads goal n (scanLevel flows reads nodes targets visited next) := by
  induction targets generalizing visited next with
  | nil => exact level
  | cons target targets ih =>
    have scanned := scanNode_scanned (frontier target List.mem_cons_self) nodes visited next level
    unfold scanLevel
    cases scan : scanNode flows reads target nodes visited next with
    | inl found =>
      rw [scan] at scanned
      exact scanned
    | inr rest =>
      rw [scan] at scanned
      exact ih _ _ (fun node member => frontier node (List.mem_cons_of_mem _ member)) scanned

theorem hops_level (nodes : List α) (bound : Nat) (visited frontier : List α)
    (level : ∀ node ∈ frontier, Silent flows reads goal n node) (found : hops flows reads nodes bound visited frontier = some value) :
    ∃ m ≤ n + bound, ∃ node, Trail flows reads goal m node ∧ reads node = some value := by
  induction bound generalizing n visited frontier with
  | zero => simp [hops] at found
  | succ bound ih =>
    have scanned := scanLevel_scanned nodes frontier visited [] level (by simp)
    unfold hops at found
    cases scan : scanLevel flows reads nodes frontier visited [] with
    | inl read =>
      rw [scan] at scanned found
      obtain ⟨node,trail,isRead⟩ := scanned
      simp only [Option.some.injEq] at found
      subst found
      exact ⟨n + 1,by omega,node,trail,isRead⟩
    | inr rest =>
      rw [scan] at scanned found
      obtain ⟨m,bounded,reached⟩ := ih _ _ scanned found
      exact ⟨m,by omega,reached⟩

theorem hops_trail (nodes : List α) (bound : Nat) (silent : reads goal = none)
    (found : hops flows reads nodes bound [goal] [goal] = some value) :
    ∃ n ≤ bound, ∃ node, Trail flows reads goal n node ∧ reads node = some value := by
  have level : ∀ node ∈ [goal], Silent flows reads goal 0 node := by
    intro node member
    rw [List.mem_singleton.mp member]
    exact ⟨.here,silent⟩
  simpa using hops_level nodes bound [goal] [goal] level found

end Spec

end Rsleigh.Hops
