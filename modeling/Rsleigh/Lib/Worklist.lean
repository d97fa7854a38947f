import Mathlib.Logic.Function.Basic

namespace Rsleigh.Worklist

-- A dataflow problem over numbered nodes: what enters a node from what leaves the others, and what leaves it.
structure Problem (α : Type) where
  join : Nat → (Nat → α) → α
  transfer : Nat → α → α
  successors : Nat → List Nat

-- What enters a node depends on the nodes it is a successor of.
def Problem.Local (problem : Problem α) : Prop :=
  ∀ (node changed : Nat) (exits : Nat → α) (value : α), node ∉ problem.successors changed →
    problem.join node (Function.update exits changed value) = problem.join node exits

-- The nodes that wait for a visit, and what is known of all of them.
structure State (α : Type) where
  queue : List Nat
  entries : Nat → α
  exits : Nat → α

-- A node waits once.
def enqueue (queue successors : List Nat) : List Nat :=
  successors.foldl (fun queue next => if next ∈ queue then queue else queue ++ [next]) queue

section Run

variable [DecidableEq α] (problem : Problem α)

def visit (node : Nat) (state : State α) : State α :=
  let entry := problem.join node state.exits
  let exit := problem.transfer node entry
  let state := { state with entries := Function.update state.entries node entry }
  if state.exits node = exit then state
  else
    { state with
      exits := Function.update state.exits node exit
      queue := enqueue state.queue (problem.successors node) }

-- At most `limit` visits.
def run : Nat → State α → State α
  | 0, state => state
  | limit + 1, state =>
    match state.queue with
    | [] => state
    | node :: rest => run limit (visit problem node { state with queue := rest })

end Run

theorem mem_enqueue {queue successors : List Nat} {node : Nat} :
    node ∈ enqueue queue successors ↔ node ∈ queue ∨ node ∈ successors := by
  unfold enqueue
  induction successors generalizing queue with
  | nil => simp
  | cons next rest ih =>
    rw [List.foldl_cons,ih]
    by_cases waits : next ∈ queue
    · rw [if_pos waits,List.mem_cons]
      constructor
      · rintro (before | later)
        · exact Or.inl before
        · exact Or.inr (Or.inr later)
      · rintro (before | rfl | later)
        · exact Or.inl before
        · exact Or.inl waits
        · exact Or.inr later
    · rw [if_neg waits,List.mem_append,List.mem_singleton,List.mem_cons,or_assoc]

-- The nodes that do not wait are settled: what is known of them follows from what is known of the others.
def Settled (problem : Problem α) (count : Nat) (state : State α) : Prop :=
  ∀ node < count, node ∉ state.queue →
    state.entries node = problem.join node state.exits ∧ state.exits node = problem.transfer node (state.entries node)

section Settled

variable [DecidableEq α] {problem : Problem α} {count : Nat}

theorem visit_settled (isLocal : problem.Local) {state : State α} {node : Nat} {rest : List Nat}
    (isNext : state.queue = node :: rest) (settled : Settled problem count state) :
    Settled problem count (visit problem node { state with queue := rest }) := by
  intro other inRange noWait
  unfold visit at noWait ⊢
  dsimp only at noWait ⊢
  by_cases same : state.exits node = problem.transfer node (problem.join node state.exits)
  · rw [if_pos same] at noWait ⊢
    dsimp only at noWait ⊢
    by_cases here : other = node
    · subst here
      rw [Function.update_self]
      exact ⟨rfl,same⟩
    · have before := settled other inRange (by
        rw [isNext,List.mem_cons]
        rintro (isNode | later)
        · exact here isNode
        · exact noWait later)
      rw [Function.update_of_ne here]
      exact before
  · rw [if_neg same] at noWait ⊢
    dsimp only at noWait ⊢
    obtain ⟨noRest,noSuccessor⟩ := not_or.mp (fun waits => noWait (mem_enqueue.mpr waits))
    have joined : problem.join other (Function.update state.exits node
        (problem.transfer node (problem.join node state.exits))) = problem.join other state.exits :=
      isLocal _ _ _ _ noSuccessor
    by_cases here : other = node
    · subst here
      rw [Function.update_self,Function.update_self,joined]
      exact ⟨rfl,rfl⟩
    · have before := settled other inRange (by
        rw [isNext,List.mem_cons]
        rintro (isNode | later)
        · exact here isNode
        · exact noRest later)
      rw [Function.update_of_ne here,Function.update_of_ne here,joined]
      exact before

theorem run_settled (isLocal : problem.Local) : ∀ {limit : Nat} {state : State α},
    Settled problem count state → Settled problem count (run problem limit state) := by
  intro limit
  induction limit with
  | zero => exact id
  | succ limit ih =>
    intro state settled
    unfold run
    cases isNext : state.queue with
    | nil => exact settled
    | cons node rest => exact ih (visit_settled isLocal isNext settled)

end Settled

end Rsleigh.Worklist
