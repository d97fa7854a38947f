import Mathlib.Data.List.Induction
import Rsleigh.Lib.Parser

namespace Rsleigh.Infix

-- Expressions over binary operators, as values and as written text. Nothing here is about one
-- language: `ο` are the operators and `α` the atoms.
inductive Tree (α ο : Type) where
  | leaf (atom : α)
  | node (op : ο) (left right : Tree α ο)
  deriving DecidableEq, Repr

inductive Lexeme (α ο : Type) where
  | atom (atom : α)
  | op (op : ο)
  | opening
  | closing
  deriving DecidableEq, Repr

-- A text with the parentheses it is written with.
inductive Text (α ο : Type) where
  | leaf (atom : α)
  | paren (inner : Text α ο)
  | node (op : ο) (left right : Text α ο)
  deriving DecidableEq, Repr

variable {α ο : Type}

namespace Text

-- What the text stands for.
def tree : Text α ο → Tree α ο
  | leaf atom => .leaf atom
  | paren inner => inner.tree
  | node op left right => .node op left.tree right.tree

def lexemes : Text α ο → List (Lexeme α ο)
  | leaf atom => [.atom atom]
  | paren inner => .opening :: inner.lexemes ++ [.closing]
  | node op left right => left.lexemes ++ .op op :: right.lexemes

-- How loosely the operator on top of a text binds, one more than its rank; 0 for what binds as an atom does.
def top (rank : ο → Nat) : Text α ο → Nat
  | node op _ _ => rank op + 1
  | _ => 0

-- Operands bind no looser than their operator: without this, the text is not a text of its tree in any grouping.
def Layered (rank : ο → Nat) : Text α ο → Prop
  | leaf _ => True
  | paren inner => inner.Layered rank
  | node op left right =>
    left.top rank ≤ rank op + 1 ∧ right.top rank ≤ rank op + 1 ∧ left.Layered rank ∧ right.Layered rank

-- Equal ranks nest to the right only.
def RightGrouped (rank : ο → Nat) : Text α ο → Prop
  | leaf _ => True
  | paren inner => inner.RightGrouped rank
  | node op left right =>
    left.top rank ≤ rank op ∧ right.top rank ≤ rank op + 1 ∧ left.RightGrouped rank ∧ right.RightGrouped rank

end Text

-- The same lexemes with `op` and what follows it moved under the last operator of the same rank.
def graft (rank : ο → Nat) : Text α ο → ο → Text α ο → Text α ο
  | .node inner left right, op, rest =>
    if rank inner = rank op then .node inner left (graft rank right op rest)
    else .node op (.node inner left right) rest
  | text, op, rest => .node op text rest

-- The right-grouped text of the same lexemes.
def regroup (rank : ο → Nat) : Text α ο → Text α ο
  | .leaf atom => .leaf atom
  | .paren inner => .paren (regroup rank inner)
  | .node op left right => graft rank (regroup rank left) op (regroup rank right)

theorem graft_lexemes (rank : ο → Nat) (text : Text α ο) (op : ο) (rest : Text α ο) :
    (graft rank text op rest).lexemes = text.lexemes ++ .op op :: rest.lexemes := by
  induction text with
  | leaf atom => rfl
  | paren inner => rfl
  | node inner left right _ ih =>
    simp only [graft]
    split
    · simp [Text.lexemes,ih]
    · rfl

theorem regroup_lexemes (rank : ο → Nat) (text : Text α ο) : (regroup rank text).lexemes = text.lexemes := by
  induction text with
  | leaf atom => rfl
  | paren inner ih => simp [regroup,Text.lexemes,ih]
  | node op left right ofLeft ofRight => simp [regroup,graft_lexemes,Text.lexemes,ofLeft,ofRight]

theorem graft_top {rank : ο → Nat} {text : Text α ο} {op : ο} (rest : Text α ο) :
    (graft rank text op rest).top rank = rank op + 1 := by
  cases text with
  | leaf atom => rfl
  | paren inner => rfl
  | node inner left right =>
    simp only [graft]
    split
    · rename_i same
      simp [Text.top,same]
    · rfl

theorem graft_rightGrouped {rank : ο → Nat} {text rest : Text α ο} {op : ο}
    (grouped : text.RightGrouped rank) (restGrouped : rest.RightGrouped rank)
    (tight : text.top rank ≤ rank op + 1) (restTight : rest.top rank ≤ rank op + 1) :
    (graft rank text op rest).RightGrouped rank := by
  induction text with
  | leaf atom => exact ⟨Nat.zero_le _,restTight,grouped,restGrouped⟩
  | paren inner => exact ⟨Nat.zero_le _,restTight,grouped,restGrouped⟩
  | node inner left right _ ih =>
    simp only [graft]
    split
    · rename_i same
      obtain ⟨leftTight,rightTight,leftGrouped,rightGrouped⟩ := grouped
      refine ⟨leftTight,?_,leftGrouped,ih rightGrouped (by omega)⟩
      rw [graft_top]
      omega
    · rename_i other
      simp only [Text.top] at tight
      refine ⟨?_,restTight,grouped,restGrouped⟩
      simp only [Text.top]
      omega

theorem regroup_top (rank : ο → Nat) (text : Text α ο) : (regroup rank text).top rank = text.top rank := by
  cases text with
  | leaf atom => rfl
  | paren inner => rfl
  | node op left right => exact graft_top _

theorem regroup_rightGrouped {rank : ο → Nat} {text : Text α ο} (layered : text.Layered rank) :
    (regroup rank text).RightGrouped rank := by
  induction text with
  | leaf atom => trivial
  | paren inner ih => exact ih layered
  | node op left right ofLeft ofRight =>
    obtain ⟨leftTight,rightTight,leftLayered,rightLayered⟩ := layered
    apply graft_rightGrouped (ofLeft leftLayered) (ofRight rightLayered)
    · rw [regroup_top]
      exact leftTight
    · rw [regroup_top]
      exact rightTight

-- Moving an operator to the right makes the left operands smaller. This potential is what tells a
-- regrouped tree from the one that was written.
def Tree.size : Tree α ο → Nat
  | .leaf _ => 1
  | .node _ left right => left.size + right.size + 1

def Tree.leftWeight : Tree α ο → Nat
  | .leaf _ => 0
  | .node _ left right => left.size + left.leftWeight + right.leftWeight

theorem graft_size (rank : ο → Nat) (text : Text α ο) (op : ο) (rest : Text α ο) :
    (graft rank text op rest).tree.size = text.tree.size + rest.tree.size + 1 := by
  induction text with
  | leaf atom => rfl
  | paren inner => rfl
  | node inner left right _ ih =>
    simp only [graft]
    split
    · simp only [Text.tree,Tree.size,ih]
      omega
    · rfl

theorem regroup_size (rank : ο → Nat) (text : Text α ο) : (regroup rank text).tree.size = text.tree.size := by
  induction text with
  | leaf atom => rfl
  | paren inner ih => exact ih
  | node op left right ofLeft ofRight => simp only [regroup,graft_size,Text.tree,Tree.size,ofLeft,ofRight]

theorem graft_leftWeight (rank : ο → Nat) (text : Text α ο) (op : ο) (rest : Text α ο) :
    (graft rank text op rest).tree.leftWeight ≤
      text.tree.size + text.tree.leftWeight + rest.tree.leftWeight := by
  induction text with
  | leaf atom => exact Nat.le_refl _
  | paren inner => exact Nat.le_refl _
  | node inner left right _ ih =>
    simp only [graft]
    split
    · simp only [Text.tree,Tree.leftWeight,Tree.size]
      omega
    · exact Nat.le_refl _

theorem tight_of_leftWeight {rank : ο → Nat} {text : Text α ο} {op : ο} {rest : Text α ο}
    (tight : text.top rank ≤ rank op + 1)
    (kept : text.tree.size + text.tree.leftWeight + rest.tree.leftWeight ≤
      (graft rank text op rest).tree.leftWeight) : text.top rank ≤ rank op := by
  cases text with
  | leaf atom => exact Nat.zero_le _
  | paren inner => exact Nat.zero_le _
  | node inner left right =>
    simp only [Text.top] at tight ⊢
    by_cases same : rank inner = rank op
    · have lighter := graft_leftWeight rank right op rest
      simp only [graft,same,if_true,Text.tree,Tree.leftWeight,Tree.size] at kept
      omega
    · omega

theorem regroup_leftWeight (rank : ο → Nat) (text : Text α ο) :
    (regroup rank text).tree.leftWeight ≤ text.tree.leftWeight := by
  induction text with
  | leaf atom => exact Nat.le_refl _
  | paren inner ih => exact ih
  | node op left right ofLeft ofRight =>
    have moved := graft_leftWeight rank (regroup rank left) op (regroup rank right)
    rw [regroup_size] at moved
    simp only [regroup,Text.tree,Tree.leftWeight]
    omega

theorem rightGrouped_of_leftWeight {rank : ο → Nat} {text : Text α ο} (layered : text.Layered rank)
    (kept : text.tree.leftWeight ≤ (regroup rank text).tree.leftWeight) : text.RightGrouped rank := by
  induction text with
  | leaf atom => trivial
  | paren inner ih => exact ih layered kept
  | node op left right ofLeft ofRight =>
    obtain ⟨leftTight,rightTight,leftLayered,rightLayered⟩ := layered
    have moved := graft_leftWeight rank (regroup rank left) op (regroup rank right)
    have leftLight := regroup_leftWeight rank left
    have rightLight := regroup_leftWeight rank right
    simp only [regroup,Text.tree,Tree.leftWeight] at kept
    rw [regroup_size] at moved
    refine ⟨?_,rightTight,ofLeft leftLayered (by omega),ofRight rightLayered (by omega)⟩
    rw [←regroup_top rank left] at leftTight ⊢
    have weight :
        (regroup rank left).tree.size + (regroup rank left).tree.leftWeight +
            (regroup rank right).tree.leftWeight ≤
          (graft rank (regroup rank left) op (regroup rank right)).tree.leftWeight := by
      rw [regroup_size]
      omega
    exact tight_of_leftWeight leftTight weight

theorem regroup_of_rightGrouped {rank : ο → Nat} {text : Text α ο} (grouped : text.RightGrouped rank) :
    regroup rank text = text := by
  induction text with
  | leaf atom => rfl
  | paren inner ih => simp only [regroup,ih grouped]
  | node op left right ofLeft ofRight =>
    obtain ⟨leftTight,_,leftGrouped,rightGrouped⟩ := grouped
    simp only [regroup,ofLeft leftGrouped,ofRight rightGrouped]
    cases left with
    | leaf atom => rfl
    | paren inner => rfl
    | node inner one two =>
      simp only [Text.top] at leftTight
      simp only [graft]
      rw [if_neg (by omega)]

def Tree.top (rank : ο → Nat) : Tree α ο → Nat
  | .leaf _ => 0
  | .node op _ _ => rank op + 1

def Text.guarded (bare : Bool) (text : Text α ο) : Text α ο :=
  if bare then text else .paren text

-- The text with the parentheses that precedence and left associativity require, and no others.
def minimal (precedence : ο → Nat) : Tree α ο → Text α ο
  | .leaf atom => .leaf atom
  | .node op left right =>
    .node op ((minimal precedence left).guarded (left.top precedence ≤ precedence op + 1))
      ((minimal precedence right).guarded (right.top precedence ≤ precedence op))

theorem minimal_top (rank precedence : ο → Nat) (tree : Tree α ο) :
    (minimal precedence tree).top rank = tree.top rank := by
  cases tree with
  | leaf atom => rfl
  | node op left right => rfl

theorem guarded_tree (bare : Bool) (text : Text α ο) : (text.guarded bare).tree = text.tree := by
  cases bare <;> rfl

theorem guarded_layered (rank : ο → Nat) (bare : Bool) (text : Text α ο) :
    (text.guarded bare).Layered rank ↔ text.Layered rank := by
  cases bare <;> exact Iff.rfl

theorem guarded_rightGrouped (rank : ο → Nat) (bare : Bool) (text : Text α ο) :
    (text.guarded bare).RightGrouped rank ↔ text.RightGrouped rank := by
  cases bare <;> exact Iff.rfl

theorem guarded_top_le_iff (rank : ο → Nat) (bare : Bool) (text : Text α ο) (bound : Nat) :
    (text.guarded bare).top rank ≤ bound ↔ (bare = true → text.top rank ≤ bound) := by
  cases bare with
  | true => simp [Text.guarded]
  | false => simp [Text.guarded,Text.top]

theorem minimal_tree (precedence : ο → Nat) (tree : Tree α ο) : (minimal precedence tree).tree = tree := by
  induction tree with
  | leaf atom => rfl
  | node op left right ofLeft ofRight => simp only [minimal,Text.tree,guarded_tree,ofLeft,ofRight]

-- A ladder may merge neighbouring precedences into one rank, but never swap two.
def Coarsens (rank precedence : ο → Nat) : Prop :=
  ∀ inner op, precedence inner ≤ precedence op → rank inner ≤ rank op

theorem Tree.top_coarser {rank precedence : ο → Nat} (coarser : Coarsens rank precedence) {tree : Tree α ο} {op : ο}
    (tight : tree.top precedence ≤ precedence op + 1) : tree.top rank ≤ rank op + 1 := by
  cases tree with
  | leaf atom => exact Nat.zero_le _
  | node inner left right => exact Nat.succ_le_succ (coarser inner op (Nat.le_of_succ_le_succ tight))

theorem minimal_layered {rank precedence : ο → Nat} (coarser : Coarsens rank precedence) (tree : Tree α ο) :
    (minimal precedence tree).Layered rank := by
  induction tree with
  | leaf atom => trivial
  | node op left right ofLeft ofRight =>
    refine ⟨?_,?_,(guarded_layered _ _ _).mpr ofLeft,(guarded_layered _ _ _).mpr ofRight⟩
    · rw [guarded_top_le_iff,minimal_top]
      intro tight
      exact Tree.top_coarser coarser (of_decide_eq_true tight)
    · rw [guarded_top_le_iff,minimal_top]
      intro tight
      exact Tree.top_coarser coarser (Nat.le_succ_of_le (of_decide_eq_true tight))

-- A left operand that is written without parentheses binds at a tighter rank than its operator.
def Settled (rank precedence : ο → Nat) : Tree α ο → Prop
  | .leaf _ => True
  | .node op left right =>
    (left.top precedence ≤ precedence op + 1 → left.top rank ≤ rank op) ∧
      Settled rank precedence left ∧ Settled rank precedence right

theorem minimal_rightGrouped_iff {rank precedence : ο → Nat} (coarser : Coarsens rank precedence)
    (tree : Tree α ο) : (minimal precedence tree).RightGrouped rank ↔ Settled rank precedence tree := by
  induction tree with
  | leaf atom => exact Iff.rfl
  | node op left right ofLeft ofRight =>
    obtain ⟨_,rightTight,_,_⟩ := minimal_layered coarser (.node op left right)
    simp only [minimal,Text.RightGrouped,rightTight,true_and,guarded_rightGrouped,ofLeft,ofRight,
      guarded_top_le_iff,minimal_top,decide_eq_true_eq,Settled]

-- A chain of operators grouped to the left, written as it stands: the chain's operators never need parentheses.
def leftChain (first : α) (steps : List (ο × α)) : Text α ο :=
  steps.foldl (fun text step => .node step.1 text (.leaf step.2)) (.leaf first)

theorem leftChain_snoc (first : α) (steps : List (ο × α)) (last : ο × α) :
    leftChain first (steps ++ [last]) = .node last.1 (leftChain first steps) (.leaf last.2) := by
  simp [leftChain]

theorem leftChain_layered {rank : ο → Nat} {level : Nat} (first : α) {steps : List (ο × α)}
    (same : ∀ step ∈ steps, rank step.1 = level) :
    (leftChain first steps).Layered rank ∧ (leftChain first steps).top rank ≤ level + 1 := by
  induction steps using List.reverseRecOn with
  | nil => exact ⟨trivial,Nat.zero_le _⟩
  | append_singleton steps last ih =>
    obtain ⟨layered,tight⟩ := ih fun step member => same step (by simp [member])
    have lastRank := same last (by simp)
    rw [leftChain_snoc]
    refine ⟨⟨by omega,Nat.zero_le _,layered,trivial⟩,?_⟩
    simp [Text.top,lastRank]

theorem leftChain_rightGrouped_iff {rank : ο → Nat} {level : Nat} (first : α) {steps : List (ο × α)}
    (same : ∀ step ∈ steps, rank step.1 = level) :
    (leftChain first steps).RightGrouped rank ↔ steps.length ≤ 1 := by
  rcases List.eq_nil_or_concat steps with rfl | ⟨front,last,rfl⟩
  · simp [leftChain,Text.RightGrouped]
  · rw [List.concat_eq_append] at same ⊢
    have lastRank := same last (by simp)
    rw [leftChain_snoc]
    rcases List.eq_nil_or_concat front with rfl | ⟨before,middle,rfl⟩
    · simp [leftChain,Text.RightGrouped,Text.top]
    · rw [List.concat_eq_append] at same ⊢
      have middleRank := same middle (by simp)
      rw [leftChain_snoc]
      simp only [Text.RightGrouped,Text.top,List.length_append,List.length_singleton]
      constructor
      · intro grouped
        omega
      · intro short
        omega

end Rsleigh.Infix
