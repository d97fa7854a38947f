import Rsleigh.Lib.Infix

namespace Rsleigh.Syntax

open Parsing
open Infix

-- What the two expression parsers of the syntax share: `parse_op` and the levels `declare_expr_level`
-- declares with it. The levels are listed from the loosest down to the element.
structure Grammar (τ ο ε : Type) where
  node : ο → ε → ε → ε
  levels : List (Parser τ ο)
  -- The parser below the last level, from the parser of a whole expression.
  element : Parser τ ε → Parser τ ε

variable {τ α κ ο ε : Type}

def parseOp (node : ο → ε → ε → ε) (thisLevel nextLevel : Parser τ ε) (op : Parser τ ο) : Parser τ ε :=
  map (pair nextLevel (opt (pair op thisLevel))) fun (left, rest) =>
    match rest with
    | some (op, rest) => node op left rest
    | none => left

-- The level of the first listed operators. Every call spends fuel.
def ladder (grammar : Grammar τ ο ε) : Nat → List (Parser τ ο) → Parser τ ε
  | 0, _ => fun _ => none
  | fuel + 1, [] => grammar.element (ladder grammar fuel grammar.levels)
  | fuel + 1, op :: next =>
    parseOp grammar.node (ladder grammar fuel (op :: next)) (ladder grammar fuel next) op

def Grammar.fuelFor (grammar : Grammar τ ο ε) (input : List τ) : Nat :=
  input.length * (grammar.levels.length + 1) + grammar.levels.length + 1

-- A level takes the operators of its own rank, which counts the levels below it, and nothing else
-- that an expression is written with.
def Takes (token : Lexeme α κ → τ) (operator : κ → ο) (rank : κ → Nat) : List (Parser τ ο) → Prop
  | [] => True
  | level :: next =>
    (∀ op rest, level (token (.op op) :: rest) = if rank op = next.length then some (operator op, rest) else none) ∧
      (∀ rest, level (token .closing :: rest) = none) ∧ level [] = none ∧ Takes token operator rank next

-- How a grammar reads lexemes: which token stands for which lexeme, which level takes which
-- operator, and what its elements do with atoms and parentheses. The operators `κ` are those that
-- can be written between two operands.
structure Reading (grammar : Grammar τ ο ε) (α κ : Type) where
  token : Lexeme α κ → τ
  value : α → ε
  operator : κ → ο
  rank : κ → Nat
  rank_lt : ∀ op, rank op < grammar.levels.length
  takes : Takes token operator rank grammar.levels
  element_atom : ∀ parse atom rest,
    (rest = [] ∨ (∃ tail, rest = token .closing :: tail) ∨ ∃ op tail, rest = token (.op op) :: tail) →
      grammar.element parse (token (.atom atom) :: rest) = some (value atom, rest)
  element_paren : ∀ (parse : Parser τ ε) inner result rest, parse inner = some (result, token .closing :: rest) →
    grammar.element parse (token .opening :: inner) = some (result, rest)
  node_inj : ∀ {op left right other otherLeft otherRight},
    grammar.node op left right = grammar.node other otherLeft otherRight → left = otherLeft ∧ right = otherRight
  node_ne_value : ∀ op left right atom, grammar.node op left right ≠ value atom

namespace Reading

variable {grammar : Grammar τ ο ε} (reading : Reading grammar α κ)

-- The written text.
def tokens (text : Text α κ) : List τ :=
  text.lexemes.map reading.token

def build : Tree α κ → ε
  | .leaf atom => reading.value atom
  | .node op left right => grammar.node (reading.operator op) (build left) (build right)

-- What may follow an expression of the levels below `bound`: nothing that they take.
def Stops (bound : Nat) (rest : List τ) : Prop :=
  rest = [] ∨ (∃ tail, rest = reading.token .closing :: tail) ∨
    ∃ op tail, rest = reading.token (.op op) :: tail ∧ bound ≤ reading.rank op

variable {reading}

theorem Stops.follows {rest : List τ} (stops : reading.Stops bound rest) :
    rest = [] ∨ (∃ tail, rest = reading.token .closing :: tail) ∨
      ∃ op tail, rest = reading.token (.op op) :: tail := by
  rcases stops with nothing | closing | ⟨op,tail,starts,_⟩
  · exact Or.inl nothing
  · exact Or.inr (Or.inl closing)
  · exact Or.inr (Or.inr ⟨op,tail,starts⟩)

theorem Stops.lower {rest : List τ} (stops : reading.Stops (bound + 1) rest) : reading.Stops bound rest := by
  rcases stops with nothing | closing | ⟨op,tail,starts,loose⟩
  · exact Or.inl nothing
  · exact Or.inr (Or.inl closing)
  · exact Or.inr (Or.inr ⟨op,tail,starts,Nat.le_of_succ_le loose⟩)

theorem Stops.refused {rest : List τ} {level : Parser τ ο} {next : List (Parser τ ο)}
    (stops : reading.Stops (next.length + 1) rest)
    (takes : Takes reading.token reading.operator reading.rank (level :: next)) : level rest = none := by
  obtain ⟨ofOp,ofClosing,ofNil,_⟩ := takes
  rcases stops with rfl | ⟨tail,rfl⟩ | ⟨op,tail,rfl,loose⟩
  · exact ofNil
  · exact ofClosing tail
  · rw [ofOp,if_neg (by omega)]

theorem tokens_length (text : Text α κ) : (reading.tokens text).length = text.lexemes.length := by
  simp [tokens]

theorem tokens_paren (inner : Text α κ) :
    reading.tokens (.paren inner) = reading.token .opening :: (reading.tokens inner ++ [reading.token .closing]) := by
  simp [tokens,Text.lexemes]

theorem tokens_node (op : κ) (left right : Text α κ) :
    reading.tokens (.node op left right) =
      reading.tokens left ++ reading.token (.op op) :: reading.tokens right := by
  simp [tokens,Text.lexemes]

theorem parseOp_taken {thisLevel nextLevel : Parser τ ε} {op : Parser τ ο} {node : ο → ε → ε → ε} {read : ο}
    (left : nextLevel input = some (leftValue, middle)) (taken : op middle = some (read, more))
    (right : thisLevel more = some (rightValue, rest)) :
    parseOp node thisLevel nextLevel op input = some (node read leftValue rightValue, rest) := by
  unfold parseOp
  rw [map_some (pair_some left (opt_some (pair_some taken right)))]

theorem parseOp_passed {thisLevel nextLevel : Parser τ ε} {op : Parser τ ο} {node : ο → ε → ε → ε}
    (left : nextLevel input = some (leftValue, rest)) (refused : op rest = none) :
    parseOp node thisLevel nextLevel op input = some (leftValue, rest) := by
  unfold parseOp
  rw [map_some (pair_some left (opt_none (pair_none refused _)))]

-- A right-grouped text is read as it is grouped, by every level that is loose enough for it.
theorem ladder_reads (fuel : Nat) :
    ∀ {text : Text α κ} {levels : List (Parser τ ο)} {rest : List τ},
      text.RightGrouped reading.rank → Takes reading.token reading.operator reading.rank levels →
      text.top reading.rank ≤ levels.length → reading.Stops levels.length rest →
      text.lexemes.length * (grammar.levels.length + 1) + levels.length + 1 ≤ fuel →
      ladder grammar fuel levels (reading.tokens text ++ rest) = some (reading.build text.tree, rest) := by
  induction fuel with
  | zero =>
    intro text levels rest _ _ _ _ enough
    omega
  | succ fuel ih =>
    intro text levels rest grouped takes tight stops enough
    cases levels with
    | nil =>
      simp only [ladder]
      cases text with
      | leaf atom => exact reading.element_atom _ atom rest stops.follows
      | paren inner =>
        simp only [Text.lexemes,List.cons_append,List.length_cons,List.length_append,List.length_nil] at enough
        rw [tokens_paren,List.cons_append,List.append_assoc,List.singleton_append]
        apply reading.element_paren
        -- The parentheses hold a whole expression: the ladder starts again from the loosest level.
        have innerGrouped : inner.RightGrouped reading.rank := grouped
        apply ih innerGrouped reading.takes
        · cases inner with
          | leaf atom => exact Nat.zero_le _
          | paren inner => exact Nat.zero_le _
          | node op left right => exact reading.rank_lt op
        · exact Or.inr (Or.inl ⟨rest,rfl⟩)
        · have spread := Nat.add_mul inner.lexemes.length 2 (grammar.levels.length + 1)
          simp only [Nat.zero_add] at enough
          rw [show inner.lexemes.length + 1 + 1 = inner.lexemes.length + 2 from rfl,spread] at enough
          omega
      | node op left right => exact absurd tight (Nat.not_succ_le_zero _)
    | cons level next =>
      have below := takes.2.2.2
      simp only [List.length_cons] at enough tight stops
      simp only [ladder]
      by_cases here : text.top reading.rank = next.length + 1
      · cases text with
        | leaf atom => exact absurd here (Nat.zero_ne_add_one _)
        | paren inner => exact absurd here (Nat.zero_ne_add_one _)
        | node op left right =>
          obtain ⟨leftTight,rightTight,leftGrouped,rightGrouped⟩ := grouped
          have sameRank : reading.rank op = next.length := Nat.succ.inj here
          simp only [Text.lexemes,List.length_append,List.length_cons] at enough
          have spread := Nat.add_mul left.lexemes.length (right.lexemes.length + 1) (grammar.levels.length + 1)
          have spreadRight := Nat.add_mul right.lexemes.length 1 (grammar.levels.length + 1)
          rw [tokens_node,List.append_assoc,List.cons_append]
          apply parseOp_taken
          · apply ih leftGrouped below (by omega)
            · exact Or.inr (Or.inr ⟨op,_,rfl,by omega⟩)
            · omega
          · rw [takes.1,if_pos sameRank]
          · apply ih rightGrouped takes
            · simp only [List.length_cons]
              omega
            · exact stops
            · simp only [List.length_cons]
              omega
      · apply parseOp_passed
        · exact ih grouped below (by omega) stops.lower (by omega)
        · exact stops.refused takes

theorem ladder_regroups {text : Text α κ} {levels : List (Parser τ ο)} (layered : text.Layered reading.rank)
    (takes : Takes reading.token reading.operator reading.rank levels)
    (shorter : levels.length ≤ grammar.levels.length) (tight : text.top reading.rank ≤ levels.length) :
    ladder grammar (grammar.fuelFor (reading.tokens text)) levels (reading.tokens text) =
      some (reading.build (regroup reading.rank text).tree, []) := by
  have sameTokens : reading.tokens (regroup reading.rank text) = reading.tokens text := by
    simp [tokens,regroup_lexemes]
  rw [←sameTokens]
  have read := ladder_reads (grammar.fuelFor (reading.tokens (regroup reading.rank text)))
    (regroup_rightGrouped layered) takes (by rw [regroup_top]; exact tight)
    (Or.inl (rfl : ([] : List τ) = [])) (by simp only [Grammar.fuelFor,tokens_length]; omega)
  rw [List.append_nil] at read
  exact read

theorem build_leftWeight {one two : Tree α κ} (same : reading.build one = reading.build two) :
    one.size = two.size ∧ one.leftWeight = two.leftWeight := by
  induction one generalizing two with
  | leaf atom =>
    cases two with
    | leaf other => exact ⟨rfl,rfl⟩
    | node op left right => exact absurd same.symm (reading.node_ne_value _ _ _ _)
  | node op left right ofLeft ofRight =>
    cases two with
    | leaf atom => exact absurd same (reading.node_ne_value _ _ _ _)
    | node other otherLeft otherRight =>
      obtain ⟨sameLeft,sameRight⟩ := reading.node_inj same
      obtain ⟨leftSize,leftWeight⟩ := ofLeft sameLeft
      obtain ⟨rightSize,rightWeight⟩ := ofRight sameRight
      simp only [Tree.size,Tree.leftWeight]
      omega

theorem ladder_round_trip (text : Text α κ) {levels : List (Parser τ ο)} (layered : text.Layered reading.rank)
    (takes : Takes reading.token reading.operator reading.rank levels)
    (shorter : levels.length ≤ grammar.levels.length) (tight : text.top reading.rank ≤ levels.length) :
    ladder grammar (grammar.fuelFor (reading.tokens text)) levels (reading.tokens text) =
      some (reading.build text.tree, []) ↔ text.RightGrouped reading.rank := by
  rw [ladder_regroups layered takes shorter tight]
  constructor
  · intro same
    simp only [Option.some.injEq,Prod.mk.injEq,and_true] at same
    apply rightGrouped_of_leftWeight layered
    exact Nat.le_of_eq (build_leftWeight same).2.symm
  · intro grouped
    rw [regroup_of_rightGrouped grouped]

end Reading

end Rsleigh.Syntax
