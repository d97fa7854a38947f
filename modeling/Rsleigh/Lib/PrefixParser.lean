import Rsleigh.Lib.Parser

namespace Rsleigh.Parsing

variable {τ α β : Type}

-- A parser that takes something, and does the same whatever follows what it takes.
def Prefixed (parser : Parser τ α) : Prop :=
  ∀ input value rest, parser input = some (value,rest) →
    ∃ used, used ≠ [] ∧ input = used ++ rest ∧ ∀ more, parser (used ++ more) = some (value,more)

theorem Prefixed.append {parser : Parser τ α} (local_ : Prefixed parser) (accepted : parser input = some (value,rest))
    (more : List τ) : parser (input ++ more) = some (value,rest ++ more) := by
  obtain ⟨used,_,rfl,same⟩ := local_ input value rest accepted
  rw [List.append_assoc]
  exact same (rest ++ more)

theorem Prefixed.shorter {parser : Parser τ α} (local_ : Prefixed parser) (accepted : parser input = some (value,rest)) :
    rest.length < input.length := by
  obtain ⟨used,some,rfl,_⟩ := local_ input value rest accepted
  rw [List.length_append]
  exact Nat.lt_add_of_pos_left (List.length_pos_iff.mpr some)

theorem Prefixed.within {parser : Parser τ α} (local_ : Prefixed parser)
    (accepted : parser (input ++ more) = some (value,rest)) (enough : more.length ≤ rest.length) :
    ∃ left, rest = left ++ more ∧ parser input = some (value,left) := by
  obtain ⟨used,_,split,same⟩ := local_ _ value rest accepted
  rcases List.append_eq_append_iff.mp split with ⟨left,isUsed,isMore⟩ | ⟨left,isInput,isRest⟩
  · have none : left = [] := by
      rw [isMore,List.length_append] at enough
      exact List.length_eq_zero_iff.mp (by omega)
    subst none
    rw [List.append_nil] at isUsed
    refine ⟨[],isMore.symm,?_⟩
    have alone := same []
    rwa [List.append_nil,isUsed] at alone
  · exact ⟨left,isRest,isInput ▸ same left⟩

theorem Prefixed.map {parser : Parser τ α} (local_ : Prefixed parser) (f : α → β) :
    Prefixed fun input => (parser input).map fun taken => (f taken.1,taken.2) := by
  intro input value rest accepted
  obtain ⟨⟨a,left⟩,isTaken,same⟩ := Option.map_eq_some_iff.mp accepted
  obtain ⟨rfl,rfl⟩ := Prod.mk.inj same
  obtain ⟨used,some,split,each⟩ := local_ input a left isTaken
  exact ⟨used,some,split,fun more => by dsimp only; rw [each]; rfl⟩

-- The items that begin before the last `stop` tokens, each with the tokens that are left behind it.
def scanTo (parser : Parser τ α) (stop : Nat) : Nat → List τ → List (α × Nat)
  | 0, _ => []
  | fuel + 1, input =>
    if input.length ≤ stop then []
    else match parser input with
      | none => []
      | some (value, rest) => (value, rest.length) :: scanTo parser stop fuel rest

-- What is left of the tokens after the items that lie within them.
def leftover (parser : Parser τ α) : Nat → List τ → List τ
  | 0, input => input
  | fuel + 1, input =>
    match parser input with
    | none => input
    | some (_, rest) => leftover parser fuel rest

theorem scanTo_more {parser : Parser τ α} (local_ : Prefixed parser) (stop fuel : Nat) (input : List τ)
    (enough : input.length ≤ fuel) : scanTo parser stop (fuel + 1) input = scanTo parser stop fuel input := by
  induction fuel generalizing input with
  | zero =>
    obtain rfl := List.length_eq_zero_iff.mp (Nat.le_zero.mp enough)
    exact if_pos (Nat.zero_le _)
  | succ fuel ih =>
    rw [scanTo,scanTo]
    split
    · rfl
    · cases isTaken : parser input with
      | none => rfl
      | some taken =>
        dsimp only
        rw [ih taken.2 (by have := local_.shorter isTaken; omega)]

theorem leftover_nil {parser : Parser τ α} (local_ : Prefixed parser) (fuel : Nat) : leftover parser fuel [] = [] := by
  cases fuel with
  | zero => rfl
  | succ fuel =>
    unfold leftover
    cases isTaken : parser [] with
    | none => rfl
    | some taken => exact absurd (local_.shorter isTaken) (Nat.not_lt_zero _)

-- An item goes beyond the first part exactly where what is left there is completed by the second part.
theorem scanTo_within {parser : Parser τ α} (local_ : Prefixed parser) (fuel : Nat) (table more : List τ)
    (enough : table.length ≤ fuel) :
    (∀ item ∈ scanTo parser more.length fuel (table ++ more), more.length ≤ item.2) ↔
      leftover parser fuel table = [] ∨ parser (leftover parser fuel table ++ more) = none := by
  induction fuel generalizing table with
  | zero =>
    obtain rfl := List.length_eq_zero_iff.mp (Nat.le_zero.mp enough)
    exact iff_of_true (fun _ member => absurd member List.not_mem_nil) (.inl rfl)
  | succ fuel ih =>
    rw [scanTo,leftover,List.length_append]
    cases table with
    | nil =>
      rw [if_pos (by simp)]
      have isNil := leftover_nil local_ (fuel + 1)
      unfold leftover at isNil
      exact iff_of_true (fun _ member => absurd member List.not_mem_nil) (.inl isNil)
    | cons token table =>
      rw [if_neg (by simp)]
      cases isTaken : parser (token :: table ++ more) with
      | none =>
        have alone : parser (token :: table) = none := by
          cases isAlone : parser (token :: table) with
          | none => rfl
          | some taken =>
            rw [local_.append isAlone more] at isTaken
            cases isTaken
        rw [alone]
        exact iff_of_true (fun _ member => absurd member List.not_mem_nil) (.inr isTaken)
      | some taken =>
        obtain ⟨value,rest⟩ := taken
        by_cases inside : more.length ≤ rest.length
        · obtain ⟨left,rfl,alone⟩ := local_.within isTaken inside
          have shorter := local_.shorter alone
          rw [List.length_cons] at shorter enough
          rw [alone]
          dsimp only
          rw [List.forall_mem_cons]
          rw [ih left (by omega)]
          exact and_iff_right inside
        · have alone : parser (token :: table) = none := by
            cases isAlone : parser (token :: table) with
            | none => rfl
            | some whole =>
              rw [local_.append isAlone more] at isTaken
              obtain ⟨_,rfl⟩ := Prod.mk.inj (Option.some.inj isTaken)
              exact absurd (List.length_append ▸ Nat.le_add_left _ _) inside
          rw [alone]
          refine iff_of_false (fun each => inside (each _ List.mem_cons_self)) ?_
          rintro (isNil | isNone)
          · cases isNil
          · rw [isTaken] at isNone
            cases isNone

end Rsleigh.Parsing
