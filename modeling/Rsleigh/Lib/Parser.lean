import Mathlib.Data.List.Basic

namespace Rsleigh.Parsing

-- A backtracking parser: it either fails, or returns a value and the tokens it has not taken.
-- Which error a failure carries is left out.
abbrev Parser (τ α : Type) := List τ → Option (α × List τ)

variable {τ α β γ : Type}

-- One token, when it is accepted.
def satisfy (accept : τ → Option α) : Parser τ α
  | token :: rest => (accept token).map (·, rest)
  | [] => none

def tag [DecidableEq τ] (expected : τ) : Parser τ Unit :=
  satisfy fun token => if token = expected then some () else none

def map (parser : Parser τ α) (f : α → β) : Parser τ β :=
  fun input => (parser input).map fun (value, rest) => (f value, rest)

def mapOpt (parser : Parser τ α) (f : α → Option β) : Parser τ β :=
  fun input => (parser input).bind fun (value, rest) => (f value).map (·, rest)

def pair (first : Parser τ α) (second : Parser τ β) : Parser τ (α × β) :=
  fun input => (first input).bind fun (a, rest) => (second rest).map fun (b, rest) => ((a, b), rest)

-- A failure of the parser takes nothing: the input it has gone through is given back.
def opt (parser : Parser τ α) : Parser τ (Option α) :=
  fun input =>
    match parser input with
    | some (value, rest) => some (some value, rest)
    | none => some (none, input)

def alt : List (Parser τ α) → Parser τ α
  | [], _ => none
  | parser :: others, input => (parser input).or (alt others input)

def preceded (first : Parser τ α) (second : Parser τ β) : Parser τ β :=
  map (pair first second) (·.2)

def terminated (first : Parser τ α) (second : Parser τ β) : Parser τ α :=
  map (pair first second) (·.1)

def delimited (first : Parser τ α) (second : Parser τ β) (third : Parser τ γ) : Parser τ β :=
  preceded first (terminated second third)

def separatedPair (first : Parser τ α) (separator : Parser τ β) (second : Parser τ γ) : Parser τ (α × γ) :=
  pair first (preceded separator second)

-- The repetitions, at most `fuel` of them.
def manyWithin (parser : Parser τ α) : Nat → Parser τ (List α)
  | 0, input => some ([], input)
  | fuel + 1, input =>
    match parser input with
    | none => some ([], input)
    | some (value, rest) => (manyWithin parser fuel rest).map fun (values, rest) => (value :: values, rest)

-- A separator takes a token at least, so the input bounds the elements.
def separatedList0 (separator : Parser τ β) (parser : Parser τ α) : Parser τ (List α) :=
  fun input =>
    match parser input with
    | none => some ([], input)
    | some (value, rest) =>
      (manyWithin (preceded separator parser) rest.length rest).map fun (values, rest) => (value :: values, rest)

@[simp]
theorem satisfy_nil (accept : τ → Option α) : satisfy accept [] = none :=
  rfl

@[simp]
theorem satisfy_cons (accept : τ → Option α) (token : τ) (rest : List τ) :
    satisfy accept (token :: rest) = (accept token).map (·, rest) :=
  rfl

@[simp]
theorem tag_same [DecidableEq τ] (token : τ) (rest : List τ) : tag token (token :: rest) = some ((), rest) := by
  simp [tag]

theorem map_some {parser : Parser τ α} (accepted : parser input = some (value, rest)) (f : α → β) :
    map parser f input = some (f value, rest) := by
  simp [map, accepted]

theorem map_none {parser : Parser τ α} (refused : parser input = none) (f : α → β) :
    map parser f input = none := by
  simp [map, refused]

theorem pair_some {first : Parser τ α} {second : Parser τ β} (one : first input = some (a, middle))
    (two : second middle = some (b, rest)) : pair first second input = some ((a, b), rest) := by
  simp [pair, one, two]

theorem pair_none {first : Parser τ α} (refused : first input = none) (second : Parser τ β) :
    pair first second input = none := by
  simp [pair, refused]

theorem opt_some {parser : Parser τ α} (accepted : parser input = some (value, rest)) :
    opt parser input = some (some value, rest) := by
  simp [opt, accepted]

theorem opt_none {parser : Parser τ α} (refused : parser input = none) :
    opt parser input = some (none, input) := by
  simp [opt, refused]

theorem alt_first {parser : Parser τ α} (accepted : parser input = some result) (others : List (Parser τ α)) :
    alt (parser :: others) input = some result := by
  simp [alt, accepted]

theorem alt_skip {parser : Parser τ α} (refused : parser input = none) (others : List (Parser τ α)) :
    alt (parser :: others) input = alt others input := by
  simp [alt, refused]

theorem alt_none {parsers : List (Parser τ α)} (refused : ∀ parser ∈ parsers, parser input = none) :
    alt parsers input = none := by
  induction parsers with
  | nil => rfl
  | cons parser rest ih =>
    rw [alt_skip (refused parser (List.mem_cons_self ..))]
    exact ih fun other member => refused other (List.mem_cons_of_mem _ member)

theorem alt_some {parsers : List (Parser τ α)} (accepted : alt parsers input = some result) :
    ∃ parser ∈ parsers, parser input = some result := by
  induction parsers with
  | nil => cases accepted
  | cons parser rest ih =>
    cases first : parser input with
    | some found =>
      rw [alt_first first] at accepted
      cases accepted
      exact ⟨parser,List.mem_cons_self ..,first⟩
    | none =>
      rw [alt_skip first] at accepted
      obtain ⟨other,member,found⟩ := ih accepted
      exact ⟨other,List.mem_cons_of_mem _ member,found⟩

theorem map_inv {parser : Parser τ α} {f : α → β} (accepted : map parser f input = some (value, rest)) :
    ∃ own, parser input = some (own, rest) ∧ f own = value := by
  unfold map at accepted
  obtain ⟨⟨own,left⟩,found,same⟩ := Option.map_eq_some_iff.mp accepted
  cases same
  exact ⟨own,found,rfl⟩

theorem pair_inv {first : Parser τ α} {second : Parser τ β} (accepted : pair first second input = some (value, rest)) :
    ∃ middle, first input = some (value.1, middle) ∧ second middle = some (value.2, rest) := by
  unfold pair at accepted
  obtain ⟨⟨a,middle⟩,one,accepted⟩ := Option.bind_eq_some_iff.mp accepted
  obtain ⟨⟨b,left⟩,two,same⟩ := Option.map_eq_some_iff.mp accepted
  cases same
  exact ⟨middle,one,two⟩

theorem delimited_some {first : Parser τ α} {second : Parser τ β} {third : Parser τ γ} {inner : List τ}
    (one : first input = some (a, inner)) (two : second inner = some (b, middle))
    (three : third middle = some (c, rest)) : delimited first second third input = some (b, rest) :=
  map_some (pair_some one (map_some (pair_some two three) _)) _

theorem delimited_none {first : Parser τ α} (refused : first input = none) (second : Parser τ β)
    (third : Parser τ γ) : delimited first second third input = none :=
  map_none (pair_none refused _) _

end Rsleigh.Parsing
