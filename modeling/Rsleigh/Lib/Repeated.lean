import Rsleigh.Lib.Parser

namespace Rsleigh.Parsing

variable {τ α : Type}

-- As many items as are announced.
def times (parser : Parser τ α) : Nat → Parser τ (List α)
  | 0, input => some ([], input)
  | count + 1, input =>
    (parser input).bind fun (value, rest) => (times parser count rest).map fun (values, rest) => (value :: values, rest)

theorem times_length {parser : Parser τ α} {count : Nat} : ∀ {input : List τ} {values : List α} {rest : List τ},
    times parser count input = some (values,rest) → values.length = count := by
  induction count with
  | zero =>
    intro input values rest accepted
    cases accepted
    rfl
  | succ count ih =>
    intro input values rest accepted
    obtain ⟨⟨value,after⟩,_,accepted⟩ := Option.bind_eq_some_iff.mp accepted
    obtain ⟨⟨later,last⟩,isLater,same⟩ := Option.map_eq_some_iff.mp accepted
    cases same
    exact congrArg (· + 1) (ih isLater)

-- An item that is read back from what was written for it is one that fits, and then nothing else is taken.
structure Codec (write : α → List τ) (parser : Parser τ α) (Fits : α → Prop) : Prop where
  back : ∀ item rest, Fits item → parser (write item ++ rest) = some (item,rest)
  fits : ∀ item rest left, parser (write item ++ rest) = some (item,left) → Fits item

theorem Codec.times_back {write : α → List τ} {parser : Parser τ α} {Fits : α → Prop} (codec : Codec write parser Fits)
    (items : List α) (rest : List τ) (each : ∀ item ∈ items, Fits item) :
    times parser items.length (items.flatMap write ++ rest) = some (items,rest) := by
  induction items with
  | nil => rfl
  | cons item items ih =>
    rw [List.flatMap_cons,List.append_assoc,List.length_cons,times,codec.back item _ (each item List.mem_cons_self)]
    rw [Option.bind_some]
    change Option.map _ (times parser items.length (items.flatMap write ++ rest)) = _
    rw [ih fun other member => each other (List.mem_cons_of_mem _ member)]
    rfl

theorem Codec.times_fits {write : α → List τ} {parser : Parser τ α} {Fits : α → Prop} (codec : Codec write parser Fits)
    (items : List α) : ∀ (rest left : List τ), times parser items.length (items.flatMap write ++ rest) = some (items,left) →
      ∀ item ∈ items, Fits item := by
  induction items with
  | nil => exact fun _ _ _ _ member => absurd member List.not_mem_nil
  | cons item items ih =>
    intro rest left accepted
    rw [List.flatMap_cons,List.append_assoc] at accepted
    obtain ⟨⟨value,after⟩,isValue,accepted⟩ := Option.bind_eq_some_iff.mp accepted
    obtain ⟨⟨later,last⟩,isLater,same⟩ := Option.map_eq_some_iff.mp accepted
    cases same
    have fits := codec.fits item _ _ isValue
    rw [codec.back item _ fits] at isValue
    cases isValue
    exact List.forall_mem_cons.mpr ⟨fits,ih rest _ isLater⟩

end Rsleigh.Parsing
