import Mathlib.Data.Nat.ModEq
import Mathlib.Data.Set.Card

namespace Rsleigh.Places

-- The digits of a number: the one at `place` is what is left of it above the place. A number is known up to a modulus,
-- and what is known of it grows with each digit that is read.
theorem above_modEq {place modulus x y : Nat} (same : x ≡ y [MOD place * modulus]) :
    x / place ≡ y / place [MOD modulus] := by
  unfold Nat.ModEq at same ⊢
  rw [← Nat.mod_mul_right_div_self,← Nat.mod_mul_right_div_self,same]

theorem modEq_above {place modulus x y : Nat} (below : x ≡ y [MOD place]) (same : x / place ≡ y / place [MOD modulus]) :
    x ≡ y [MOD place * modulus] := by
  unfold Nat.ModEq at *
  rw [Nat.mod_mul,Nat.mod_mul,below,same]

-- What is known is `base * place`: the digit tells as much as there are values of it, when it has nothing in common with
-- the part of what is known that is not below its place.
theorem digit_known {base place radix x y : Nat} (apart : Nat.Coprime base radix)
    (known : x ≡ y [MOD base * place]) :
    x / place ≡ y / place [MOD radix] ↔ x ≡ y [MOD base * place * radix] := by
  have shape : base * place * radix = place * (base * radix) := by
    rw [Nat.mul_comm base,Nat.mul_assoc]
  rw [shape]
  rw [Nat.mul_comm] at known
  constructor
  · intro same
    apply modEq_above (known.of_mul_right base)
    exact (Nat.modEq_and_modEq_iff_modEq_mul apart).mp ⟨above_modEq known,same⟩
  · intro same
    exact (above_modEq same).of_mul_left base

theorem digit_missing {base place radix known : Nat} (filled : 0 < radix)
    (shared : ¬ Nat.Coprime base radix) :
    ∃ digit < radix, ∀ x, x ≡ known [MOD base * place] → x / place % radix ≠ digit := by
  have common : 1 < Nat.gcd base radix := by
    have nonzero : 0 < Nat.gcd base radix := Nat.gcd_pos_of_pos_right base filled
    unfold Nat.Coprime at shared
    omega
  refine ⟨(known / place + 1) % Nat.gcd base radix,?_,?_⟩
  · exact Nat.lt_of_lt_of_le (Nat.mod_lt _ (by omega)) (Nat.gcd_le_right base filled)
  · intro x same isDigit
    rw [Nat.mul_comm] at same
    have above : x / place ≡ known / place [MOD Nat.gcd base radix] :=
      (above_modEq same).of_dvd (Nat.gcd_dvd_left base radix)
    have read : x / place ≡ known / place + 1 [MOD Nat.gcd base radix] := by
      calc
        x / place ≡ x / place % radix [MOD Nat.gcd base radix] :=
          ((Nat.mod_modEq (x / place) radix).of_dvd (Nat.gcd_dvd_right base radix)).symm
        _ ≡ known / place + 1 [MOD Nat.gcd base radix] := by
          rw [isDigit]
          exact Nat.mod_modEq _ _
    have zero : 0 ≡ 1 [MOD Nat.gcd base radix] := Nat.ModEq.add_left_cancel' (known / place) (above.symm.trans read)
    unfold Nat.ModEq at zero
    rw [Nat.zero_mod,Nat.mod_eq_of_lt common] at zero
    exact absurd zero Nat.zero_ne_one

theorem interval_same {modulus x y : Nat} (first : x < modulus) (second : y < modulus) {start : Nat}
    (same : start + x ≡ start + y [MOD modulus]) : x = y :=
  Nat.ModEq.eq_of_lt_of_lt (Nat.ModEq.add_left_cancel' start same) first second

theorem bijOn_of_count {α : Type} {f : Nat → α} {count : Nat} {values : List α} (counted : values.length ≤ count)
    (within : ∀ x < count, f x ∈ values) (once : ∀ x < count, ∀ y < count, f x = f y → x = y) :
    Set.BijOn f {x | x < count} {value | value ∈ values} := by
  classical
  have injective : Set.InjOn f {x | x < count} := fun x isLess y isLess' same => once x isLess y isLess' same
  have isImage : Set.image f {x | x < count} ⊆ {value | value ∈ values} := by
    rintro _ ⟨x,isLess,rfl⟩
    exact within x isLess
  have finite : Set.Finite {value | value ∈ values} := List.finite_toSet values
  have size : Set.ncard {value | value ∈ values} ≤ Set.ncard (Set.image f {x | x < count}) := by
    calc
      Set.ncard {value | value ∈ values} = values.toFinset.card := by
        rw [← Set.ncard_coe_finset]
        congr
        ext value
        simp
      _ ≤ values.length := List.toFinset_card_le values
      _ ≤ count := counted
      _ = Set.ncard {x | x < count} := by
        have range : {x | x < count} = ((Finset.range count : Finset Nat) : Set Nat) := by
          ext x
          simp
        rw [range,Set.ncard_coe_finset,Finset.card_range]
      _ = Set.ncard (Set.image f {x | x < count}) := injective.ncard_image.symm
  have same := Set.eq_of_subset_of_ncard_le isImage size finite
  refine ⟨fun x isLess => within x isLess,injective,?_⟩
  intro value isValue
  rw [← same] at isValue
  exact isValue

end Rsleigh.Places
