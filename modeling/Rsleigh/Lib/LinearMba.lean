import Mathlib.Algebra.BigOperators.Group.Finset.Basic
import Mathlib.Algebra.BigOperators.Ring.Finset
import Mathlib.Algebra.BigOperators.Ring.List
import Mathlib.Data.List.Sublists
import Mathlib.Data.Nat.Bitwise
import Mathlib.Data.ZMod.Basic
import Mathlib.Tactic.Abel
import Mathlib.Tactic.Ring

namespace Rsleigh.LinearMba

section Bitwise

variable {ι : Type*} {w : Nat}

-- Bit `j` of the value is `table` of the bits `j` of the arguments.
def bitwise (w : Nat) (table : (ι → Bool) → Bool) (y : ι → Nat) : Nat :=
  ∑ j ∈ Finset.range w, if table fun i => (y i).testBit j then 2 ^ j else 0

-- A linear combination of bitwise functions, modulo 2^w.
def Linear (w : Nat) (f : (ι → Nat) → ZMod (2 ^ w)) : Prop :=
  ∃ terms : List (ZMod (2 ^ w) × ((ι → Bool) → Bool)),
    ∀ y, f y = (terms.map fun term => term.1 * (bitwise w term.2 y : ZMod (2 ^ w))).sum

theorem sum_bits (w x : Nat) : (∑ j ∈ Finset.range w, if x.testBit j then 2 ^ j else 0) = x % 2 ^ w := by
  induction w with
  | zero => simp [Nat.mod_one]
  | succ w ih =>
    rw [Finset.sum_range_succ,ih,Nat.mod_pow_succ,Nat.testBit_eq_decide_div_mod_eq]
    rcases Nat.mod_two_eq_zero_or_one (x / 2 ^ w) with even | odd
    · simp [even]
    · simp [odd]

theorem bitwise_value {table : (ι → Bool) → Bool} {y : ι → Nat}
    (bits : ∀ j < w, x.testBit j = table fun i => (y i).testBit j) : bitwise w table y = x % 2 ^ w := by
  rw [← sum_bits w x]
  refine Finset.sum_congr rfl fun j inside => ?_
  rw [bits j (Finset.mem_range.mp inside)]

theorem linear_bitwise {value : (ι → Nat) → Nat} (table : (ι → Bool) → Bool)
    (bits : ∀ y, ∀ j < w, (value y).testBit j = table fun i => (y i).testBit j) :
    Linear w fun y => (value y : ZMod (2 ^ w)) := by
  refine ⟨[(1,table)],fun y => ?_⟩
  simp [bitwise_value (bits y)]

theorem Linear.add {f g : (ι → Nat) → ZMod (2 ^ w)} (left : Linear w f) (right : Linear w g) :
    Linear w fun y => f y + g y := by
  obtain ⟨leftTerms,leftSum⟩ := left
  obtain ⟨rightTerms,rightSum⟩ := right
  refine ⟨leftTerms ++ rightTerms,fun y => ?_⟩
  simp [leftSum,rightSum]

theorem Linear.scale {f : (ι → Nat) → ZMod (2 ^ w)} (linear : Linear w f) (c : ZMod (2 ^ w)) :
    Linear w fun y => c * f y := by
  obtain ⟨terms,sum⟩ := linear
  refine ⟨terms.map fun term => (c * term.1,term.2),fun y => ?_⟩
  simp only [sum,List.map_map,← List.sum_map_mul_left]
  simp [Function.comp_def,mul_assoc]

theorem Linear.neg {f : (ι → Nat) → ZMod (2 ^ w)} (linear : Linear w f) : Linear w fun y => -f y := by
  have scaled := linear.scale (-1)
  simpa using scaled

theorem Linear.sub {f g : (ι → Nat) → ZMod (2 ^ w)} (left : Linear w f) (right : Linear w g) :
    Linear w fun y => f y - g y := by
  have sum := left.add right.neg
  simpa [sub_eq_add_neg] using sum

theorem cast_ones (w : Nat) : ((2 ^ w - 1 : Nat) : ZMod (2 ^ w)) = -1 := by
  rw [Nat.cast_sub Nat.one_le_two_pow,ZMod.natCast_self,Nat.cast_one,zero_sub]

theorem linear_const (c : ZMod (2 ^ w)) : Linear w fun _ : ι → Nat => c := by
  have ones : Linear w fun _ : ι → Nat => ((2 ^ w - 1 : Nat) : ZMod (2 ^ w)) :=
    linear_bitwise (fun _ => true) fun _ j inside => by simp [Nat.testBit_two_pow_sub_one,inside]
  have scaled := ones.scale (-c)
  simpa [cast_ones] using scaled

theorem linear_var (i : ι) : Linear w fun y => (y i : ZMod (2 ^ w)) :=
  linear_bitwise (fun bits => bits i) fun _ _ _ => rfl

theorem linear_and (i k : ι) : Linear w fun y => ((y i &&& y k : Nat) : ZMod (2 ^ w)) :=
  linear_bitwise (fun bits => bits i && bits k) fun _ _ _ => Nat.testBit_and ..

theorem linear_or (i k : ι) : Linear w fun y => ((y i ||| y k : Nat) : ZMod (2 ^ w)) :=
  linear_bitwise (fun bits => bits i || bits k) fun _ _ _ => Nat.testBit_or ..

theorem linear_xor (i k : ι) : Linear w fun y => ((y i ^^^ y k : Nat) : ZMod (2 ^ w)) :=
  linear_bitwise (fun bits => bits i ^^ bits k) fun _ _ _ => Nat.testBit_xor ..

theorem Linear.positions {f : (ι → Nat) → ZMod (2 ^ w)} (linear : Linear w f) :
    ∃ table : (ι → Bool) → ZMod (2 ^ w),
      ∀ y, f y = ∑ j ∈ Finset.range w, 2 ^ j * table fun i => (y i).testBit j := by
  obtain ⟨terms,sum⟩ := linear
  refine ⟨fun bits => (terms.map fun term => if term.2 bits then term.1 else 0).sum,fun y => ?_⟩
  rw [sum]
  clear sum
  induction terms with
  | nil => simp
  | cons term terms ih =>
    rw [List.map_cons,List.sum_cons,ih,bitwise,Nat.cast_sum,Finset.mul_sum,← Finset.sum_add_distrib]
    refine Finset.sum_congr rfl fun j _ => ?_
    simp only [List.map_cons,List.sum_cons,mul_add]
    congr 1
    split
    · push_cast
      ring
    · simp

theorem sum_above (w : Nat) : (∑ j ∈ Finset.range w, 2 ^ (j + 1) : ZMod (2 ^ (w + 1))) = -2 := by
  have partialSum (k : Nat) : (∑ j ∈ Finset.range k, 2 ^ (j + 1) : ZMod (2 ^ (w + 1))) = 2 ^ (k + 1) - 2 := by
    induction k with
    | zero => simp
    | succ k ih =>
      rw [Finset.sum_range_succ,ih]
      ring
  have whole : (2 ^ (w + 1) : ZMod (2 ^ (w + 1))) = 0 := by
    exact_mod_cast ZMod.natCast_self (2 ^ (w + 1))
  rw [partialSum,whole,zero_sub]

theorem Linear.oneBit {f : (ι → Nat) → ZMod (2 ^ w)} (positive : 0 < w) (linear : Linear w f) :
    ∃ table : (ι → Bool) → ZMod (2 ^ w),
      (∀ y, f y = ∑ j ∈ Finset.range w, 2 ^ j * table fun i => (y i).testBit j) ∧
      ∀ bits : ι → Bool, table bits = f (fun i => (bits i).toNat) - 2 * f fun _ => 0 := by
  obtain ⟨table,sum⟩ := linear.positions
  refine ⟨table,sum,?_⟩
  obtain ⟨above,rfl⟩ : ∃ above, w = above + 1 := ⟨w - 1,by omega⟩
  have point (bits : ι → Bool) : f (fun i => (bits i).toNat) = table bits - 2 * table fun _ => false := by
    have high (j : Nat) : (fun i => (bits i).toNat.testBit (j + 1)) = fun _ => false := by
      funext i
      cases bits i <;> simp [Nat.testBit_add_one]
    have lowest : (fun i => (bits i).toNat.testBit 0) = bits := by
      funext i
      cases bits i <;> rfl
    rw [sum,Finset.sum_range_succ']
    simp only [high,lowest,← Finset.sum_mul,sum_above]
    ring
  have zero : f (fun _ => 0) = -table fun _ => false := by
    have atZero := point fun _ => false
    simp only [Bool.toNat_false] at atZero
    rw [atZero]
    ring
  intro bits
  rw [point,zero]
  ring

theorem Linear.ext {f g : (ι → Nat) → ZMod (2 ^ w)} (positive : 0 < w) (left : Linear w f) (right : Linear w g)
    (same : ∀ bits : ι → Bool, f (fun i => (bits i).toNat) = g fun i => (bits i).toNat) (y : ι → Nat) :
    f y = g y := by
  obtain ⟨leftTable,leftSum,leftBits⟩ := left.oneBit positive
  obtain ⟨rightTable,rightSum,rightBits⟩ := right.oneBit positive
  have zero : f (fun _ => 0) = g fun _ => 0 := same fun _ => false
  have tables : leftTable = rightTable := by
    funext bits
    rw [leftBits,rightBits,same,zero]
  rw [leftSum,rightSum,tables]

end Bitwise

section Coefficients

variable {α R S : Type*}

-- What a conjunction of `set` is to be taken with, so that `f` comes out at every set: the alternating sum of `f`
-- over the subsets.
def coefficient [Sub R] (f : List α → R) : List α → R
  | [] => f []
  | i :: rest => coefficient (fun set => f (i :: set)) rest - coefficient f rest

theorem sum_coefficients [AddCommGroup R] (f : List α → R) (set : List α) :
    (set.sublists'.map (coefficient f)).sum = f set := by
  induction set generalizing f with
  | nil => simp [coefficient]
  | cons i rest ih =>
    have shifted := ih fun set => f (i :: set)
    rw [List.sublists'_cons,List.map_append,List.sum_append,ih,List.map_map]
    have each : (rest.sublists'.map (coefficient f ∘ List.cons i)).sum = f (i :: rest) - f rest := by
      rw [← shifted,← ih f]
      induction rest.sublists' with
      | nil => simp
      | cons set sets inner =>
        simp only [List.map_cons,List.sum_cons,inner,Function.comp_apply,coefficient]
        abel
    rw [each]
    abel

theorem coefficient_map [Sub R] [Sub S] (φ : R → S) (difference : ∀ a b, φ (a - b) = φ a - φ b) (f : List α → R)
    (set : List α) : φ (coefficient f set) = coefficient (fun set => φ (f set)) set := by
  induction set generalizing f with
  | nil => rfl
  | cons i rest ih => rw [coefficient,difference,ih,ih,coefficient]

theorem eq_of_coefficients [AddCommGroup R] {f g : List α → R} {set : List α}
    (same : ∀ part ∈ set.sublists', coefficient f part = coefficient g part) : f set = g set := by
  rw [← sum_coefficients f,← sum_coefficients g,List.map_congr_left same]

end Coefficients

end Rsleigh.LinearMba
