import Rsleigh.Semantic.Separate

namespace Rsleigh.Semantic.Variants

open Decode Places

theorem branchVariants_zero {branches : List (Verification φ)} (none : branchVariants branches = 0) : branches = [] := by
  cases branches with
  | nil => rfl
  | cons branch rest =>
    have positive := branch.variants_pos
    rw [branchVariants] at none
    omega

mutual

theorem Verification.one_spaced : (verification : Verification BlockPhase1) → (base place : Nat) →
    verification.variants = 1 → verification.Spaced Nat.Coprime base place ∧ verification.Divides true
  | .check _, base, place, one => ⟨trivial,trivial⟩
  | .subPattern pattern, base, place, one => by
    rw [Verification.variants] at one
    exact pattern_one_spaced pattern base place one

theorem all_one_spaced : (verifications : List (Verification BlockPhase1)) → (base place : Nat) →
    allVariants verifications = 1 → allSpaced Nat.Coprime base place verifications ∧ allDivides true verifications
  | [], base, place, one => ⟨trivial,trivial⟩
  | verification :: rest, base, place, one => by
    rw [allVariants] at one
    have first := verification.one_spaced base place (Nat.eq_one_of_mul_eq_one_right one)
    have later := all_one_spaced rest base (place * verification.variants) (Nat.eq_one_of_mul_eq_one_left one)
    exact ⟨⟨first.1,later.1⟩,first.2,later.2⟩

theorem Block.one_spaced : (block : Block BlockPhase1) → (base place : Nat) → block.variants = 1 →
    block.Spaced Nat.Coprime base place ∧ block.Divides true
  | .and _ verifications, base, place, one => by
    rw [Block.variants] at one
    exact all_one_spaced verifications (base * place) 1 one
  | .or _ first rest, base, place, one => by
    rw [Block.variants] at one
    have positive := first.variants_pos
    have isFirst : first.variants = 1 := by omega
    have noRest : rest = [] := branchVariants_zero (by omega)
    have spaced := first.one_spaced base place isFirst
    subst noRest
    refine ⟨⟨?_,spaced.1,trivial⟩,⟨fun _ => ?_,spaced.2⟩,trivial⟩
    · rw [one]
      exact Nat.coprime_one_right base
    · rw [isFirst]
      exact Nat.one_dvd _

theorem pattern_one_spaced : (pattern : Pattern BlockPhase1) → (base place : Nat) → patternVariants pattern = 1 →
    patternSpaced Nat.Coprime base place pattern ∧ patternDivides true pattern
  | [], base, place, one => ⟨trivial,trivial⟩
  | block :: rest, base, place, one => by
    rw [patternVariants] at one
    have first := block.one_spaced base place (Nat.eq_one_of_mul_eq_one_right one)
    have later :=
      pattern_one_spaced rest (block.nextBase base place) (block.next place) (Nat.eq_one_of_mul_eq_one_left one)
    exact ⟨⟨first.1,later.1⟩,first.2,later.2⟩

end

theorem branches_one_spaced {branches : List (Verification BlockPhase1)} {base place number : Nat}
    (single : ∀ branch ∈ branches, branch.variants = 1) :
    branchesSpaced Nat.Coprime base place branches ∧ branchesDivide true number branches := by
  induction branches with
  | nil => exact ⟨trivial,trivial⟩
  | cons branch rest ih =>
    have isOne := single branch (List.mem_cons_self ..)
    have first := branch.one_spaced base place isOne
    have later := ih fun other member => single other (List.mem_cons_of_mem _ member)
    refine ⟨⟨first.1,later.1⟩,⟨fun _ => ?_,first.2⟩,later.2⟩
    rw [isOne]
    exact Nat.one_dvd _

-- In a flat pattern no branch has variants that its or block could mistake.
mutual

theorem Verification.flat_divides : (verification : Verification BlockPhase1) → verification.Flat →
    verification.Divides true
  | .check _, _ => trivial
  | .subPattern pattern, flat => pattern_flat_divides pattern flat

theorem all_flat_divides : (verifications : List (Verification BlockPhase1)) → allFlat verifications →
    allDivides true verifications
  | [], _ => trivial
  | verification :: rest, flat => ⟨verification.flat_divides flat.1,all_flat_divides rest flat.2⟩

theorem Block.flat_divides : (block : Block BlockPhase1) → block.Flat → block.Divides true
  | .and _ verifications, flat => all_flat_divides verifications flat
  | .or _ _ _, flat => (@branches_one_spaced _ 1 1 _ flat).2

theorem pattern_flat_divides : (pattern : Pattern BlockPhase1) → patternFlat pattern → patternDivides true pattern
  | [], _ => trivial
  | block :: rest, flat => ⟨block.flat_divides flat.1,pattern_flat_divides rest flat.2⟩

end

-- Some choice that no variant takes, of those that take what is known before.
def Missing (modulus known : Nat) (decode : Nat → Option Choice) (choices : List Choice) : Prop :=
  ∃ choice ∈ choices, ∀ id, id ≡ known [MOD modulus] → decode id ≠ some choice

section Missing

variable {modulus known : Nat} {first rest : Nat → Option Choice} {firstChoices restChoices : List Choice}

theorem both_some {isFirst isRest : Option Choice} {choice : Choice}
    (same : (do
      let x ← isFirst
      let y ← isRest
      return Choice.both x y) = some choice) : ∃ x y, isFirst = some x ∧ isRest = some y ∧ choice = .both x y := by
  obtain ⟨x,isX,same⟩ := Option.bind_eq_some_iff.mp same
  obtain ⟨y,isY,same⟩ := Option.bind_eq_some_iff.mp same
  cases same
  exact ⟨x,y,isX,isY,rfl⟩

theorem missing_first (missing : Missing modulus known first firstChoices) (someRest : ∃ choice, choice ∈ restChoices) :
    Missing modulus known (fun id => do
      let x ← first id
      let y ← rest id
      return Choice.both x y) (combine firstChoices restChoices) := by
  obtain ⟨choice,isChoice,never⟩ := missing
  obtain ⟨later,isLater⟩ := someRest
  refine ⟨.both choice later,mem_combine.mpr ⟨choice,isChoice,later,isLater,rfl⟩,?_⟩
  intro id same decoded
  obtain ⟨x,y,isX,_,isBoth⟩ := both_some decoded
  cases isBoth
  exact never id same isX

theorem missing_rest {more : Nat} {choice : Choice} (isChoice : choice ∈ firstChoices) (taken : first known = some choice)
    (tells : ∀ id, id ≡ known [MOD modulus] → (first id = first known ↔ id ≡ known [MOD more]))
    (missing : Missing more known rest restChoices) :
    Missing modulus known (fun id => do
      let x ← first id
      let y ← rest id
      return Choice.both x y) (combine firstChoices restChoices) := by
  obtain ⟨later,isLater,never⟩ := missing
  refine ⟨.both choice later,mem_combine.mpr ⟨choice,isChoice,later,isLater,rfl⟩,?_⟩
  intro id same decoded
  obtain ⟨x,y,isX,isY,isBoth⟩ := both_some decoded
  cases isBoth
  exact never id ((tells id same).mp (isX.trans taken.symm)) isY

theorem branchChoices_index : ∀ {branches : List (Verification BlockPhase1)} {index : Nat} {choice : Choice},
    choice ∈ branchChoices index branches → ∃ later inner, index ≤ later ∧ choice = .branch later inner := by
  intro branches
  induction branches with
  | nil =>
    intro index choice member
    cases member
  | cons branch rest ih =>
    intro index choice member
    rw [branchChoices] at member
    rcases List.mem_append.mp member with member | member
    · obtain ⟨inner,_,rfl⟩ := List.mem_map.mp member
      exact ⟨index,inner,Nat.le_refl _,rfl⟩
    · obtain ⟨later,inner,less,same⟩ := ih member
      exact ⟨later,inner,Nat.le_of_succ_le less,same⟩

-- Where every branch is a single variant, a digit that is not seen is a branch that is not taken.
theorem branches_missing {branches : List (Verification BlockPhase1)} (single : ∀ branch ∈ branches, branch.variants = 1) :
    ∀ {missing : Nat}, missing < branchVariants branches → (place index : Nat) →
      ∃ choice ∈ branchChoices index branches, ∀ id digit, digit < branchVariants branches →
        branchDecode place id digit index branches = some choice → digit = missing := by
  induction branches with
  | nil =>
    intro missing less place index
    exact absurd less (Nat.not_lt_zero _)
  | cons branch rest ih =>
    intro missing less place index
    have isOne := single branch (List.mem_cons_self ..)
    rw [branchVariants] at less
    rw [branchChoices]
    cases missing with
    | zero =>
      obtain ⟨inner,isInner,_⟩ := branch.decode_some place 0
      refine ⟨.branch index inner,List.mem_append_left _ (List.mem_map.mpr ⟨inner,isInner,rfl⟩),?_⟩
      intro id digit _ decoded
      rw [branchDecode] at decoded
      split at decoded
      · omega
      · obtain ⟨later,inner',isLater,same⟩ := branchDecode_index decoded
        cases same
        exact absurd isLater (Nat.not_succ_le_self _)
    | succ missing =>
      obtain ⟨choice,isChoice,only⟩ := ih
        (fun other member => single other (List.mem_cons_of_mem _ member)) (by omega : missing < branchVariants rest) place (index + 1)
      refine ⟨choice,List.mem_append_right _ isChoice,?_⟩
      intro id digit isLess decoded
      rw [branchVariants] at isLess
      rw [branchDecode] at decoded
      split at decoded
      · obtain ⟨inner,_,rfl⟩ := Option.map_eq_some_iff.mp decoded
        obtain ⟨later,_,isLater,same⟩ := branchChoices_index isChoice
        cases same
        exact absurd isLater (Nat.not_succ_le_self _)
      · have same := only id (digit - branch.variants) (by omega) decoded
        omega

end Missing

mutual

theorem Verification.missing : (verification : Verification BlockPhase1) → {base place : Nat} → (known : Nat) →
    verification.Flat → ¬ verification.Spaced Nat.Coprime base place →
    Missing (base * place) known (fun id => verification.decode place id) verification.choices
  | .check _, base, place, known, flat, close => absurd trivial close
  | .subPattern pattern, base, place, known, flat, close => by
    simp only [Verification.decode,Verification.choices]
    exact pattern_missing pattern known flat close

theorem all_missing : (verifications : List (Verification BlockPhase1)) → {base place : Nat} → (known : Nat) →
    allFlat verifications → ¬ allSpaced Nat.Coprime base place verifications →
    Missing (base * place) known (fun id => allDecode place id verifications) (allChoices verifications)
  | [], base, place, known, flat, close => absurd trivial close
  | verification :: rest, base, place, known, flat, close => by
    simp only [allDecode,allChoices]
    obtain ⟨later,isLater,_⟩ := allDecode_some rest place known
    by_cases spaced : verification.Spaced Nat.Coprime base place
    · have closeRest : ¬ allSpaced Nat.Coprime base (place * verification.variants) rest :=
        fun spacedRest => close ⟨spaced,spacedRest⟩
      obtain ⟨choice,isChoice,taken⟩ := verification.decode_some place known
      apply missing_rest isChoice taken (fun id same => verification.exact_ spaced (verification.flat_divides flat.1) same)
      rw [Nat.mul_assoc]
      exact all_missing rest known flat.2 closeRest
    · exact missing_first (verification.missing known flat.1 spaced) ⟨later,isLater⟩

theorem Block.missing : (block : Block BlockPhase1) → {base place : Nat} → (known : Nat) → block.Flat →
    ¬ block.Spaced Nat.Coprime base place → Missing (base * place) known (fun id => block.decode place id) block.choices
  | .and _ verifications, base, place, known, flat, close => by
    have missing := @all_missing verifications (base * place) 1 known flat close
    rw [Nat.mul_one] at missing
    simp only [Block.decode,Block.choices]
    exact missing
  | .or _ first rest, base, place, known, flat, close => by
    have shared : ¬ Nat.Coprime base (first.variants + branchVariants rest) := by
      intro apart
      have spaced := (@branches_one_spaced _ base place 1 flat).1
      exact close ⟨apart,spaced⟩
    have filled : 0 < first.variants + branchVariants rest := Nat.add_pos_left first.variants_pos _
    obtain ⟨digit,less,never⟩ := @digit_missing base place _ known filled shared
    obtain ⟨choice,isChoice,only⟩ := @branches_missing (first :: rest) flat digit less place 0
    refine ⟨choice,isChoice,?_⟩
    intro id same decoded
    exact never id same (only id _ (Nat.mod_lt _ filled) decoded)

theorem pattern_missing : (pattern : Pattern BlockPhase1) → {base place : Nat} → (known : Nat) → patternFlat pattern →
    ¬ patternSpaced Nat.Coprime base place pattern →
    Missing (base * place) known (fun id => patternDecode place id pattern) (patternChoices pattern)
  | [], base, place, known, flat, close => absurd trivial close
  | block :: rest, base, place, known, flat, close => by
    simp only [patternDecode,patternChoices]
    obtain ⟨later,isLater,_⟩ := patternDecode_some rest place known
    by_cases spaced : block.Spaced Nat.Coprime base place
    · have closeRest : ¬ patternSpaced Nat.Coprime (block.nextBase base place) (block.next place) rest :=
        fun spacedRest => close ⟨spaced,spacedRest⟩
      obtain ⟨choice,isChoice,taken⟩ := block.decode_some place known
      apply missing_rest isChoice taken (fun id same => block.exact_ spaced (block.flat_divides flat.1) same)
      rw [← next_base]
      exact pattern_missing rest known flat.2 closeRest
    · exact missing_first (block.missing known flat.1 spaced) ⟨later,isLater⟩

end

theorem select_root (pattern : Pattern BlockPhase1) (id : Nat) :
    patternSelect id (calculateBits 0 pattern) = patternDecode 1 id pattern :=
  pattern_decode pattern Nat.one_pos id

theorem variants_root (pattern : Pattern BlockPhase1) : variantsNum (calculateBits 0 pattern) = patternVariants pattern :=
  pattern_variants pattern 1

theorem separate_once {pattern : Pattern BlockPhase1} (separate : Separate pattern) {x y : Nat}
    (isVariant : x < patternVariants pattern) (isVariant' : y < patternVariants pattern)
    (same : patternDecode 1 x pattern = patternDecode 1 y pattern) : x = y := by
  rcases separate with ⟨spaced,divides⟩ | ⟨spaced,divides⟩
  · have above : x / (1 * patternVariants pattern) = y / (1 * patternVariants pattern) := by
      rw [Nat.one_mul,Nat.div_eq_of_lt isVariant,Nat.div_eq_of_lt isVariant']
    have told := pattern_above pattern Nat.one_pos spaced divides above same
    rw [Nat.div_one,Nat.div_one] at told
    exact told
  · have known : x ≡ y [MOD 1 * 1] := Nat.modEq_one
    have told := (pattern_exact pattern spaced divides known).mp same
    rw [Nat.one_mul] at told
    exact told.eq_of_lt_of_lt isVariant isVariant'

-- The variants enumerate the choices where the or blocks are separate, and of the flat patterns only there.
theorem variants_enumerate (pattern : Pattern BlockPhase1) :
    (Separate pattern → EachOnce pattern) ∧ (patternFlat pattern → EachOnce pattern → Separate pattern) := by
  have within : ∀ id, patternSelect id (calculateBits 0 pattern) ∈ (patternChoices pattern).map some := by
    intro id
    obtain ⟨choice,isChoice,decoded⟩ := patternDecode_some pattern 1 id
    rw [select_root,decoded]
    exact List.mem_map.mpr ⟨choice,isChoice,rfl⟩
  constructor
  · intro separate
    apply bijOn_of_count
    · rw [List.length_map,patternChoices_length,variants_root]
    · intro id _
      exact within id
    · intro x isVariant y isVariant' same
      rw [variants_root] at isVariant isVariant'
      rw [select_root,select_root] at same
      exact separate_once separate isVariant isVariant' same
  · intro flat once
    apply Or.inr
    refine ⟨?_,pattern_flat_divides pattern flat⟩
    by_contra close
    obtain ⟨choice,isChoice,never⟩ := pattern_missing pattern 0 flat close
    obtain ⟨id,_,taken⟩ := once.surjOn (List.mem_map.mpr ⟨choice,isChoice,rfl⟩)
    apply never id Nat.modEq_one
    exact (select_root pattern id).symm.trans taken

-- `(a = 1 | a = 2); (b = 1 | b = 2)`: both or blocks have the place 1, so the first of `a` and the second of `b` are
-- never taken together.
def fieldIs (field : Nat) (value : Int) : Verification BlockPhase1 :=
  .check (.tokenFieldCheck field .eq (.value (.integer value)))

def eitherOf (field : Nat) : Block BlockPhase1 :=
  .and ⟨.defined 1⟩ [.subPattern [.or ⟨.defined 1⟩ (fieldIs field 1) [fieldIs field 2]]]

theorem variants_enumerate_either : EachOnce [eitherOf 0] :=
  (variants_enumerate [eitherOf 0]).1
    (Or.inl ⟨⟨⟨⟨⟨Or.inl rfl,trivial,trivial,trivial⟩,trivial⟩,trivial⟩,trivial⟩,
      ⟨⟨⟨⟨nofun,trivial⟩,⟨nofun,trivial⟩,trivial⟩,trivial⟩,trivial⟩,trivial⟩)

theorem variants_crossed : ¬ EachOnce [eitherOf 0,eitherOf 1] := by
  intro once
  have isChoice : some (Choice.both (.both (.both (.branch 0 .done) .done) .done)
      (.both (.both (.both (.branch 1 .done) .done) .done) .done)) ∈ (patternChoices [eitherOf 0,eitherOf 1]).map some := by
    decide
  obtain ⟨id,isVariant,taken⟩ := once.surjOn isChoice
  have none : ∀ id < 4, patternSelect id (calculateBits 0 [eitherOf 0,eitherOf 1]) ≠
      some (.both (.both (.both (.branch 0 .done) .done) .done)
        (.both (.both (.both (.branch 1 .done) .done) .done) .done)) := by
    decide
  exact none id isVariant taken

end Rsleigh.Semantic.Variants
