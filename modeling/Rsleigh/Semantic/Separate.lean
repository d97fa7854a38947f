import Rsleigh.Semantic.PlaceValues

namespace Rsleigh.Semantic.Variants

open Decode Places

-- The counter of a walk is the place of the next or block; `base` counts the variants that were there when it started
-- anew. `ok` is asked of the base and of the number of variants of each or block.
def Block.nextBase (base place : Nat) (block : Block BlockPhase1) : Nat :=
  if block.phase.len.singleLen.isNone then base * place * block.variants else base

mutual

def Verification.Spaced (ok : Nat → Nat → Prop) (base place : Nat) : Verification BlockPhase1 → Prop
  | .check _ => True
  | .subPattern pattern => patternSpaced ok base place pattern

def allSpaced (ok : Nat → Nat → Prop) (base place : Nat) : List (Verification BlockPhase1) → Prop
  | [] => True
  | verification :: rest =>
    verification.Spaced ok base place ∧ allSpaced ok base (place * verification.variants) rest

def branchesSpaced (ok : Nat → Nat → Prop) (base place : Nat) : List (Verification BlockPhase1) → Prop
  | [] => True
  | branch :: rest => branch.Spaced ok base place ∧ branchesSpaced ok base place rest

def Block.Spaced (ok : Nat → Nat → Prop) (base place : Nat) : Block BlockPhase1 → Prop
  | .and _ verifications => allSpaced ok (base * place) 1 verifications
  | .or _ first rest =>
    ok base (first.variants + branchVariants rest) ∧ first.Spaced ok base place ∧ branchesSpaced ok base place rest

def patternSpaced (ok : Nat → Nat → Prop) (base place : Nat) : Pattern BlockPhase1 → Prop
  | [] => True
  | block :: rest =>
    block.Spaced ok base place ∧ patternSpaced ok (block.nextBase base place) (block.next place) rest

end

-- The number of variants of each branch divides the one of its or block: of every or block, or of those inside of a
-- branch only.
mutual

def Verification.Divides (everywhere : Bool) : Verification BlockPhase1 → Prop
  | .check _ => True
  | .subPattern pattern => patternDivides everywhere pattern

def allDivides (everywhere : Bool) : List (Verification BlockPhase1) → Prop
  | [] => True
  | verification :: rest => verification.Divides everywhere ∧ allDivides everywhere rest

def branchesDivide (everywhere : Bool) (number : Nat) : List (Verification BlockPhase1) → Prop
  | [] => True
  | branch :: rest =>
    ((everywhere = true → branch.variants ∣ number) ∧ branch.Divides true) ∧ branchesDivide everywhere number rest

def Block.Divides (everywhere : Bool) : Block BlockPhase1 → Prop
  | .and _ verifications => allDivides everywhere verifications
  | .or _ first rest =>
    ((everywhere = true → first.variants ∣ first.variants + branchVariants rest) ∧ first.Divides true) ∧
      branchesDivide everywhere (first.variants + branchVariants rest) rest

def patternDivides (everywhere : Bool) : Pattern BlockPhase1 → Prop
  | [] => True
  | block :: rest => block.Divides everywhere ∧ patternDivides everywhere rest

end

-- No branch of an or block has or blocks with a choice inside of it.
mutual

def Verification.Flat : Verification BlockPhase1 → Prop
  | .check _ => True
  | .subPattern pattern => patternFlat pattern

def allFlat : List (Verification BlockPhase1) → Prop
  | [] => True
  | verification :: rest => verification.Flat ∧ allFlat rest

def Block.Flat : Block BlockPhase1 → Prop
  | .and _ verifications => allFlat verifications
  | .or _ first rest => ∀ branch ∈ first :: rest, branch.variants = 1

def patternFlat : Pattern BlockPhase1 → Prop
  | [] => True
  | block :: rest => block.Flat ∧ patternFlat rest

end

-- The counter never starts anew after some variants, unless there are no more of them.
def Own (base number : Nat) : Prop :=
  base = 1 ∨ number = 1

-- The place values keep the or blocks apart.
def Separate (pattern : Pattern BlockPhase1) : Prop :=
  patternSpaced Own 1 1 pattern ∧ patternDivides false pattern ∨
    patternSpaced Nat.Coprime 1 1 pattern ∧ patternDivides true pattern

section Both

variable {first first' rest rest' : Option Choice}

theorem both_same (isFirst : ∃ choice, first = some choice) (isFirst' : ∃ choice, first' = some choice)
    (isRest : ∃ choice, rest = some choice) (isRest' : ∃ choice, rest' = some choice) :
    (do
      let x ← first
      let y ← rest
      return Choice.both x y) = (do
      let x ← first'
      let y ← rest'
      return Choice.both x y) ↔ first = first' ∧ rest = rest' := by
  obtain ⟨x,rfl⟩ := isFirst
  obtain ⟨x',rfl⟩ := isFirst'
  obtain ⟨y,rfl⟩ := isRest
  obtain ⟨y',rfl⟩ := isRest'
  constructor
  · intro same
    cases same
    exact ⟨rfl,rfl⟩
  · intro same
    rw [same.1,same.2]

end Both

theorem all_same (verification : Verification BlockPhase1) (rest : List (Verification BlockPhase1)) (place x y : Nat) :
    allDecode place x (verification :: rest) = allDecode place y (verification :: rest) ↔
      verification.decode place x = verification.decode place y ∧
        allDecode (place * verification.variants) x rest = allDecode (place * verification.variants) y rest := by
  have isFirst := fun id => (verification.decode_some place id).imp fun _ found => found.2
  have isRest := fun id => (allDecode_some rest (place * verification.variants) id).imp fun _ found => found.2
  rw [allDecode,allDecode]
  exact both_same (isFirst x) (isFirst y) (isRest x) (isRest y)

theorem pattern_same (block : Block BlockPhase1) (rest : Pattern BlockPhase1) (place x y : Nat) :
    patternDecode place x (block :: rest) = patternDecode place y (block :: rest) ↔
      block.decode place x = block.decode place y ∧
        patternDecode (block.next place) x rest = patternDecode (block.next place) y rest := by
  have isFirst := fun id => (block.decode_some place id).imp fun _ found => found.2
  have isRest := fun id => (patternDecode_some rest (block.next place) id).imp fun _ found => found.2
  rw [patternDecode,patternDecode]
  exact both_same (isFirst x) (isFirst y) (isRest x) (isRest y)

theorem next_base (block : Block BlockPhase1) (base place : Nat) :
    block.nextBase base place * block.next place = base * place * block.variants := by
  unfold Block.nextBase Block.next
  split
  · exact Nat.mul_one _
  · exact (Nat.mul_assoc base place block.variants).symm

theorem branchDecode_index : ∀ {branches : List (Verification BlockPhase1)} {place id digit index : Nat}
    {choice : Choice}, branchDecode place id digit index branches = some choice →
      ∃ later inner, index ≤ later ∧ choice = .branch later inner := by
  intro branches
  induction branches with
  | nil =>
    intro place id digit index choice decoded
    cases decoded
  | cons branch rest ih =>
    intro place id digit index choice decoded
    rw [branchDecode] at decoded
    split at decoded
    · obtain ⟨inner,_,rfl⟩ := Option.map_eq_some_iff.mp decoded
      exact ⟨index,inner,Nat.le_refl _,rfl⟩
    · obtain ⟨later,inner,less,same⟩ := ih decoded
      exact ⟨later,inner,Nat.le_of_succ_le less,same⟩

theorem branch_other {branch : Verification BlockPhase1} {rest : List (Verification BlockPhase1)}
    {place x y digit index : Nat} (less : digit < branchVariants rest) :
    (branch.decode place x).map (.branch index) ≠ branchDecode place y digit (index + 1) rest := by
  intro same
  obtain ⟨choice,_,decoded⟩ := branchDecode_some rest place y digit (index + 1) less
  obtain ⟨later,inner,isLater,rfl⟩ := branchDecode_index decoded
  rw [decoded] at same
  obtain ⟨inner',_,other⟩ := Option.map_eq_some_iff.mp same
  cases other
  exact absurd isLater (Nat.not_succ_le_self _)

theorem branch_same {branch : Verification BlockPhase1} {place x y index : Nat} :
    (branch.decode place x).map (Choice.branch index) = (branch.decode place y).map (Choice.branch index) ↔
      branch.decode place x = branch.decode place y := by
  constructor
  · intro same
    apply Option.map_injective _ same
    intro first second sameBranch
    cases sameBranch
    rfl
  · intro same
    rw [same]

-- A branch and the branches after it: each of them tells its variants apart, and the digit tells which one it is.
section Branches

variable {base place number : Nat} {branch : Verification BlockPhase1} {rest : List (Verification BlockPhase1)}

-- What a list of branches tells, from the digit `start` on.
def Tells (base place number start index : Nat) (branches : List (Verification BlockPhase1)) : Prop :=
  ∀ {x y digit digit' : Nat}, x ≡ y [MOD base * place] → start + digit = x / place % number →
    start + digit' = y / place % number → digit < branchVariants branches → digit' < branchVariants branches →
    (branchDecode place x digit index branches = branchDecode place y digit' index branches ↔
      x ≡ y [MOD base * place * number])

theorem tells_cons {start index : Nat} (apart : Nat.Coprime base number) (divides : branch.variants ∣ number)
    (exact_ : ∀ {x y : Nat}, x ≡ y [MOD base * place] →
      (branch.decode place x = branch.decode place y ↔ x ≡ y [MOD base * place * branch.variants]))
    (later : Tells base place number (start + branch.variants) (index + 1) rest) :
    Tells base place number start index (branch :: rest) := by
  intro x y digit digit' known isDigit isDigit' less less'
  rw [branchVariants] at less less'
  rw [branchDecode,branchDecode]
  have sameDigit : x ≡ y [MOD base * place * number] → digit = digit' := by
    intro same
    have read : x / place % number = y / place % number := (digit_known apart known).mpr same
    omega
  by_cases here : digit < branch.variants
  · by_cases here' : digit' < branch.variants
    · rw [if_pos here,if_pos here',branch_same,exact_ known]
      constructor
      · intro same
        have apartBranch : Nat.Coprime base branch.variants := apart.coprime_dvd_right divides
        have above : x / place ≡ y / place [MOD branch.variants] := (digit_known apartBranch known).mpr same
        have read : start + digit ≡ start + digit' [MOD branch.variants] := by
          rw [isDigit,isDigit']
          exact ((Nat.mod_modEq _ number).of_dvd divides).trans
            (above.trans ((Nat.mod_modEq _ number).of_dvd divides).symm)
        rw [interval_same here here' read] at isDigit
        exact (digit_known apart known).mp (isDigit.symm.trans isDigit')
      · intro same
        exact same.of_dvd (Nat.mul_dvd_mul_left _ divides)
    · rw [if_pos here,if_neg here']
      constructor
      · intro same
        exact absurd same (branch_other (by omega))
      · intro same
        exact absurd (sameDigit same ▸ here) here'
  · by_cases here' : digit' < branch.variants
    · rw [if_neg here,if_pos here']
      constructor
      · intro same
        exact absurd same.symm (branch_other (by omega))
      · intro same
        exact absurd (sameDigit same ▸ here') here
    · rw [if_neg here,if_neg here']
      apply later known <;> omega

end Branches

-- Apart from what is before it, a pattern tells each of its variants apart, and nothing more.
mutual

theorem Verification.exact_ : (verification : Verification BlockPhase1) → {base place x y : Nat} →
    verification.Spaced Nat.Coprime base place → verification.Divides true → x ≡ y [MOD base * place] →
    (verification.decode place x = verification.decode place y ↔ x ≡ y [MOD base * place * verification.variants])
  | .check _, base, place, x, y, spaced, divides, known => by
    rw [Verification.variants,Nat.mul_one]
    exact iff_of_true rfl known
  | .subPattern pattern, base, place, x, y, spaced, divides, known => by
    rw [Verification.decode,Verification.decode,Verification.variants]
    exact pattern_exact pattern spaced divides known

theorem all_exact : (verifications : List (Verification BlockPhase1)) → {base place x y : Nat} →
    allSpaced Nat.Coprime base place verifications → allDivides true verifications → x ≡ y [MOD base * place] →
    (allDecode place x verifications = allDecode place y verifications ↔
      x ≡ y [MOD base * place * allVariants verifications])
  | [], base, place, x, y, spaced, divides, known => by
    rw [allVariants,Nat.mul_one]
    exact iff_of_true rfl known
  | verification :: rest, base, place, x, y, spaced, divides, known => by
    have shape : base * place * allVariants (verification :: rest) =
        base * (place * verification.variants) * allVariants rest := by
      rw [allVariants,← Nat.mul_assoc,Nat.mul_assoc base]
    have here := verification.exact_ spaced.1 divides.1 known
    rw [Nat.mul_assoc base] at here
    rw [all_same,shape,here]
    constructor
    · intro same
      exact (all_exact rest spaced.2 divides.2 same.1).mp same.2
    · intro same
      have read := same.of_mul_right (allVariants rest)
      exact ⟨read,(all_exact rest spaced.2 divides.2 read).mpr same⟩

theorem branches_tell : (branches : List (Verification BlockPhase1)) → {base place number start index : Nat} →
    Nat.Coprime base number → branchesSpaced Nat.Coprime base place branches → branchesDivide true number branches →
    Tells base place number start index branches
  | [], base, place, number, start, index, apart, spaced, divides => fun _ _ _ less _ => absurd less (Nat.not_lt_zero _)
  | branch :: rest, base, place, number, start, index, apart, spaced, divides =>
    tells_cons apart (divides.1.1 rfl) (fun known => branch.exact_ spaced.1 divides.1.2 known)
      (branches_tell rest apart spaced.2 divides.2)

theorem Block.exact_ : (block : Block BlockPhase1) → {base place x y : Nat} → block.Spaced Nat.Coprime base place →
    block.Divides true → x ≡ y [MOD base * place] →
    (block.decode place x = block.decode place y ↔ x ≡ y [MOD base * place * block.variants])
  | .and _ verifications, base, place, x, y, spaced, divides, known => by
    have all := @all_exact verifications (base * place) 1 x y spaced divides (by rw [Nat.mul_one]; exact known)
    rw [Nat.mul_one] at all
    rw [Block.decode,Block.decode,Block.variants]
    exact all
  | .or _ first rest, base, place, x, y, spaced, divides, known => by
    have positive : 0 < first.variants + branchVariants rest := Nat.add_pos_left first.variants_pos _
    have tells : Tells base place (first.variants + branchVariants rest) 0 0 (first :: rest) :=
      tells_cons spaced.1 (divides.1.1 rfl) (fun known => first.exact_ spaced.2.1 divides.1.2 known)
        (branches_tell rest spaced.1 spaced.2.2 divides.2)
    exact tells known (Nat.zero_add _) (Nat.zero_add _) (Nat.mod_lt _ positive) (Nat.mod_lt _ positive)

theorem pattern_exact : (pattern : Pattern BlockPhase1) → {base place x y : Nat} →
    patternSpaced Nat.Coprime base place pattern → patternDivides true pattern → x ≡ y [MOD base * place] →
    (patternDecode place x pattern = patternDecode place y pattern ↔
      x ≡ y [MOD base * place * patternVariants pattern])
  | [], base, place, x, y, spaced, divides, known => by
    rw [patternVariants,Nat.mul_one]
    exact iff_of_true rfl known
  | block :: rest, base, place, x, y, spaced, divides, known => by
    have shape : base * place * patternVariants (block :: rest) =
        block.nextBase base place * block.next place * patternVariants rest := by
      rw [patternVariants,next_base,← Nat.mul_assoc]
    have here := block.exact_ spaced.1 divides.1 known
    rw [← next_base] at here
    rw [pattern_same,shape,here]
    constructor
    · intro same
      exact (pattern_exact rest spaced.2 divides.2 same.1).mp same.2
    · intro same
      have read := same.of_mul_right (patternVariants rest)
      exact ⟨read,(pattern_exact rest spaced.2 divides.2 read).mpr same⟩

end

-- Where the counter does not start anew, what is known before is not needed.
section Own

variable {ok ok' : Nat → Nat → Prop}

mutual

theorem Verification.spaced_mono (weaker : ∀ base number, ok base number → ok' base number) :
    (verification : Verification BlockPhase1) → {base place : Nat} → verification.Spaced ok base place →
    verification.Spaced ok' base place
  | .check _, base, place, spaced => trivial
  | .subPattern pattern, base, place, spaced => pattern_mono weaker pattern spaced

theorem all_mono (weaker : ∀ base number, ok base number → ok' base number) :
    (verifications : List (Verification BlockPhase1)) → {base place : Nat} → allSpaced ok base place verifications →
    allSpaced ok' base place verifications
  | [], base, place, spaced => trivial
  | verification :: rest, base, place, spaced =>
    ⟨verification.spaced_mono weaker spaced.1,all_mono weaker rest spaced.2⟩

theorem branches_mono (weaker : ∀ base number, ok base number → ok' base number) :
    (branches : List (Verification BlockPhase1)) → {base place : Nat} → branchesSpaced ok base place branches →
    branchesSpaced ok' base place branches
  | [], base, place, spaced => trivial
  | branch :: rest, base, place, spaced => ⟨branch.spaced_mono weaker spaced.1,branches_mono weaker rest spaced.2⟩

theorem Block.spaced_mono (weaker : ∀ base number, ok base number → ok' base number) :
    (block : Block BlockPhase1) → {base place : Nat} → block.Spaced ok base place → block.Spaced ok' base place
  | .and _ verifications, base, place, spaced => all_mono weaker verifications spaced
  | .or _ first rest, base, place, spaced =>
    ⟨weaker _ _ spaced.1,first.spaced_mono weaker spaced.2.1,branches_mono weaker rest spaced.2.2⟩

theorem pattern_mono (weaker : ∀ base number, ok base number → ok' base number) :
    (pattern : Pattern BlockPhase1) → {base place : Nat} → patternSpaced ok base place pattern →
    patternSpaced ok' base place pattern
  | [], base, place, spaced => trivial
  | block :: rest, base, place, spaced => ⟨block.spaced_mono weaker spaced.1,pattern_mono weaker rest spaced.2⟩

end

theorem own_coprime (base number : Nat) (own : Own base number) : Nat.Coprime base number := by
  rcases own with rfl | rfl
  · exact Nat.coprime_one_left number
  · exact Nat.coprime_one_right base

-- After a new start nothing has a choice.
mutual

theorem Verification.own_one : (verification : Verification BlockPhase1) → {base place : Nat} → base ≠ 1 →
    verification.Spaced Own base place → verification.variants = 1
  | .check _, base, place, started, spaced => rfl
  | .subPattern pattern, base, place, started, spaced => by
    rw [Verification.variants]
    exact pattern_one pattern started spaced

theorem all_one : (verifications : List (Verification BlockPhase1)) → {base place : Nat} → base ≠ 1 →
    allSpaced Own base place verifications → allVariants verifications = 1
  | [], base, place, started, spaced => rfl
  | verification :: rest, base, place, started, spaced => by
    rw [allVariants,verification.own_one started spaced.1,all_one rest started spaced.2]

theorem Block.own_one : (block : Block BlockPhase1) → {base place : Nat} → base ≠ 1 → block.Spaced Own base place →
    block.variants = 1
  | .and _ verifications, base, place, started, spaced => by
    rw [Block.variants]
    exact all_one verifications (fun one => started (Nat.eq_one_of_mul_eq_one_right one)) spaced
  | .or _ first rest, base, place, started, spaced => spaced.1.resolve_left started

theorem pattern_one : (pattern : Pattern BlockPhase1) → {base place : Nat} → base ≠ 1 →
    patternSpaced Own base place pattern → patternVariants pattern = 1
  | [], base, place, started, spaced => rfl
  | block :: rest, base, place, started, spaced => by
    have started' : block.nextBase base place ≠ 1 := by
      unfold Block.nextBase
      split
      · intro one
        exact started (Nat.eq_one_of_mul_eq_one_right (Nat.eq_one_of_mul_eq_one_right one))
      · exact started
    rw [patternVariants,block.own_one started spaced.1,pattern_one rest started' spaced.2]

end

-- A variant is read from its place on.
mutual

theorem Verification.own_reads : (verification : Verification BlockPhase1) → {base place x y : Nat} →
    verification.Spaced Own base place → (base = 1 → x / place = y / place) →
    verification.decode place x = verification.decode place y
  | .check _, base, place, x, y, spaced, same => rfl
  | .subPattern pattern, base, place, x, y, spaced, same => by
    rw [Verification.decode,Verification.decode]
    exact pattern_reads pattern spaced same

theorem all_reads : (verifications : List (Verification BlockPhase1)) → {base place x y : Nat} →
    allSpaced Own base place verifications → (base = 1 → x / place = y / place) →
    allDecode place x verifications = allDecode place y verifications
  | [], base, place, x, y, spaced, same => rfl
  | verification :: rest, base, place, x, y, spaced, same => by
    have later : base = 1 → x / (place * verification.variants) = y / (place * verification.variants) := by
      intro one
      rw [← Nat.div_div_eq_div_mul,← Nat.div_div_eq_div_mul,same one]
    exact (all_same verification rest place x y).mpr
      ⟨verification.own_reads spaced.1 same,all_reads rest spaced.2 later⟩

theorem branches_read : (branches : List (Verification BlockPhase1)) → {base place x y : Nat} → (digit index : Nat) →
    branchesSpaced Own base place branches → (base = 1 → x / place = y / place) →
    branchDecode place x digit index branches = branchDecode place y digit index branches
  | [], base, place, x, y, digit, index, spaced, same => rfl
  | branch :: rest, base, place, x, y, digit, index, spaced, same => by
    rw [branchDecode,branchDecode,branch.own_reads spaced.1 same,branches_read rest _ _ spaced.2 same]

theorem Block.own_reads : (block : Block BlockPhase1) → {base place x y : Nat} → block.Spaced Own base place →
    (base = 1 → x / place = y / place) → block.decode place x = block.decode place y
  | .and _ verifications, base, place, x, y, spaced, same => by
    rw [Block.decode,Block.decode]
    apply all_reads verifications spaced
    intro one
    have whole := same (Nat.eq_one_of_mul_eq_one_right one)
    rw [Nat.eq_one_of_mul_eq_one_left one] at whole
    exact whole
  | .or _ first rest, base, place, x, y, spaced, same => by
    have sameDigit : x / place % (first.variants + branchVariants rest) =
        y / place % (first.variants + branchVariants rest) := by
      rcases spaced.1 with one | one
      · rw [same one]
      · rw [one,Nat.mod_one,Nat.mod_one]
    rw [Block.decode,Block.decode]
    rw [sameDigit,first.own_reads spaced.2.1 same,branches_read rest _ _ spaced.2.2 same]

theorem pattern_reads : (pattern : Pattern BlockPhase1) → {base place x y : Nat} → patternSpaced Own base place pattern →
    (base = 1 → x / place = y / place) → patternDecode place x pattern = patternDecode place y pattern
  | [], base, place, x, y, spaced, same => rfl
  | block :: rest, base, place, x, y, spaced, same => by
    have later : block.nextBase base place = 1 → x / block.next place = y / block.next place := by
      unfold Block.nextBase Block.next
      split
      · intro one
        have before := Nat.eq_one_of_mul_eq_one_right one
        have whole := same (Nat.eq_one_of_mul_eq_one_right before)
        rw [Nat.eq_one_of_mul_eq_one_left before] at whole
        exact whole
      · intro one
        rw [← Nat.div_div_eq_div_mul,← Nat.div_div_eq_div_mul,same one]
    exact (pattern_same block rest place x y).mpr ⟨block.own_reads spaced.1 same,pattern_reads rest spaced.2 later⟩

end

theorem branch_above {branch : Verification BlockPhase1} {place x y : Nat} (positive : 0 < place)
    (spaced : branch.Spaced Own 1 place) (divides : branch.Divides true)
    (same : branch.decode place x = branch.decode place y) : x / place ≡ y / place [MOD branch.variants] := by
  have reads : ∀ id, branch.decode place (place * (id / place)) = branch.decode place id := by
    intro id
    apply branch.own_reads spaced
    intro _
    exact Nat.mul_div_cancel_left _ positive
  have known : place * (x / place) ≡ place * (y / place) [MOD 1 * place] := by
    rw [Nat.one_mul]
    exact ((Nat.modEq_zero_iff_dvd.mpr (Nat.dvd_mul_right _ _)).trans
      (Nat.modEq_zero_iff_dvd.mpr (Nat.dvd_mul_right _ _)).symm)
  rw [← reads x,← reads y] at same
  have whole := (branch.exact_ (branch.spaced_mono own_coprime spaced) divides known).mp same
  have read := (digit_known (Nat.coprime_one_left branch.variants) known).mpr whole
  rw [Nat.mul_div_cancel_left _ positive,Nat.mul_div_cancel_left _ positive] at read
  exact read

theorem branches_above {place x y : Nat} (positive : 0 < place) :
    ∀ {branches : List (Verification BlockPhase1)} {start digit digit' index number : Nat},
      branchesSpaced Own 1 place branches → branchesDivide false number branches → start + digit = x / place →
      start + digit' = y / place → digit < branchVariants branches → digit' < branchVariants branches →
      branchDecode place x digit index branches = branchDecode place y digit' index branches → digit = digit' := by
  intro branches
  induction branches with
  | nil =>
    intro start digit digit' index number _ _ _ _ less _ _
    exact absurd less (Nat.not_lt_zero _)
  | cons branch rest ih =>
    intro start digit digit' index number spaced divides isDigit isDigit' less less' same
    rw [branchVariants] at less less'
    rw [branchDecode,branchDecode] at same
    by_cases here : digit < branch.variants
    · by_cases here' : digit' < branch.variants
      · rw [if_pos here,if_pos here',branch_same] at same
        have read := branch_above positive spaced.1 divides.1.2 same
        rw [← isDigit,← isDigit'] at read
        exact interval_same here here' read
      · rw [if_pos here,if_neg here'] at same
        exact absurd same (branch_other (by omega))
    · by_cases here' : digit' < branch.variants
      · rw [if_neg here,if_pos here'] at same
        exact absurd same.symm (branch_other (by omega))
      · rw [if_neg here,if_neg here'] at same
        have later : digit - branch.variants = digit' - branch.variants := by
          apply @ih (start + branch.variants) _ _ _ number spaced.2 divides.2 _ _ _ _ same <;> omega
        omega

-- From above: the variants of the last block are told apart first.
mutual

theorem Verification.own_above : (verification : Verification BlockPhase1) → {place x y : Nat} → 0 < place →
    verification.Spaced Own 1 place → verification.Divides false →
    x / (place * verification.variants) = y / (place * verification.variants) →
    verification.decode place x = verification.decode place y → x / place = y / place
  | .check _, place, x, y, positive, spaced, divides, above, same => by
    rw [Verification.variants,Nat.mul_one] at above
    exact above
  | .subPattern pattern, place, x, y, positive, spaced, divides, above, same => by
    rw [Verification.variants] at above
    rw [Verification.decode,Verification.decode] at same
    exact pattern_above pattern positive spaced divides above same

theorem all_above : (verifications : List (Verification BlockPhase1)) → {place x y : Nat} → 0 < place →
    allSpaced Own 1 place verifications → allDivides false verifications →
    x / (place * allVariants verifications) = y / (place * allVariants verifications) →
    allDecode place x verifications = allDecode place y verifications → x / place = y / place
  | [], place, x, y, positive, spaced, divides, above, same => by
    rw [allVariants,Nat.mul_one] at above
    exact above
  | verification :: rest, place, x, y, positive, spaced, divides, above, same => by
    rw [allVariants,← Nat.mul_assoc] at above
    obtain ⟨sameFirst,sameRest⟩ := (all_same verification rest place x y).mp same
    have positive' := Nat.mul_pos positive verification.variants_pos
    exact verification.own_above positive spaced.1 divides.1
      (all_above rest positive' spaced.2 divides.2 above sameRest) sameFirst

theorem Block.own_above : (block : Block BlockPhase1) → {place x y : Nat} → 0 < place → block.Spaced Own 1 place →
    block.Divides false → x / (place * block.variants) = y / (place * block.variants) →
    block.decode place x = block.decode place y → x / place = y / place
  | .and phase verifications, place, x, y, positive, spaced, divides, above, same => by
    rw [Block.variants] at above
    rw [Block.decode,Block.decode] at same
    by_cases first : place = 1
    · subst first
      exact all_above verifications Nat.one_pos spaced divides above same
    · have one := all_one verifications (by rw [Nat.one_mul]; exact first) spaced
      rw [one,Nat.mul_one] at above
      exact above
  | .or _ first rest, place, x, y, positive, spaced, divides, above, same => by
    have filled : 0 < first.variants + branchVariants rest := Nat.add_pos_left first.variants_pos _
    rw [Block.variants,← Nat.div_div_eq_div_mul,← Nat.div_div_eq_div_mul] at above
    -- The digits are in the same interval of variants.
    have split : ∀ id, (first.variants + branchVariants rest) * (id / place / (first.variants + branchVariants rest)) +
        id / place % (first.variants + branchVariants rest) = id / place := fun id => Nat.div_add_mod _ _
    have branches : branchesSpaced Own 1 place (first :: rest) := spaced.2
    have divide : branchesDivide false (first.variants + branchVariants rest) (first :: rest) := divides
    have isSecond := split y
    rw [← above] at isSecond
    have digits := branches_above positive branches divide (split x) isSecond (Nat.mod_lt _ filled)
      (Nat.mod_lt _ filled) same
    rw [← split x,← isSecond,digits]

theorem pattern_above : (pattern : Pattern BlockPhase1) → {place x y : Nat} → 0 < place →
    patternSpaced Own 1 place pattern → patternDivides false pattern →
    x / (place * patternVariants pattern) = y / (place * patternVariants pattern) →
    patternDecode place x pattern = patternDecode place y pattern → x / place = y / place
  | [], place, x, y, positive, spaced, divides, above, same => by
    rw [patternVariants,Nat.mul_one] at above
    exact above
  | block :: rest, place, x, y, positive, spaced, divides, above, same => by
    rw [patternVariants,← Nat.mul_assoc] at above
    obtain ⟨sameFirst,sameRest⟩ := (pattern_same block rest place x y).mp same
    apply block.own_above positive spaced.1 divides.1 _ sameFirst
    have spacedRest := spaced.2
    by_cases isStart : block.phase.len.singleLen.isNone = true
    · have base : block.nextBase 1 place = place * block.variants := by
        unfold Block.nextBase
        rw [if_pos isStart,Nat.one_mul]
      have next : block.next place = 1 := by
        unfold Block.next
        rw [if_pos isStart]
      rw [base,next] at spacedRest
      rw [next] at sameRest
      by_cases before : place * block.variants = 1
      · rw [before] at spacedRest above ⊢
        exact pattern_above rest Nat.one_pos spacedRest divides.2 above sameRest
      · rw [pattern_one rest before spacedRest,Nat.mul_one] at above
        exact above
    · have base : block.nextBase 1 place = 1 := by
        unfold Block.nextBase
        rw [if_neg isStart]
      have next : block.next place = place * block.variants := by
        unfold Block.next
        rw [if_neg isStart]
      rw [base,next] at spacedRest
      rw [next] at sameRest
      exact pattern_above rest (Nat.mul_pos positive block.variants_pos) spacedRest divides.2 above sameRest

end

end Own

end Rsleigh.Semantic.Variants
