import Rsleigh.Semantic.FieldSize

namespace Rsleigh.Semantic.Len

section Operators

inductive Outcome (σ : Type) where
  | failed (operands : σ)
  | done (modified : Bool) (operands : σ)
  | panicked

-- `intersect_all`: the size that all have in common, which each is then narrowed to.
def commonSize (fields : List FieldSize) : Option FieldSize :=
  fields.foldlM FieldSize.intersection .newUnsized

def narrow (finalLen size : FieldSize) : Option (Bool × FieldSize) :=
  size.updateAction fun size => size.intersection finalLen

def intersectBoth (a b : FieldSize) : Option (Bool × FieldSize × FieldSize) := do
  let finalLen ← commonSize [a, b]
  let (one, a) ← narrow finalLen a
  let (two, b) ← narrow finalLen b
  return (one || two, a, b)

def intersectThree (a b c : FieldSize) : Option (Bool × FieldSize × FieldSize × FieldSize) := do
  let finalLen ← commonSize [a, b, c]
  let (one, a) ← narrow finalLen a
  let (two, b) ← narrow finalLen b
  let (three, c) ← narrow finalLen c
  return (one || two || three, a, b, c)

def withPossible (possibleMin : Bool) (possibleValue : Option NumberNonZeroUnsigned) (size : FieldSize) : Option FieldSize :=
  let size := if possibleMin then size.setPossibleMin else size
  match possibleValue with
  | some bits => size.setPossibleBits bits
  | none => some size

def setPossible (size : FieldSize) (possibleMin : Bool) (possibleValue : Option NumberNonZeroUnsigned) :
    Option (Bool × FieldSize) :=
  if !possibleMin && possibleValue.isNone then some (false, size)
  else size.updateAction (withPossible possibleMin possibleValue)

-- Both have the same size.
def whenEqual (onward : Bool → FieldSize → FieldSize → Outcome (FieldSize × FieldSize)) (a b : FieldSize) :
    Outcome (FieldSize × FieldSize) :=
  match intersectBoth a b with
  | some (modified, a, b) => onward modified a b
  | none => .failed (a, b)

def aCmpB (a b : FieldSize) : Outcome (FieldSize × FieldSize) :=
  whenEqual (fun modified a b => .done modified (a, b)) a b

def agreed : Option NumberNonZeroUnsigned → Option NumberNonZeroUnsigned → Option NumberNonZeroUnsigned
  | none, none => none
  | some value, none => some value
  | none, some value => some value
  | some a, some b => if a = b then some a else none

-- Both get the possible values of the two.
def sharePossible (modified : Bool) (a b : FieldSize) : Outcome (FieldSize × FieldSize) :=
  let possibleMin := a.possibleMin || b.possibleMin
  let possibleValue := agreed a.possibleValue b.possibleValue
  match setPossible a possibleMin possibleValue, setPossible b possibleMin possibleValue with
  | some (one, a), some (two, b) => .done (modified || one || two) (a, b)
  | _, _ => .panicked

def aEquivalentB (a b : FieldSize) : Outcome (FieldSize × FieldSize) := whenEqual sharePossible a b

-- A possible value that one of them has and the other has not.
def forwardPossible (a b : FieldSize) : Option (Bool × FieldSize × FieldSize) :=
  match a.possibleValue, b.possibleValue with
  | some value, none => (b.updateAction fun b => b.setPossibleBits value).map fun (modified, b) => (modified, a, b)
  | none, some value => (a.updateAction fun a => a.setPossibleBits value).map fun (modified, a) => (modified, a, b)
  | _, _ => some (false, a, b)

def receivePossible (modified : Bool) (a b : FieldSize) : Outcome (FieldSize × FieldSize) :=
  match forwardPossible a b with
  | some (forwarded, a, b) =>
    if b.possibleMin then .done (modified || forwarded || a != a.setPossibleMin) (a.setPossibleMin, b)
    else .done (modified || forwarded) (a, b)
  | none => .panicked

def aReceiveB (a b : FieldSize) : Outcome (FieldSize × FieldSize) :=
  if a.isFullyUndefined then receivePossible (a != b) b b
  else whenEqual receivePossible a b

def generatePossible (modified : Bool) (a b : FieldSize) : Outcome (FieldSize × FieldSize) :=
  match a with
  | .unsized _ possibleMin possibleValue =>
    match b.updateAction (withPossible possibleMin possibleValue) with
    | some (one, b) => .done (modified || one) (a, b)
    | none => .panicked
  | .value _ => .done modified (a, b)

def aGenerateB (a b : FieldSize) : Outcome (FieldSize × FieldSize) := whenEqual generatePossible a b

-- The minimum that is set is the operand's own.
def aExtendB (a b : FieldSize) : Outcome (FieldSize × FieldSize) :=
  match a.updateAction (FieldSize.restrict FieldSize.setMaxBits b.maxBits) with
  | none => .failed (a, b)
  | some (one, a) =>
    match b.updateAction (FieldSize.restrict FieldSize.setMinBits b.minBits) with
    | none => .failed (a, b)
    | some (two, b) => .done (one || two) (a, b)

-- What an operand is forced to that is larger than a resolved one.
def forced (resolved operand : FieldSize) : Option FieldSize :=
  match resolved with
  | .value size => if operand.minBits.any fun min => size < min then some (.value size) else none
  | .unsized _ _ _ => none

-- The update of the output is not reported.
def combinePossible (modified : Bool) (a b c : FieldSize) : Outcome (FieldSize × FieldSize × FieldSize) :=
  match c with
  | .unsized _ possibleMin possibleValue =>
    if possibleMin || possibleValue.isSome then
      match setPossible a possibleMin possibleValue, setPossible b possibleMin possibleValue with
      | some (one, a), some (two, b) => .done (modified || one || two) (a, b, c)
      | _, _ => .panicked
    else if a.possibleMin && b.possibleMin then .done modified (a, b, c.setPossibleMin)
    else .done modified (a, b, c)
  | .value _ => .done modified (a, b, c)

def aBGenerateC (a b c : FieldSize) : Outcome (FieldSize × FieldSize × FieldSize) :=
  match intersectThree a b c with
  | some (modified, a, b, c) => combinePossible modified a b c
  | none =>
    let forcedB := forced a b
    let forcedA := forced b a
    let a := forcedA.getD a
    let b := forcedB.getD b
    match intersectThree a b c with
    | some (modified, a, b, c) => combinePossible (forcedA.isSome || forcedB.isSome || modified) a b c
    | none => .failed (a, b, c)

end Operators

open FieldSize

section Narrowing

theorem unsized_allows : newUnsized.Allows bits := by
  simp [Allows,newUnsized,minBits,maxBits,FieldRange.newUnsize]

theorem unsized_within {s : FieldSize} : Within newUnsized s := by
  simp [Within,newUnsized,minBits,maxBits,FieldRange.newUnsize]

theorem unsized_wf : newUnsized.WellFormed := by
  simp [newUnsized,WellFormed,FieldRange.newUnsize]

theorem within_antisymm {s t : FieldSize} (st : Within s t) (ts : Within t s) : s.bounds = t.bounds := by
  refine Prod.ext ?_ ?_
  · exact ts.1.symm.trans (((Option.commutative_merge Max.max).comm _ _).trans st.1)
  · exact ts.2.symm.trans (((Option.commutative_merge Min.min).comm _ _).trans st.2)

theorem within_intersection {s t r u : FieldSize} (wf : s.WellFormed) (isSome : s.intersection t = some r)
    (su : Within s u) (tu : Within t u) : Within r u := by
  obtain ⟨isMin,isMax⟩ := Prod.ext_iff.mp (intersection_some wf isSome).2
  unfold Within
  rw [show r.minBits = _ from isMin,show r.maxBits = _ from isMax,(Option.associative_merge Max.max).assoc,
    (Option.associative_merge Min.min).assoc,tu.1,tu.2]
  exact su

-- The common size is the widest that is within all.
structure Common (acc : FieldSize) (fields : List FieldSize) (finalLen : FieldSize) : Prop where
  wf : finalLen.WellFormed
  start : Within acc finalLen
  within : ∀ size ∈ fields, Within size finalLen
  widest : ∀ u, Within acc u → (∀ size ∈ fields, Within size u) → Within finalLen u
  allows : ∀ bits, finalLen.Allows bits ↔ acc.Allows bits ∧ ∀ size ∈ fields, size.Allows bits

theorem common_some (fields : List FieldSize) : ∀ {acc finalLen : FieldSize}, acc.WellFormed →
    fields.foldlM intersection acc = some finalLen → Common acc fields finalLen := by
  induction fields with
  | nil =>
    intro acc finalLen wf isFold
    obtain rfl := Option.some.inj isFold
    exact ⟨wf,within_refl,List.forall_mem_nil _,fun u start _ => start,by simp⟩
  | cons size fields ih =>
    intro acc finalLen wf isFold
    rw [List.foldlM_cons] at isFold
    obtain ⟨next,isNext,isRest⟩ := Option.bind_eq_some_iff.mp isFold
    have rest := ih (intersection_some wf isNext).1 isRest
    obtain ⟨fromAcc,fromSize⟩ := intersection_within wf isNext
    refine ⟨rest.wf,within_trans fromAcc rest.start,?_,?_,?_⟩
    · exact List.forall_mem_cons.mpr ⟨within_trans fromSize rest.start,rest.within⟩
    · intro u start all
      obtain ⟨isFirst,others⟩ := List.forall_mem_cons.mp all
      exact rest.widest u (within_intersection wf isNext start isFirst) others
    · intro bits
      rw [rest.allows,intersection_allows wf isNext,List.forall_mem_cons,and_assoc]

theorem common_none (fields : List FieldSize) : ∀ {acc : FieldSize}, acc.WellFormed →
    fields.foldlM intersection acc = none → ¬∃ bits, acc.Allows bits ∧ ∀ size ∈ fields, size.Allows bits := by
  induction fields with
  | nil =>
    intro acc _ isFold
    cases isFold
  | cons size fields ih =>
    rintro acc wf isFold ⟨bits,inAcc,all⟩
    obtain ⟨isFirst,others⟩ := List.forall_mem_cons.mp all
    rw [List.foldlM_cons] at isFold
    cases isNext : acc.intersection size with
    | none => exact (intersection_none wf).mp isNext ⟨bits,inAcc,isFirst⟩
    | some next =>
      rw [isNext] at isFold
      exact ih (intersection_some wf isNext).1 isFold ⟨bits,(intersection_allows wf isNext).mpr ⟨inAcc,isFirst⟩,others⟩

theorem commonSize_some (fields : List FieldSize) (shared : ∃ bits, ∀ size ∈ fields, size.Allows bits) :
    ∃ finalLen, commonSize fields = some finalLen ∧ Common newUnsized fields finalLen := by
  cases isFold : commonSize fields with
  | none =>
    obtain ⟨bits,all⟩ := shared
    exact absurd ⟨bits,unsized_allows,all⟩ (common_none fields unsized_wf isFold)
  | some finalLen => exact ⟨finalLen,rfl,common_some fields unsized_wf isFold⟩

theorem commonSize_none (fields : List FieldSize) (apart : ¬∃ bits, ∀ size ∈ fields, size.Allows bits) :
    commonSize fields = none := by
  cases isFold : commonSize fields with
  | none => rfl
  | some finalLen =>
    have isCommon := common_some fields unsized_wf isFold
    obtain ⟨bits,isAllowed⟩ := wf_allows isCommon.wf
    exact absurd ⟨bits,((isCommon.allows bits).mp isAllowed).2⟩ apart

-- An operand after the intersection.
structure Narrowed (finalLen size narrowed : FieldSize) : Prop where
  wf : narrowed.WellFormed
  bounds : narrowed.bounds = finalLen.bounds
  kept : size.bounds = finalLen.bounds → narrowed = size

theorem narrow_some {finalLen size : FieldSize} (wf : size.WellFormed) (isFinal : finalLen.WellFormed)
    (within : Within size finalLen) : ∃ narrowed, narrow finalLen size = some (size != narrowed,narrowed) ∧
      Narrowed finalLen size narrowed := by
  cases isSome : size.intersection finalLen with
  | none =>
    obtain ⟨bits,isAllowed⟩ := wf_allows isFinal
    have inSize : size.Allows bits := by
      obtain ⟨least,most⟩ := isAllowed
      rw [← within.1,merge_max_le] at least
      rw [← within.2,le_merge_min] at most
      exact ⟨least.1,most.1⟩
    exact absurd ⟨bits,inSize,isAllowed⟩ ((intersection_none wf).mp isSome)
  | some narrowed =>
    obtain ⟨isWf,isBounds⟩ := intersection_some wf isSome
    rw [within.1,within.2] at isBounds
    refine ⟨narrowed,by simp [narrow,updateAction,isSome],isWf,isBounds,fun same => ?_⟩
    rw [intersection_same wf (within_bounds same.symm)] at isSome
    exact (Option.some.inj isSome).symm

end Narrowing

section Intersections

variable {a b c : FieldSize}

theorem intersectBoth_some (wfA : a.WellFormed) (wfB : b.WellFormed) (shared : ∃ bits, a.Allows bits ∧ b.Allows bits) :
    ∃ finalLen a' b', intersectBoth a b = some (a != a' || b != b',a',b') ∧ Common newUnsized [a,b] finalLen ∧
      Narrowed finalLen a a' ∧ Narrowed finalLen b b' := by
  obtain ⟨finalLen,isFinal,isCommon⟩ := commonSize_some [a,b] (by simpa using shared)
  obtain ⟨a',isA,narrowA⟩ := narrow_some wfA isCommon.wf (isCommon.within a (by simp))
  obtain ⟨b',isB,narrowB⟩ := narrow_some wfB isCommon.wf (isCommon.within b (by simp))
  refine ⟨finalLen,a',b',?_,isCommon,narrowA,narrowB⟩
  simp [intersectBoth,isFinal,isA,isB]

theorem intersectBoth_none (apart : ¬∃ bits, a.Allows bits ∧ b.Allows bits) : intersectBoth a b = none := by
  have isNone := commonSize_none [a,b] (by simpa using apart)
  simp [intersectBoth,isNone]

theorem intersectBoth_same (wfA : a.WellFormed) (wfB : b.WellFormed) (same : a.bounds = b.bounds) :
    intersectBoth a b = some (false,a,b) := by
  obtain ⟨bits,isAllowed⟩ := wf_allows wfA
  obtain ⟨finalLen,a',b',isBoth,isCommon,narrowA,narrowB⟩ :=
    intersectBoth_some wfA wfB ⟨bits,isAllowed,(allows_bounds same).mp isAllowed⟩
  have isA : a.bounds = finalLen.bounds := within_antisymm (isCommon.within a (by simp))
    (isCommon.widest a unsized_within (by simp [within_refl,within_bounds same.symm]))
  rw [isBoth,narrowA.kept isA,narrowB.kept (same.symm.trans isA)]
  simp

theorem intersectThree_some (wfA : a.WellFormed) (wfB : b.WellFormed) (wfC : c.WellFormed)
    (shared : ∃ bits, a.Allows bits ∧ b.Allows bits ∧ c.Allows bits) :
    ∃ finalLen a' b' c', intersectThree a b c = some (a != a' || b != b' || c != c',a',b',c') ∧
      Common newUnsized [a,b,c] finalLen ∧ Narrowed finalLen a a' ∧ Narrowed finalLen b b' ∧ Narrowed finalLen c c' := by
  obtain ⟨finalLen,isFinal,isCommon⟩ := commonSize_some [a,b,c] (by simpa using shared)
  obtain ⟨a',isA,narrowA⟩ := narrow_some wfA isCommon.wf (isCommon.within a (by simp))
  obtain ⟨b',isB,narrowB⟩ := narrow_some wfB isCommon.wf (isCommon.within b (by simp))
  obtain ⟨c',isC,narrowC⟩ := narrow_some wfC isCommon.wf (isCommon.within c (by simp))
  refine ⟨finalLen,a',b',c',?_,isCommon,narrowA,narrowB,narrowC⟩
  simp [intersectThree,isFinal,isA,isB,isC]

theorem intersectThree_none (apart : ¬∃ bits, a.Allows bits ∧ b.Allows bits ∧ c.Allows bits) : intersectThree a b c = none := by
  have isNone := commonSize_none [a,b,c] (by simpa using apart)
  simp [intersectThree,isNone]

theorem intersectThree_same (wfA : a.WellFormed) (wfB : b.WellFormed) (wfC : c.WellFormed) (sameB : b.bounds = a.bounds)
    (sameC : c.bounds = a.bounds) : intersectThree a b c = some (false,a,b,c) := by
  obtain ⟨bits,isAllowed⟩ := wf_allows wfA
  obtain ⟨finalLen,a',b',c',isThree,isCommon,narrowA,narrowB,narrowC⟩ := intersectThree_some wfA wfB wfC
    ⟨bits,isAllowed,(allows_bounds sameB).mpr isAllowed,(allows_bounds sameC).mpr isAllowed⟩
  have isA : a.bounds = finalLen.bounds := within_antisymm (isCommon.within a (by simp))
    (isCommon.widest a unsized_within (by simp [within_refl,within_bounds sameB,within_bounds sameC]))
  rw [isThree,narrowA.kept isA,narrowB.kept (sameB.trans isA),narrowC.kept (sameC.trans isA)]
  simp

end Intersections

section Possible

theorem same_bounds {a b : FieldSize} (wfA : a.WellFormed) (wfB : b.WellFormed) (same : b.bounds = a.bounds) :
    (∃ bits, a = .value bits ∧ b = .value bits) ∨ ∃ range p q p' q', a = .unsized range p q ∧ b = .unsized range p' q' := by
  obtain ⟨isMin,isMax⟩ := Prod.ext_iff.mp same
  cases a with
  | value bits =>
    cases b with
    | value own =>
      obtain rfl := Option.some.inj isMin
      exact .inl ⟨own,rfl,rfl⟩
    | unsized range p q => exact absurd (wfB.1 bits bits isMin isMax) (lt_irrefl _)
  | unsized range p q =>
    cases b with
    | value own => exact absurd (wfA.1 own own isMin.symm isMax.symm) (lt_irrefl _)
    | unsized other p' q' =>
      obtain rfl : other = range := by
        cases other
        cases range
        exact FieldRange.mk.injEq .. ▸ ⟨isMin,isMax⟩
      exact .inr ⟨other,p,q,p',q',rfl,rfl⟩

theorem possible_allows {s : FieldSize} (wf : s.WellFormed) (isPossible : s.possibleValue = some bits) : s.Allows bits := by
  cases s with
  | value own =>
    obtain rfl := Option.some.inj isPossible
    simp [Allows,minBits,maxBits]
  | unsized range p q =>
    cases q with
    | some own =>
      obtain rfl := Option.some.inj isPossible
      exact contains_allows.mp (wf.2 own rfl)
    | none =>
      cases p with
      | false => cases isPossible
      | true =>
        have isMin : range.min = some bits := isPossible
        refine ⟨fun min isLeast => ?_,fun max isMax => (wf.1 bits max isMin isMax).le⟩
        rw [show range.min = some min from isLeast] at isMin
        exact (Option.some.inj isMin).le

theorem possible_contains {range : FieldRange} (wf : (FieldSize.unsized range p q).WellFormed)
    (isPossible : (FieldSize.unsized range p q).possibleValue = some bits) : range.contains bits = true :=
  contains_allows.mpr (possible_allows wf isPossible)

theorem setPossible_value (fits : ∀ own, q = some own → own = bits) :
    setPossible (.value bits) p q = some (false,.value bits) := by
  cases q with
  | none => cases p <;> simp [setPossible,updateAction,withPossible,setPossibleMin]
  | some own =>
    obtain rfl := fits own rfl
    cases p <;> simp [setPossible,updateAction,withPossible,setPossibleMin,setPossibleBits]

theorem withPossible_unsized {range : FieldRange} (inside : ∀ bits, q = some bits → range.contains bits = true) :
    withPossible p q (.unsized range p' q') = some (.unsized range (p || p') (q.or q')) := by
  cases q with
  | none => cases p <;> simp [withPossible,FieldSize.setPossibleMin]
  | some bits => cases p <;> simp [withPossible,FieldSize.setPossibleMin,setPossibleBits,inside bits rfl]

theorem setPossible_unsized {range : FieldRange} (inside : ∀ bits, q = some bits → range.contains bits = true) :
    setPossible (.unsized range p' q') p q =
      some (FieldSize.unsized range p' q' != .unsized range (p || p') (q.or q'),.unsized range (p || p') (q.or q')) := by
  unfold setPossible
  split
  · rename_i nothing
    simp only [Bool.and_eq_true,Bool.not_eq_true',Option.isNone_iff_eq_none] at nothing
    simp [nothing.1,nothing.2]
  · simp [updateAction,withPossible_unsized inside]

theorem unsized_wf_or {range : FieldRange} (wf : (FieldSize.unsized range p' q').WellFormed)
    (inside : ∀ bits, q = some bits → range.contains bits = true) :
    (FieldSize.unsized range (p || p') (q.or q')).WellFormed := by
  refine ⟨wf.1,fun bits isBits => ?_⟩
  rcases Option.or_eq_some_iff.mp isBits with own | ⟨_,old⟩
  · exact inside bits own
  · exact wf.2 bits old

end Possible

-- What an operator does to sizes that have the same bounds already.
structure Steady (onward : Bool → FieldSize → FieldSize → Outcome (FieldSize × FieldSize)) (modified : Bool) (a b : FieldSize)
    (modified' : Bool) (a' b' : FieldSize) : Prop where
  isDone : onward modified a b = .done modified' (a',b')
  wfA : a'.WellFormed
  wfB : b'.WellFormed
  boundsA : a'.bounds = a.bounds
  boundsB : b'.bounds = b.bounds
  changed : modified' = true ↔ modified = true ∨ a' ≠ a ∨ b' ≠ b
  settled : onward false a' b' = .done false (a',b')

section Steadiness

variable {a b : FieldSize}

theorem agreed_some {one two : Option NumberNonZeroUnsigned} (isAgreed : agreed one two = some bits) :
    one = some bits ∨ two = some bits := by
  unfold agreed at isAgreed
  split at isAgreed
  · cases isAgreed
  · exact .inl isAgreed
  · exact .inr isAgreed
  · split at isAgreed
    · exact .inl isAgreed
    · cases isAgreed

-- The value that two unresolved sizes agree on.
def agreedOn (range : FieldRange) (p p' : Bool) (q q' : Option NumberNonZeroUnsigned) : Option NumberNonZeroUnsigned :=
  agreed (FieldSize.unsized range p q).possibleValue (FieldSize.unsized range p' q').possibleValue

variable {range : FieldRange} {p p' : Bool} {q q' : Option NumberNonZeroUnsigned}

theorem agreedOn_contains (wfA : (FieldSize.unsized range p q).WellFormed) (wfB : (FieldSize.unsized range p' q').WellFormed) :
    ∀ bits, agreedOn range p p' q q' = some bits → range.contains bits = true := by
  intro bits isAgreed
  rcases agreed_some isAgreed with one | two
  · exact possible_contains wfA one
  · exact possible_contains wfB two

-- Once both have it they agree on nothing else.
theorem agreedOn_again (own : agreedOn range p p' q q' = k) :
    (agreedOn range (p || p') (p || p') (k.or q) (k.or q')).or (k.or q) = k.or q ∧
      (agreedOn range (p || p') (p || p') (k.or q) (k.or q')).or (k.or q') = k.or q' := by
  cases k with
  | some bits => simp [agreedOn,FieldSize.possibleValue,agreed]
  | none =>
    cases q with
    | some one =>
      cases q' with
      | some two =>
        have apart : one ≠ two := by simpa [agreedOn,FieldSize.possibleValue,agreed] using own
        simp [agreedOn,FieldSize.possibleValue,agreed,apart]
      | none =>
        cases p' with
        | false => simp [agreedOn,FieldSize.possibleValue,agreed] at own
        | true =>
          cases isMin : range.min with
          | none => simp [agreedOn,FieldSize.possibleValue,agreed,isMin] at own
          | some min =>
            have apart : one ≠ min := by simpa [agreedOn,FieldSize.possibleValue,agreed,isMin] using own
            simp [agreedOn,FieldSize.possibleValue,agreed,isMin,apart]
    | none =>
      cases q' with
      | some two =>
        cases p with
        | false => simp [agreedOn,FieldSize.possibleValue,agreed] at own
        | true =>
          cases isMin : range.min with
          | none => simp [agreedOn,FieldSize.possibleValue,agreed,isMin] at own
          | some min =>
            have apart : min ≠ two := by simpa [agreedOn,FieldSize.possibleValue,agreed,isMin] using own
            simp [agreedOn,FieldSize.possibleValue,agreed,isMin,apart]
      | none =>
        cases isMin : range.min with
        | none => cases p <;> cases p' <;> simp [agreedOn,FieldSize.possibleValue,agreed,isMin]
        | some min =>
          cases p with
          | true => cases p' <;> simp [agreedOn,FieldSize.possibleValue,agreed,isMin] at own
          | false =>
            cases p' with
            | true => simp [agreedOn,FieldSize.possibleValue,agreed,isMin] at own
            | false => simp [agreedOn,FieldSize.possibleValue,agreed]

theorem sharePossible_unsized (modified : Bool) (inside : ∀ bits, agreedOn range p p' q q' = some bits → range.contains bits = true) :
    sharePossible modified (.unsized range p q) (.unsized range p' q') =
      .done (modified || FieldSize.unsized range p q != .unsized range (p || p') ((agreedOn range p p' q q').or q) ||
          FieldSize.unsized range p' q' != .unsized range (p || p') ((agreedOn range p p' q q').or q'))
        (.unsized range (p || p') ((agreedOn range p p' q q').or q),.unsized range (p || p') ((agreedOn range p p' q q').or q')) := by
  have left : (p || p' || p) = (p || p') := by cases p <;> simp
  have right : (p || p' || p') = (p || p') := by simp
  have isShare : sharePossible modified (.unsized range p q) (.unsized range p' q') =
      match setPossible (.unsized range p q) (p || p') (agreedOn range p p' q q'),
        setPossible (.unsized range p' q') (p || p') (agreedOn range p p' q q') with
      | some (one,a), some (two,b) => .done (modified || one || two) (a,b)
      | _, _ => .panicked := rfl
  rw [isShare,setPossible_unsized inside,setPossible_unsized inside,left,right]

theorem share_steady (modified : Bool) (wfA : a.WellFormed) (wfB : b.WellFormed) (same : b.bounds = a.bounds) :
    ∃ modified' a' b', Steady sharePossible modified a b modified' a' b' := by
  obtain ⟨bits,rfl,rfl⟩ | ⟨range,p,q,p',q',rfl,rfl⟩ := same_bounds wfA wfB same
  · have isShare (before : Bool) : sharePossible before (.value bits) (.value bits) = .done before (.value bits,.value bits) := by
      simp [sharePossible,FieldSize.possibleValue,agreed,setPossible_value]
    exact ⟨modified,_,_,isShare modified,wfA,wfB,rfl,rfl,by simp,isShare false⟩
  · have inside := agreedOn_contains wfA wfB
    have wfA' := unsized_wf_or (p := p || p') wfA inside
    have wfB' := unsized_wf_or (p := p || p') wfB inside
    have left : (p || p' || p) = (p || p') := by cases p <;> simp
    have right : (p || p' || p') = (p || p') := by simp
    rw [left] at wfA'
    rw [right] at wfB'
    refine ⟨_,_,_,sharePossible_unsized modified inside,wfA',wfB',rfl,rfl,?_,?_⟩
    · simp only [Bool.or_eq_true,bne_iff_ne,or_assoc]
      exact or_congr_right (or_congr ne_comm ne_comm)
    · obtain ⟨again,again'⟩ := agreedOn_again (rfl : agreedOn range p p' q q' = _)
      rw [sharePossible_unsized false (agreedOn_contains wfA' wfB'),again,again']
      simp

theorem generate_steady (modified : Bool) (wfA : a.WellFormed) (wfB : b.WellFormed) (same : b.bounds = a.bounds) :
    ∃ modified' a' b', Steady generatePossible modified a b modified' a' b' := by
  obtain ⟨bits,rfl,rfl⟩ | ⟨range,p,q,p',q',rfl,rfl⟩ := same_bounds wfA wfB same
  · exact ⟨modified,_,_,rfl,wfA,wfB,rfl,rfl,by simp,rfl⟩
  · have isGenerate (before r' : Bool) (v' : Option NumberNonZeroUnsigned) :
        generatePossible before (.unsized range p q) (.unsized range r' v') =
          .done (before || FieldSize.unsized range r' v' != .unsized range (p || r') (q.or v'))
            (.unsized range p q,.unsized range (p || r') (q.or v')) := by
      simp only [generatePossible,updateAction,withPossible_unsized wfA.2,Option.map_some]
    refine ⟨_,_,_,isGenerate modified p' q',wfA,unsized_wf_or wfB wfA.2,rfl,rfl,?_,?_⟩
    · simp only [Bool.or_eq_true,bne_iff_ne,ne_eq,not_true_eq_false,false_or]
      exact or_congr_right ne_comm
    · rw [isGenerate]
      cases q with
      | none => cases p <;> simp
      | some bits => cases p <;> simp

theorem receivePossible_unsized (modified : Bool) (isForward : forwardPossible (.unsized range p q) (.unsized range p' q') =
      some (forwarded,.unsized range p k,.unsized range p' k')) :
    receivePossible modified (.unsized range p q) (.unsized range p' q') =
      .done (modified || forwarded || FieldSize.unsized range p k != .unsized range (p || p') k)
        (.unsized range (p || p') k,.unsized range p' k') := by
  unfold receivePossible
  rw [isForward]
  cases p' with
  | false => simp [possibleMin]
  | true => simp [possibleMin,FieldSize.setPossibleMin]

theorem forward_neither {one two : FieldSize} (both : one.possibleValue.isSome = two.possibleValue.isSome) :
    forwardPossible one two = some (false,one,two) := by
  unfold forwardPossible
  cases isOne : one.possibleValue with
  | none =>
    cases isTwo : two.possibleValue with
    | none => rfl
    | some bits => simp [isOne,isTwo] at both
  | some bits =>
    cases isTwo : two.possibleValue with
    | none => simp [isOne,isTwo] at both
    | some other => rfl

-- The possible values after one of them was forwarded, and that none is forwarded again.
theorem forward_unsized (wfA : (FieldSize.unsized range p q).WellFormed) (wfB : (FieldSize.unsized range p' q').WellFormed) :
    ∃ forwarded k k', forwardPossible (.unsized range p q) (.unsized range p' q') =
        some (forwarded,.unsized range p k,.unsized range p' k') ∧
      (forwarded = true ↔ k ≠ q ∨ k' ≠ q') ∧ (FieldSize.unsized range (p || p') k).WellFormed ∧
      (FieldSize.unsized range p' k').WellFormed ∧
      forwardPossible (.unsized range (p || p') k) (.unsized range p' k') =
        some (false,.unsized range (p || p') k,.unsized range p' k') ∧ (k = none → q = none) := by
  cases isA : (FieldSize.unsized range p q).possibleValue with
  | some bits =>
    have inside := possible_contains wfA isA
    have stays : (FieldSize.unsized range (p || p') q).possibleValue = some bits := by
      cases q with
      | some own => exact isA
      | none =>
        cases p with
        | false => cases isA
        | true => exact isA
    cases isB : (FieldSize.unsized range p' q').possibleValue with
    | some other =>
      exact ⟨false,q,q',forward_neither (by rw [isA,isB]; rfl),by simp,wfA,wfB,forward_neither (by rw [stays,isB]; rfl),fun none_ => none_⟩
    | none =>
      have isNone : q' = none := by
        cases q' with
        | none => rfl
        | some own => cases isB
      refine ⟨true,q,some bits,?_,by simp [isNone],wfA,⟨wfB.1,fun own same => Option.some.inj same ▸ inside⟩,
        forward_neither (by rw [stays]; rfl),fun none_ => none_⟩
      unfold forwardPossible
      rw [isA,isB]
      simp [updateAction,setPossibleBits,inside,isNone]
  | none =>
    have isNone : q = none := by
      cases q with
      | none => rfl
      | some own => cases isA
    cases isB : (FieldSize.unsized range p' q').possibleValue with
    | some bits =>
      have inside := possible_contains wfB isB
      refine ⟨true,some bits,q',?_,by simp [isNone],⟨wfA.1,fun own same => Option.some.inj same ▸ inside⟩,wfB,
        forward_neither (by rw [isB]; rfl),fun none_ => by cases none_⟩
      unfold forwardPossible
      rw [isA,isB]
      simp [updateAction,setPossibleBits,inside,isNone]
    | none =>
      have stays : (FieldSize.unsized range (p || p') q).possibleValue = none := by
        rw [isNone] at isA ⊢
        cases p with
        | true => exact isA
        | false =>
          cases p' with
          | false => rfl
          | true =>
            cases q' with
            | none => exact isB
            | some own => cases isB
      exact ⟨false,q,q',forward_neither (by rw [isA,isB]),by simp,wfA,wfB,forward_neither (by rw [stays,isB]),fun none_ => none_⟩

theorem receive_steady (modified : Bool) (wfA : a.WellFormed) (wfB : b.WellFormed) (same : b.bounds = a.bounds) :
    ∃ modified' a' b', Steady receivePossible modified a b modified' a' b' ∧
      (a'.isFullyUndefined = true → a.isFullyUndefined = true) := by
  obtain ⟨bits,rfl,rfl⟩ | ⟨range,p,q,p',q',rfl,rfl⟩ := same_bounds wfA wfB same
  · have isReceive (before : Bool) : receivePossible before (.value bits) (.value bits) = .done before (.value bits,.value bits) := by
      simp [receivePossible,forwardPossible,FieldSize.possibleValue,possibleMin]
    exact ⟨modified,_,_,⟨isReceive modified,wfA,wfB,rfl,rfl,by simp,isReceive false⟩,fun isUndefined => isUndefined⟩
  · obtain ⟨forwarded,k,k',isForward,isChange,wfA',wfB',again,keeps⟩ := forward_unsized wfA wfB
    refine ⟨_,_,_,⟨receivePossible_unsized modified isForward,wfA',wfB',rfl,rfl,?_,?_⟩,?_⟩
    · simp only [Bool.or_eq_true,isChange,bne_iff_ne,ne_eq,FieldSize.unsized.injEq,true_and,and_true]
      tauto
    · rw [receivePossible_unsized false again]
      simp
    · intro isUndefined
      cases k with
      | some bits => simp [isFullyUndefined] at isUndefined
      | none =>
        rw [keeps rfl]
        unfold isFullyUndefined at isUndefined ⊢
        split at isUndefined
        · rename_i shape
          cases shape
          rfl
        · cases isUndefined

end Steadiness

-- What propagation is for: of the sizes of two operands those are left that the relation holds for with one of the other
-- operand's.
structure Exact (relation : NumberNonZeroUnsigned → NumberNonZeroUnsigned → Prop)
    (run : FieldSize → FieldSize → Outcome (FieldSize × FieldSize)) (a b : FieldSize) : Prop where
  noPanic : run a b ≠ .panicked
  none : (∃ operands, run a b = .failed operands) ↔ ¬∃ x y, a.Allows x ∧ b.Allows y ∧ relation x y
  first : ∀ modified a' b', run a b = .done modified (a',b') → ∀ x, a'.Allows x ↔ a.Allows x ∧ ∃ y, b.Allows y ∧ relation x y
  second : ∀ modified a' b', run a b = .done modified (a',b') → ∀ y, b'.Allows y ↔ b.Allows y ∧ ∃ x, a.Allows x ∧ relation x y
  changed : ∀ modified a' b', run a b = .done modified (a',b') → (modified = true ↔ a' ≠ a ∨ b' ≠ b)
  preferred : ∀ modified a' b', run a b = .done modified (a',b') →
    (∀ bits, a'.possibleValue = some bits → a'.Allows bits) ∧ ∀ bits, b'.possibleValue = some bits → b'.Allows bits
  settled : ∀ modified a' b', run a b = .done modified (a',b') → run a' b' = .done false (a',b')

section Equality

variable {a b a' b' : FieldSize} {relation : NumberNonZeroUnsigned → NumberNonZeroUnsigned → Prop}
  {run : FieldSize → FieldSize → Outcome (FieldSize × FieldSize)}

theorem exact_failed (isFailed : run a b = .failed operands) (apart : ¬∃ x y, a.Allows x ∧ b.Allows y ∧ relation x y) :
    Exact relation run a b := by
  refine ⟨?_,⟨fun _ => apart,fun _ => ⟨operands,isFailed⟩⟩,?_,?_,?_,?_,?_⟩
  · rw [isFailed]
    exact fun same => by cases same
  all_goals
    intro modified a' b' isDone
    rw [isFailed] at isDone
    cases isDone

theorem exact_done (isDone : run a b = .done modified (a',b')) (shared : ∃ x y, a.Allows x ∧ b.Allows y ∧ relation x y)
    (first : ∀ x, a'.Allows x ↔ a.Allows x ∧ ∃ y, b.Allows y ∧ relation x y)
    (second : ∀ y, b'.Allows y ↔ b.Allows y ∧ ∃ x, a.Allows x ∧ relation x y) (changed : modified = true ↔ a' ≠ a ∨ b' ≠ b)
    (wfA : a'.WellFormed) (wfB : b'.WellFormed) (settled : run a' b' = .done false (a',b')) : Exact relation run a b := by
  refine ⟨?_,⟨?_,fun apart => absurd shared apart⟩,?_,?_,?_,?_,?_⟩
  · rw [isDone]
    exact fun same => by cases same
  · rintro ⟨operands,isFailed⟩
    rw [isDone] at isFailed
    cases isFailed
  all_goals
    intro modified₁ a₁ b₁ isDone₁
    rw [isDone] at isDone₁
    cases isDone₁
  · exact first
  · exact second
  · exact changed
  · exact ⟨fun _ => possible_allows wfA,fun _ => possible_allows wfB⟩
  · exact settled

-- The operands that a run after an intersection leaves.
structure Equalized (onward : Bool → FieldSize → FieldSize → Outcome (FieldSize × FieldSize)) (a b : FieldSize)
    (modified : Bool) (a' b' : FieldSize) : Prop where
  isDone : whenEqual onward a b = .done modified (a',b')
  wfA : a'.WellFormed
  wfB : b'.WellFormed
  allowsA : ∀ x, a'.Allows x ↔ a.Allows x ∧ b.Allows x
  allowsB : ∀ x, b'.Allows x ↔ a.Allows x ∧ b.Allows x
  changed : modified = true ↔ a' ≠ a ∨ b' ≠ b
  settled : whenEqual onward a' b' = .done false (a',b')

theorem changed_twice {s t u : FieldSize} (kept : s.bounds = t.bounds → t = s) (same : u.bounds = t.bounds) :
    t ≠ s ∨ u ≠ t ↔ u ≠ s := by
  by_cases stays : t = s
  · simp [stays]
  · have differs : u ≠ s := by
      rintro rfl
      exact stays (kept same)
    simp [stays,differs]

theorem whenEqual_done {onward : Bool → FieldSize → FieldSize → Outcome (FieldSize × FieldSize)} {finalLen a₁ b₁ : FieldSize}
    (isBoth : intersectBoth a b = some (a != a₁ || b != b₁,a₁,b₁)) (isCommon : Common newUnsized [a,b] finalLen)
    (narrowA : Narrowed finalLen a a₁) (narrowB : Narrowed finalLen b b₁)
    (steady : Steady onward (a != a₁ || b != b₁) a₁ b₁ modified a' b') : Equalized onward a b modified a' b' := by
  have allows : ∀ x, finalLen.Allows x ↔ a.Allows x ∧ b.Allows x := by
    intro x
    rw [isCommon.allows]
    simp [unsized_allows]
  have boundsA := steady.boundsA.trans narrowA.bounds
  have boundsB := steady.boundsB.trans narrowB.bounds
  refine ⟨?_,steady.wfA,steady.wfB,fun x => (allows_bounds boundsA).trans (allows x),
    fun x => (allows_bounds boundsB).trans (allows x),?_,?_⟩
  · unfold whenEqual
    rw [isBoth]
    exact steady.isDone
  · have onlyA := changed_twice (fun same => narrowA.kept (same.trans narrowA.bounds)) steady.boundsA
    have onlyB := changed_twice (fun same => narrowB.kept (same.trans narrowB.bounds)) steady.boundsB
    rw [steady.changed,← onlyA,← onlyB]
    simp only [Bool.or_eq_true,bne_iff_ne,ne_comm (a := a),ne_comm (a := b)]
    tauto
  · unfold whenEqual
    rw [intersectBoth_same steady.wfA steady.wfB (boundsA.trans boundsB.symm)]
    exact steady.settled

theorem equalized_exact {onward : Bool → FieldSize → FieldSize → Outcome (FieldSize × FieldSize)}
    (shared : ∃ x, a.Allows x ∧ b.Allows x) (equalized : Equalized onward a b modified a' b') :
    Exact Eq (whenEqual onward) a b := by
  obtain ⟨x,inA,inB⟩ := shared
  refine exact_done equalized.isDone ⟨x,x,inA,inB,rfl⟩ ?_ ?_ equalized.changed equalized.wfA equalized.wfB equalized.settled
  · intro x
    rw [equalized.allowsA]
    simp
  · intro y
    rw [equalized.allowsB]
    simp [and_comm]

theorem whenEqual_failed {onward : Bool → FieldSize → FieldSize → Outcome (FieldSize × FieldSize)}
    (apart : ¬∃ x, a.Allows x ∧ b.Allows x) : whenEqual onward a b = .failed (a,b) := by
  unfold whenEqual
  rw [intersectBoth_none apart]

theorem whenEqual_exact {onward : Bool → FieldSize → FieldSize → Outcome (FieldSize × FieldSize)}
    (steady : ∀ {a b : FieldSize} (modified : Bool), a.WellFormed → b.WellFormed → b.bounds = a.bounds →
      ∃ modified' a' b', Steady onward modified a b modified' a' b') (wfA : a.WellFormed) (wfB : b.WellFormed) :
    Exact Eq (whenEqual onward) a b := by
  by_cases shared : ∃ x, a.Allows x ∧ b.Allows x
  · obtain ⟨finalLen,a₁,b₁,isBoth,isCommon,narrowA,narrowB⟩ := intersectBoth_some wfA wfB shared
    obtain ⟨modified,a',b',isSteady⟩ := steady (a != a₁ || b != b₁) narrowA.wf narrowB.wf (narrowB.bounds.trans narrowA.bounds.symm)
    exact equalized_exact shared (whenEqual_done isBoth isCommon narrowA narrowB isSteady)
  · refine exact_failed (whenEqual_failed shared) ?_
    simpa using shared

theorem cmp_exact (wfA : a.WellFormed) (wfB : b.WellFormed) : Exact Eq aCmpB a b := by
  refine whenEqual_exact ?_ wfA wfB
  intro a b modified wfA wfB _
  exact ⟨modified,a,b,rfl,wfA,wfB,rfl,rfl,by simp,rfl⟩

theorem equivalent_exact (wfA : a.WellFormed) (wfB : b.WellFormed) : Exact Eq aEquivalentB a b :=
  whenEqual_exact share_steady wfA wfB

theorem generate_exact (wfA : a.WellFormed) (wfB : b.WellFormed) : Exact Eq aGenerateB a b :=
  whenEqual_exact generate_steady wfA wfB

theorem undefined_bounds (isUndefined : a.isFullyUndefined = true) : a.bounds = (none,none) := by
  unfold isFullyUndefined at isUndefined
  split at isUndefined
  · rfl
  · cases isUndefined

theorem receive_same (modified : Bool) (wf : b.WellFormed) : receivePossible modified b b = .done modified (b,b) := by
  unfold receivePossible
  rw [forward_neither rfl]
  cases b with
  | value bits => simp [possibleMin]
  | unsized range p q => cases p <;> simp [possibleMin,FieldSize.setPossibleMin]

theorem receive_exact (wfA : a.WellFormed) (wfB : b.WellFormed) : Exact Eq aReceiveB a b := by
  by_cases isUndefined : a.isFullyUndefined = true
  · have everything : ∀ x, a.Allows x := by
      intro x
      rw [allows_bounds (t := newUnsized) (undefined_bounds isUndefined)]
      exact unsized_allows
    obtain ⟨x,inB⟩ := wf_allows wfB
    have isDone : aReceiveB a b = .done (a != b) (b,b) := by
      unfold aReceiveB
      rw [if_pos isUndefined,receive_same _ wfB]
    refine exact_done isDone ⟨x,x,everything x,inB,rfl⟩ ?_ ?_ ?_ wfB wfB ?_
    · simp [everything]
    · simp [everything]
    · simp [ne_comm (a := a)]
    · unfold aReceiveB
      split
      · simpa using receive_same false wfB
      · unfold whenEqual
        rw [intersectBoth_same wfB wfB rfl]
        exact receive_same false wfB
  · have isEqual (other : FieldSize) : aReceiveB a other = whenEqual receivePossible a other := by
      unfold aReceiveB
      rw [if_neg isUndefined]
    by_cases shared : ∃ x, a.Allows x ∧ b.Allows x
    · obtain ⟨finalLen,a₁,b₁,isBoth,isCommon,narrowA,narrowB⟩ := intersectBoth_some wfA wfB shared
      obtain ⟨modified,a',b',isSteady,stays⟩ := receive_steady (a != a₁ || b != b₁) narrowA.wf narrowB.wf
        (narrowB.bounds.trans narrowA.bounds.symm)
      have equalized := whenEqual_done isBoth isCommon narrowA narrowB isSteady
      have defined : a'.isFullyUndefined ≠ true := by
        intro undefined_
        have isFirst := stays undefined_
        have unbounded := narrowA.bounds.symm.trans (undefined_bounds isFirst)
        have isOld : a.bounds = finalLen.bounds := by
          have within := isCommon.within a (by simp)
          obtain ⟨isMin,isMax⟩ := Prod.ext_iff.mp unbounded
          unfold Within at within
          rw [show finalLen.minBits = none from isMin,show finalLen.maxBits = none from isMax] at within
          rw [unbounded]
          exact Prod.ext (Option.merge_eq_none_iff.mp within.1).1 (Option.merge_eq_none_iff.mp within.2).1
        rw [narrowA.kept isOld] at isFirst
        exact isUndefined isFirst
      have exact_ := equalized_exact shared equalized
      refine ⟨?_,?_,?_,?_,?_,?_,?_⟩
      · rw [isEqual]
        exact exact_.noPanic
      · rw [isEqual]
        exact exact_.none
      · rw [isEqual]
        exact exact_.first
      · rw [isEqual]
        exact exact_.second
      · rw [isEqual]
        exact exact_.changed
      · rw [isEqual]
        exact exact_.preferred
      · intro modified₁ a₂ b₂ isDone
        rw [isEqual,equalized.isDone] at isDone
        cases isDone
        unfold aReceiveB
        rw [if_neg defined]
        exact equalized.settled
    · refine exact_failed ((isEqual b).trans (whenEqual_failed shared)) ?_
      simpa using shared

end Equality

section Extension

variable {a b : FieldSize}

namespace FieldSize

def lowest (size : FieldSize) : NumberNonZeroUnsigned := size.minBits.getD One.one

end FieldSize

theorem lowest_le : a.lowest ≤ bits ↔ ∀ min, a.minBits = some min → min ≤ bits := by
  unfold lowest
  cases a.minBits with
  | none =>
    constructor
    · intro _ min isMin
      cases isMin
    · exact fun _ => one_le
  | some min => simp

theorem lowest_allows (wf : a.WellFormed) : a.Allows a.lowest := by
  obtain ⟨bits,least,most⟩ := wf_allows wf
  exact ⟨lowest_le.mp le_rfl,fun max isMax => (lowest_le.mpr least).trans (most max isMax)⟩

theorem exists_above (wf : b.WellFormed) : (∃ y, b.Allows y ∧ bits ≤ y) ↔ ∀ max, b.maxBits = some max → bits ≤ max := by
  constructor
  · rintro ⟨y,isAllowed,above⟩ max isMax
    exact above.trans (isAllowed.2 max isMax)
  · intro below
    cases isMax : b.maxBits with
    | none => exact ⟨Max.max bits b.lowest,⟨fun min isMin => (lowest_le.mp le_rfl min isMin).trans (le_max_right _ _),by simp [isMax]⟩,le_max_left _ _⟩
    | some max =>
      refine ⟨max,⟨fun min isMin => ?_,fun upper isUpper => ?_⟩,below max isMax⟩
      · exact (lowest_le.mp le_rfl min isMin).trans ((lowest_allows wf).2 max isMax)
      · rw [isMax] at isUpper
        exact (Option.some.inj isUpper).le

theorem exists_below (wf : a.WellFormed) : (∃ x, a.Allows x ∧ x ≤ bits) ↔ a.lowest ≤ bits := by
  constructor
  · rintro ⟨x,isAllowed,below⟩
    exact (lowest_le.mpr isAllowed.1).trans below
  · exact fun below => ⟨a.lowest,lowest_allows wf,below⟩

theorem restrict_own (wf : b.WellFormed) : restrict setMinBits b.minBits b = some b := by
  cases isMin : b.minBits with
  | none => rfl
  | some min => exact setMinBits_same wf isMin le_rfl

theorem restrict_max (wf : a.WellFormed) (isSome : restrict setMaxBits bound a = some a') :
    a'.WellFormed ∧ a'.bounds = (a.minBits,a.maxBits.merge Min.min bound) := by
  cases bound with
  | none =>
    obtain rfl := Option.some.inj isSome
    exact ⟨wf,by simp [bounds]⟩
  | some max => exact setMaxBits_some wf isSome

theorem restrict_again (wf : a.WellFormed) (isMax : a.maxBits.merge Min.min bound = a.maxBits) :
    restrict setMaxBits bound a = some a := by
  cases bound with
  | none => rfl
  | some max =>
    cases isOld : a.maxBits with
    | none => simp [isOld] at isMax
    | some old => exact setMaxBits_same wf isOld (by simpa [isOld] using isMax)

theorem extend_done (wfB : b.WellFormed) (isSome : restrict setMaxBits b.maxBits a = some a') :
    aExtendB a b = .done (a != a') (a',b) := by
  simp [aExtendB,updateAction,isSome,restrict_own wfB]

-- The larger operand keeps its sizes that are too small.
theorem extend_exact (wfA : a.WellFormed) (wfB : b.WellFormed) :
    Exact (· ≤ ·) aExtendB a b ↔ a.lowest ≤ b.lowest ∨ ∃ max, b.maxBits = some max ∧ max < a.lowest := by
  cases isSome : restrict setMaxBits b.maxBits a with
  | none =>
    have isFailed : aExtendB a b = .failed (a,b) := by
      simp [aExtendB,updateAction,isSome]
    cases isMax : b.maxBits with
    | none =>
      rw [isMax] at isSome
      cases isSome
    | some max =>
      rw [isMax] at isSome
      obtain ⟨min,isMin,less⟩ := setMaxBits_none.mp isSome
      have isLowest : a.lowest = min := by simp [lowest,isMin]
      refine ⟨fun _ => .inr ⟨max,rfl,isLowest ▸ less⟩,fun _ => exact_failed isFailed ?_⟩
      rintro ⟨x,y,inA,inB,below⟩
      exact absurd (((inA.1 min isMin).trans below).trans (inB.2 max isMax)) (not_le.mpr less)
  | some a' =>
    obtain ⟨wfA',isBounds⟩ := restrict_max wfA isSome
    have isDone := extend_done wfB isSome
    have first : ∀ x, a'.Allows x ↔ a.Allows x ∧ ∃ y, b.Allows y ∧ x ≤ y := by
      intro x
      obtain ⟨isMin,isMax⟩ := Prod.ext_iff.mp isBounds
      rw [exists_above wfB]
      unfold Allows
      rw [show a'.minBits = _ from isMin,show a'.maxBits = _ from isMax,le_merge_min]
      tauto
    have fits : ¬∃ max, b.maxBits = some max ∧ max < a.lowest := by
      rintro ⟨max,isMax,less⟩
      obtain ⟨x,inA⟩ := wf_allows wfA'
      obtain ⟨inOld,y,inB,below⟩ := (first x).mp inA
      exact absurd (((lowest_le.mpr inOld.1).trans below).trans (inB.2 max isMax)) (not_le.mpr less)
    rw [or_iff_left fits]
    constructor
    · intro exact_
      have inB := (exact_.second _ _ _ isDone b.lowest).mp (lowest_allows wfB)
      exact (exists_below wfA).mp inB.2
    · intro ordered
      refine exact_done isDone ⟨a.lowest,b.lowest,lowest_allows wfA,lowest_allows wfB,ordered⟩ first ?_ ?_ wfA' wfB ?_
      · intro y
        rw [exists_below wfA]
        exact ⟨fun inB => ⟨inB,ordered.trans (lowest_le.mpr inB.1)⟩,fun both => both.1⟩
      · simp [ne_comm (a := a)]
      · have tight : a'.maxBits.merge Min.min b.maxBits = a'.maxBits := by
          rw [show a'.maxBits = _ from (Prod.ext_iff.mp isBounds).2,(Option.associative_merge Min.min).assoc,
            (Option.idempotentOp_merge Min.min).idempotent]
        simpa using extend_done wfB (restrict_again wfA' tight)

end Extension

section Combination

variable {a b c : FieldSize}

-- The three sizes are of the same range, and the output may have its minimum because both inputs may.
def Unreported (a b c : FieldSize) : Prop :=
  ∃ range q q', a = .unsized range true q ∧ b = .unsized range true q' ∧ c = .unsized range false none

structure ExactThree (a b c : FieldSize) : Prop where
  noPanic : aBGenerateC a b c ≠ .panicked
  none : (∃ x, a.Allows x ∧ b.Allows x ∧ c.Allows x) → ∀ operands, aBGenerateC a b c ≠ .failed operands
  narrowed : (∃ x, a.Allows x ∧ b.Allows x ∧ c.Allows x) →
    ∀ modified a' b' c', aBGenerateC a b c = .done modified (a',b',c') → ∀ x,
      (a'.Allows x ↔ a.Allows x ∧ b.Allows x ∧ c.Allows x) ∧ (b'.Allows x ↔ a.Allows x ∧ b.Allows x ∧ c.Allows x) ∧
        (c'.Allows x ↔ a.Allows x ∧ b.Allows x ∧ c.Allows x)
  changed : ∀ modified a' b' c', aBGenerateC a b c = .done modified (a',b',c') →
    (modified = true ↔ a' ≠ a ∨ b' ≠ b ∨ c' ≠ c)
  preferred : ∀ modified a' b' c', aBGenerateC a b c = .done modified (a',b',c') →
    (∀ bits, a'.possibleValue = some bits → a'.Allows bits) ∧ (∀ bits, b'.possibleValue = some bits → b'.Allows bits) ∧
      ∀ bits, c'.possibleValue = some bits → c'.Allows bits
  settled : ∀ modified a' b' c', aBGenerateC a b c = .done modified (a',b',c') → aBGenerateC a' b' c' = .done false (a',b',c')

-- The possible values of three sizes that are the same otherwise.
structure Combined (modified : Bool) (a b c : FieldSize) (modified' : Bool) (a' b' c' : FieldSize) : Prop where
  isDone : combinePossible modified a b c = .done modified' (a',b',c')
  wfA : a'.WellFormed
  wfB : b'.WellFormed
  wfC : c'.WellFormed
  boundsA : a'.bounds = a.bounds
  boundsB : b'.bounds = b.bounds
  boundsC : c'.bounds = c.bounds
  changed : modified' = true ↔ modified = true ∨ a' ≠ a ∨ b' ≠ b
  unreported : c' ≠ c ↔ Unreported a b c
  steady : Unreported a b c → a' = a ∧ b' = b
  settled : combinePossible false a' b' c' = .done false (a',b',c')

theorem combine_unsized {range : FieldRange} (modified : Bool) (some_ : (r || v.isSome) = true)
    (inside : ∀ bits, v = some bits → range.contains bits = true) :
    combinePossible modified (.unsized range p q) (.unsized range p' q') (.unsized range r v) =
      .done (modified || FieldSize.unsized range p q != .unsized range (r || p) (v.or q) ||
          FieldSize.unsized range p' q' != .unsized range (r || p') (v.or q'))
        (.unsized range (r || p) (v.or q),.unsized range (r || p') (v.or q'),.unsized range r v) := by
  simp only [combinePossible,some_,if_true,setPossible_unsized inside]

theorem combined (modified : Bool) (wfA : a.WellFormed) (wfB : b.WellFormed) (wfC : c.WellFormed)
    (sameB : b.bounds = a.bounds) (sameC : c.bounds = a.bounds) :
    ∃ modified' a' b' c', Combined modified a b c modified' a' b' c' := by
  obtain ⟨bits,rfl,rfl⟩ | ⟨range,p,q,p',q',rfl,rfl⟩ := same_bounds wfA wfB sameB
  · obtain ⟨own,isOwn,rfl⟩ | ⟨range,r,v,r',v',isA,_⟩ := same_bounds wfA wfC sameC
    · have isFalse : ¬Unreported (.value bits) (.value bits) (.value own) := by
        rintro ⟨range,q,q',isA,_⟩
        cases isA
      exact ⟨modified,_,_,_,rfl,wfA,wfB,wfC,rfl,rfl,rfl,by simp,by simp [isFalse],fun isTrue => absurd isTrue isFalse,rfl⟩
    · cases isA
  · obtain ⟨bits,isA,_⟩ | ⟨range',_,_,r,v,isA,rfl⟩ := same_bounds wfA wfC sameC
    · cases isA
    · cases isA
      by_cases some_ : (r || v.isSome) = true
      · have isFalse : ¬Unreported (.unsized range p q) (.unsized range p' q') (.unsized range r v) := by
          rintro ⟨_,_,_,_,_,isC⟩
          cases isC
          cases some_
        refine ⟨_,_,_,_,combine_unsized modified some_ wfC.2,unsized_wf_or wfA wfC.2,unsized_wf_or wfB wfC.2,wfC,rfl,rfl,rfl,?_,
          by simp [isFalse],fun isTrue => absurd isTrue isFalse,?_⟩
        · simp only [Bool.or_eq_true,bne_iff_ne,or_assoc]
          exact or_congr_right (or_congr ne_comm ne_comm)
        · rw [combine_unsized false some_ wfC.2]
          cases v with
          | none => cases r <;> simp
          | some bits => cases r <;> simp
      · obtain ⟨rfl,isNone⟩ : r = false ∧ v.isSome = false := by simpa using some_
        obtain rfl : v = none := by simpa using isNone
        by_cases both : (p && p') = true
        · obtain ⟨rfl,rfl⟩ : p = true ∧ p' = true := by simpa using both
          have isTrue : Unreported (.unsized range true q) (.unsized range true q') (.unsized range false none) :=
            ⟨range,q,q',rfl,rfl,rfl⟩
          refine ⟨modified,_,_,.unsized range true none,rfl,wfA,wfB,wfC,rfl,rfl,rfl,by simp,by simp [isTrue],fun _ => ⟨rfl,rfl⟩,?_⟩
          rw [combine_unsized false rfl (by simp)]
          simp
        · have isFalse : ¬Unreported (.unsized range p q) (.unsized range p' q') (.unsized range false none) := by
            rintro ⟨_,_,_,isA,isB,_⟩
            cases isA
            cases isB
            exact both rfl
          have isDone (before : Bool) : combinePossible before (.unsized range p q) (.unsized range p' q') (.unsized range false none) =
              .done before (.unsized range p q,.unsized range p' q',.unsized range false none) := by
            simp [combinePossible,possibleMin,both]
          exact ⟨modified,_,_,_,isDone modified,wfA,wfB,wfC,rfl,rfl,rfl,by simp,by simp [isFalse],fun isTrue => absurd isTrue isFalse,
            isDone false⟩

-- Three sizes that have a value in common, of which two may have been forced.
structure Joined (changed : Bool) (a b c : FieldSize) (modified : Bool) (a' b' c' : FieldSize) : Prop where
  wfA : a'.WellFormed
  wfB : b'.WellFormed
  wfC : c'.WellFormed
  allowsA : ∀ x, a'.Allows x ↔ a.Allows x ∧ b.Allows x ∧ c.Allows x
  allowsB : ∀ x, b'.Allows x ↔ a.Allows x ∧ b.Allows x ∧ c.Allows x
  allowsC : ∀ x, c'.Allows x ↔ a.Allows x ∧ b.Allows x ∧ c.Allows x
  forced : changed = true → modified = true
  changed : changed = false → ((modified = true ↔ a' ≠ a ∨ b' ≠ b ∨ c' ≠ c) ↔ ¬Unreported a b c)
  settled : aBGenerateC a' b' c' = .done false (a',b',c')

theorem unreported_same (wfA : a.WellFormed) (wfB : b.WellFormed) (wfC : c.WellFormed) (isTrue : Unreported a b c) :
    intersectThree a b c = some (false,a,b,c) := by
  obtain ⟨range,q,q',rfl,rfl,rfl⟩ := isTrue
  exact intersectThree_same wfA wfB wfC rfl rfl

theorem generate_joined (changed : Bool) (wfA : a.WellFormed) (wfB : b.WellFormed) (wfC : c.WellFormed)
    (shared : ∃ x, a.Allows x ∧ b.Allows x ∧ c.Allows x) :
    ∃ between a₁ b₁ c₁ modified a' b' c', intersectThree a b c = some (between,a₁,b₁,c₁) ∧
      combinePossible (changed || between) a₁ b₁ c₁ = .done modified (a',b',c') ∧ Joined changed a b c modified a' b' c' := by
  obtain ⟨finalLen,a₁,b₁,c₁,isThree,isCommon,narrowA,narrowB,narrowC⟩ := intersectThree_some wfA wfB wfC shared
  obtain ⟨modified,a',b',c',isCombined⟩ := combined (changed || (a != a₁ || b != b₁ || c != c₁)) narrowA.wf narrowB.wf narrowC.wf
    (narrowB.bounds.trans narrowA.bounds.symm) (narrowC.bounds.trans narrowA.bounds.symm)
  have allows : ∀ x, finalLen.Allows x ↔ a.Allows x ∧ b.Allows x ∧ c.Allows x := by
    intro x
    rw [isCommon.allows]
    simp [unsized_allows]
  have boundsA := isCombined.boundsA.trans narrowA.bounds
  have boundsB := isCombined.boundsB.trans narrowB.bounds
  have boundsC := isCombined.boundsC.trans narrowC.bounds
  refine ⟨_,a₁,b₁,c₁,modified,a',b',c',isThree,isCombined.isDone,isCombined.wfA,isCombined.wfB,isCombined.wfC,
    fun x => (allows_bounds boundsA).trans (allows x),fun x => (allows_bounds boundsB).trans (allows x),
    fun x => (allows_bounds boundsC).trans (allows x),?_,?_,?_⟩
  · intro isChanged
    rw [isCombined.changed,isChanged]
    exact .inl rfl
  · intro isChanged
    have onlyA := changed_twice (fun same => narrowA.kept (same.trans narrowA.bounds)) isCombined.boundsA
    have onlyB := changed_twice (fun same => narrowB.kept (same.trans narrowB.bounds)) isCombined.boundsB
    have onlyC := changed_twice (fun same => narrowC.kept (same.trans narrowC.bounds)) isCombined.boundsC
    have unreported := isCombined.unreported
    have steady := isCombined.steady
    rw [isCombined.changed,← onlyA,← onlyB,← onlyC,isChanged]
    simp only [Bool.false_or,Bool.or_eq_true,bne_iff_ne,ne_comm (a := a),ne_comm (a := b),ne_comm (a := c)]
    by_cases moved : a₁ ≠ a ∨ b₁ ≠ b ∨ c₁ ≠ c
    · have isFalse : ¬Unreported a b c := by
        intro isTrue
        have stays := unreported_same wfA wfB wfC isTrue
        rw [isThree] at stays
        simp only [Option.some.injEq,Prod.mk.injEq] at stays
        obtain ⟨_,sameA,sameB,sameC⟩ := stays
        rcases moved with movedA | movedB | movedC
        · exact movedA sameA
        · exact movedB sameB
        · exact movedC sameC
      refine iff_of_true (iff_of_true (.inl (by simpa only [or_assoc] using moved)) ?_) isFalse
      rcases moved with movedA | movedB | movedC
      · exact .inl (.inl movedA)
      · exact .inr (.inl (.inl movedB))
      · exact .inr (.inr (.inl movedC))
    · obtain ⟨sameA,sameB,sameC⟩ : a₁ = a ∧ b₁ = b ∧ c₁ = c := by simpa using moved
      rw [sameA,sameB,sameC] at unreported steady ⊢
      by_cases isTrue : Unreported a b c
      · obtain ⟨stayA,stayB⟩ := steady isTrue
        simp [isTrue,stayA,stayB,unreported.mpr isTrue]
      · have stayC : c' = c := by simpa using mt unreported.mp isTrue
        simp [isTrue,stayC]
  · unfold aBGenerateC
    rw [intersectThree_same isCombined.wfA isCombined.wfB isCombined.wfC (boundsB.trans boundsA.symm) (boundsC.trans boundsA.symm)]
    exact isCombined.settled

theorem forced_some {resolved operand : FieldSize} (isForced : forced resolved operand = some size) :
    ∃ bits, resolved = .value bits ∧ size = .value bits ∧ ¬operand.Allows bits := by
  cases resolved with
  | unsized range p q => cases isForced
  | value bits =>
    unfold forced at isForced
    dsimp only at isForced
    split at isForced
    · rename_i larger
      obtain ⟨min,isMin,less⟩ := (Option.any_eq_true _ _).mp larger
      refine ⟨bits,rfl,(Option.some.inj isForced).symm,fun isAllowed => ?_⟩
      exact absurd (isAllowed.1 min isMin) (not_le.mpr (of_decide_eq_true less))
    · cases isForced

theorem value_allows (isAllowed : (FieldSize.value bits).Allows x) : x = bits :=
  le_antisymm (isAllowed.2 bits rfl) (isAllowed.1 bits rfl)

theorem forcedOne_wf (wf : b.WellFormed) : ((forced a b).getD b).WellFormed := by
  cases isForced : forced a b with
  | none => exact wf
  | some size =>
    obtain ⟨bits,_,rfl,_⟩ := forced_some isForced
    trivial

theorem forced_changes {resolved operand size : FieldSize} (isForced : forced resolved operand = some size)
    (allowed : ((forced resolved operand).getD operand).Allows x) (left : next.Allows x) : next ≠ operand := by
  obtain ⟨bits,_,rfl,outside⟩ := forced_some isForced
  rw [isForced] at allowed
  rintro rfl
  exact outside (value_allows allowed ▸ left)

theorem exactThree_done {modified : Bool} {a' b' c' : FieldSize} (isDone : aBGenerateC a b c = .done modified (a',b',c'))
    (wfA : a'.WellFormed) (wfB : b'.WellFormed) (wfC : c'.WellFormed)
    (narrowed : (∃ x, a.Allows x ∧ b.Allows x ∧ c.Allows x) → ∀ x,
      (a'.Allows x ↔ a.Allows x ∧ b.Allows x ∧ c.Allows x) ∧ (b'.Allows x ↔ a.Allows x ∧ b.Allows x ∧ c.Allows x) ∧
        (c'.Allows x ↔ a.Allows x ∧ b.Allows x ∧ c.Allows x))
    (changed : modified = true ↔ a' ≠ a ∨ b' ≠ b ∨ c' ≠ c) (settled : aBGenerateC a' b' c' = .done false (a',b',c')) :
    ExactThree a b c := by
  refine ⟨?_,?_,?_,?_,?_,?_⟩
  · rw [isDone]
    exact fun same => by cases same
  · intro _ operands isFailed
    rw [isDone] at isFailed
    cases isFailed
  · intro shared modified₁ a₁ b₁ c₁ isDone₁
    rw [isDone] at isDone₁
    cases isDone₁
    exact narrowed shared
  all_goals
    intro modified₁ a₁ b₁ c₁ isDone₁
    rw [isDone] at isDone₁
    cases isDone₁
  · exact changed
  · exact ⟨fun _ => possible_allows wfA,fun _ => possible_allows wfB,fun _ => possible_allows wfC⟩
  · exact settled

theorem exactThree_shared (wfA : a.WellFormed) (wfB : b.WellFormed) (wfC : c.WellFormed)
    (shared : ∃ x, a.Allows x ∧ b.Allows x ∧ c.Allows x) : ExactThree a b c ↔ ¬Unreported a b c := by
  obtain ⟨between,a₁,b₁,c₁,modified,a',b',c',isThree,isCombined,joined⟩ := generate_joined false wfA wfB wfC shared
  have isDone : aBGenerateC a b c = .done modified (a',b',c') := by
    unfold aBGenerateC
    rw [isThree]
    exact isCombined
  rw [← joined.changed rfl]
  refine ⟨fun exact_ => exact_.changed modified a' b' c' isDone,fun changed => ?_⟩
  exact exactThree_done isDone joined.wfA joined.wfB joined.wfC (fun _ x => ⟨joined.allowsA x,joined.allowsB x,joined.allowsC x⟩)
    changed joined.settled

-- Without a common size the operands are only as told by what was forced.
theorem exactThree_apart (wfA : a.WellFormed) (wfB : b.WellFormed) (wfC : c.WellFormed)
    (apart : ¬∃ x, a.Allows x ∧ b.Allows x ∧ c.Allows x) : ExactThree a b c := by
  have isNone := intersectThree_none apart
  by_cases shared : ∃ x, ((forced b a).getD a).Allows x ∧ ((forced a b).getD b).Allows x ∧ c.Allows x
  · obtain ⟨between,a₁,b₁,c₁,modified,a',b',c',isThree,isCombined,joined⟩ := generate_joined
      ((forced b a).isSome || (forced a b).isSome) (forcedOne_wf wfA) (forcedOne_wf wfB) wfC shared
    have isDone : aBGenerateC a b c = .done modified (a',b',c') := by
      unfold aBGenerateC
      rw [isNone]
      dsimp only
      rw [isThree]
      exact isCombined
    obtain ⟨x,inA,inB,inC⟩ := shared
    have isForced : ((forced b a).isSome || (forced a b).isSome) = true := by
      by_contra neither
      obtain ⟨noA,noB⟩ : forced b a = none ∧ forced a b = none := by simpa using neither
      rw [noA] at inA
      rw [noB] at inB
      exact apart ⟨x,inA,inB,inC⟩
    have differs : a' ≠ a ∨ b' ≠ b ∨ c' ≠ c := by
      rcases (Bool.or_eq_true _ _).mp isForced with isA | isB
      · obtain ⟨size,isSize⟩ := Option.isSome_iff_exists.mp isA
        exact .inl (forced_changes isSize inA ((joined.allowsA x).mpr ⟨inA,inB,inC⟩))
      · obtain ⟨size,isSize⟩ := Option.isSome_iff_exists.mp isB
        exact .inr (.inl (forced_changes isSize inB ((joined.allowsB x).mpr ⟨inA,inB,inC⟩)))
    exact exactThree_done isDone joined.wfA joined.wfB joined.wfC (fun shared => absurd shared apart)
      (iff_of_true (joined.forced isForced) differs) joined.settled
  · have isFailed : aBGenerateC a b c = .failed ((forced b a).getD a,(forced a b).getD b,c) := by
      unfold aBGenerateC
      rw [isNone]
      dsimp only
      rw [intersectThree_none shared]
    refine ⟨?_,fun shared => absurd shared apart,fun shared => absurd shared apart,?_,?_,?_⟩
    · rw [isFailed]
      exact fun same => by cases same
    all_goals
      intro modified a' b' c' isDone
      rw [isFailed] at isDone
      cases isDone

theorem exactThree_iff (wfA : a.WellFormed) (wfB : b.WellFormed) (wfC : c.WellFormed) :
    ExactThree a b c ↔ ¬Unreported a b c := by
  by_cases shared : ∃ x, a.Allows x ∧ b.Allows x ∧ c.Allows x
  · exact exactThree_shared wfA wfB wfC shared
  · refine iff_of_true (exactThree_apart wfA wfB wfC shared) ?_
    rintro ⟨range,q,q',rfl,rfl,rfl⟩
    obtain ⟨x,isAllowed⟩ := wf_allows wfC
    exact shared ⟨x,isAllowed,isAllowed,isAllowed⟩

end Combination

-- The operators on two operands, and what holds of their sizes.
inductive Propagation where
  | cmp
  | equivalent
  | receive
  | generate
  | extend
  deriving DecidableEq

def Propagation.run : Propagation → FieldSize → FieldSize → Outcome (FieldSize × FieldSize)
  | .cmp => aCmpB
  | .equivalent => aEquivalentB
  | .receive => aReceiveB
  | .generate => aGenerateB
  | .extend => aExtendB

def Propagation.relation : Propagation → NumberNonZeroUnsigned → NumberNonZeroUnsigned → Prop
  | .extend => (· ≤ ·)
  | _ => Eq

-- An extension is exact where it has nothing to raise, and a generated size where its own update is not all that changes.
theorem propagation_exact (reachableA : Reachable a) (reachableB : Reachable b) (reachableC : Reachable c) :
    (∀ op : Propagation, Exact op.relation op.run a b ↔
      (op = .extend → a.lowest ≤ b.lowest ∨ ∃ max, b.maxBits = some max ∧ max < a.lowest)) ∧
    (ExactThree a b c ↔ ¬Unreported a b c) := by
  have wfA := reachable_wf reachableA
  have wfB := reachable_wf reachableB
  refine ⟨fun op => ?_,exactThree_iff wfA wfB (reachable_wf reachableC)⟩
  cases op with
  | cmp => exact iff_of_true (cmp_exact wfA wfB) fun same => by cases same
  | equivalent => exact iff_of_true (equivalent_exact wfA wfB) fun same => by cases same
  | receive => exact iff_of_true (receive_exact wfA wfB) fun same => by cases same
  | generate => exact iff_of_true (generate_exact wfA wfB) fun same => by cases same
  | extend => exact (extend_exact wfA wfB).trans ⟨fun fits _ => fits,fun fits => fits rfl⟩

theorem propagation_exact_bits : (∀ op : Propagation, Exact op.relation op.run (.newBits 8) (.newBits 16) ↔
      (op = .extend → (newBits 8).lowest ≤ (newBits 16).lowest ∨
        ∃ max, (newBits 16).maxBits = some max ∧ max < (newBits 8).lowest)) ∧
    (ExactThree (.newBits 8) (.newBits 16) (.newBits 8) ↔ ¬Unreported (.newBits 8) (.newBits 16) (.newBits 8)) :=
  propagation_exact (.newBits 8) (.newBits 16) (.newBits 8)

-- A size of at least 16 bits is extended into one of at least 8 bits.
theorem extension_wider : ∃ a b, Reachable a ∧ Reachable b ∧ aExtendB a b = .done false (a,b) ∧ b.Allows 8 ∧
    (¬∃ x, a.Allows x ∧ x ≤ 8) ∧ ¬Exact (· ≤ ·) aExtendB a b := by
  have reachableA : Reachable (.unsized ⟨some 16,none⟩ false none) :=
    .setMinBits .newUnsized (rfl : newUnsized.setMinBits 16 = _)
  have reachableB : Reachable (.unsized ⟨some 8,none⟩ false none) :=
    .setMinBits .newUnsized (rfl : newUnsized.setMinBits 8 = _)
  refine ⟨_,_,reachableA,reachableB,rfl,by simp [Allows,minBits,maxBits],?_,?_⟩
  · rintro ⟨x,isAllowed,small⟩
    exact absurd ((isAllowed.1 16 rfl).trans small) (by decide)
  · rw [extend_exact (reachable_wf reachableA) (reachable_wf reachableB)]
    rintro (ordered | ⟨max,isMax,_⟩)
    · exact absurd (show (16 : NumberNonZeroUnsigned) ≤ 8 from ordered) (by decide)
    · cases isMax

end Rsleigh.Semantic.Len
