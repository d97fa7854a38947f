import Mathlib

namespace Rsleigh.Semantic.Len

-- execution/len.rs. `NonZeroU64`.
abbrev NumberNonZeroUnsigned : Type := ℕ+

structure FieldRange where
  min : Option NumberNonZeroUnsigned
  max : Option NumberNonZeroUnsigned
  deriving DecidableEq

namespace FieldRange

def newUnsize : FieldRange := ⟨none, none⟩

def setMin (range : FieldRange) (newMin : NumberNonZeroUnsigned) : Option FieldRange :=
  if range.max.any fun max => max < newMin then none
  else some { range with min := some (match range.min with | some oldMin => Max.max oldMin newMin | none => newMin) }

def setMax (range : FieldRange) (newMax : NumberNonZeroUnsigned) : Option FieldRange :=
  if range.min.any fun min => newMax < min then none
  else some { range with max := some (match range.max with | some oldMax => Min.min oldMax newMax | none => newMax) }

def singleValue (range : FieldRange) : Option NumberNonZeroUnsigned :=
  match range.min, range.max with
  | some min, some max => if min = max then some min else none
  | _, _ => none

def contains (range : FieldRange) (value : NumberNonZeroUnsigned) : Bool :=
  range.min.all (fun min => min ≤ value) && range.max.all fun max => value ≤ max

end FieldRange

inductive FieldSize where
  | unsized (range : FieldRange) (possibleMin : Bool) (possibleValue : Option NumberNonZeroUnsigned)
  | value (bits : NumberNonZeroUnsigned)
  deriving DecidableEq

namespace FieldSize

def newUnsized : FieldSize := .unsized .newUnsize false none

def newBits (bits : NumberNonZeroUnsigned) : FieldSize := .value bits

def newBytes (bytes : NumberNonZeroUnsigned) : FieldSize := .value (bytes * 8)

def minBits : FieldSize → Option NumberNonZeroUnsigned
  | .value bits => some bits
  | .unsized range _ _ => range.min

def maxBits : FieldSize → Option NumberNonZeroUnsigned
  | .value bits => some bits
  | .unsized range _ _ => range.max

-- What a range with new bounds is, unless it has a single value.
def ofRange (range : FieldRange) (possibleMin : Bool) (possibleValue : Option NumberNonZeroUnsigned) : FieldSize :=
  match range.singleValue with
  | some bits => .value bits
  | none => .unsized range possibleMin (possibleValue.filter range.contains)

def setFinalValue (size : FieldSize) (finalValue : NumberNonZeroUnsigned) : Option FieldSize :=
  match size with
  | .value bits => if bits = finalValue then some size else none
  | .unsized range _ _ => if range.contains finalValue then some (.value finalValue) else none

def setMinBits (size : FieldSize) (min : NumberNonZeroUnsigned) : Option FieldSize :=
  match size with
  | .value bits => if min ≤ bits then some size else none
  | .unsized range possibleMin possibleValue => (range.setMin min).map fun range => ofRange range possibleMin possibleValue

def setMinBytes (size : FieldSize) (min : NumberNonZeroUnsigned) : Option FieldSize := size.setMinBits (min * 8)

def setMaxBits (size : FieldSize) (max : NumberNonZeroUnsigned) : Option FieldSize :=
  match size with
  | .value bits => if bits ≤ max then some size else none
  | .unsized range possibleMin possibleValue => (range.setMax max).map fun range => ofRange range possibleMin possibleValue

def setMaxBytes (size : FieldSize) (max : NumberNonZeroUnsigned) : Option FieldSize := size.setMaxBits (max * 8)

def possibleValue : FieldSize → Option NumberNonZeroUnsigned
  | .value bits => some bits
  | .unsized _ _ (some bits) => some bits
  | .unsized range true none => range.min
  | .unsized _ false none => none

def possibleMin : FieldSize → Bool
  | .value _ => false
  | .unsized _ possibleMin _ => possibleMin

def setPossibleMin : FieldSize → FieldSize
  | .value bits => .value bits
  | .unsized range _ possibleValue => .unsized range true possibleValue

def setPossibleBits (size : FieldSize) (bits : NumberNonZeroUnsigned) : Option FieldSize :=
  match size with
  | .unsized range possibleMin _ => if range.contains bits then some (.unsized range possibleMin (some bits)) else none
  | .value own => if own = bits then some size else none

def setPossibleBytes (size : FieldSize) (bytes : NumberNonZeroUnsigned) : Option FieldSize := size.setPossibleBits (bytes * 8)

-- The smallest size is one bit.
def newBool : Option FieldSize := (newUnsized.setMinBits 1).map setPossibleMin

def isPossible (size : FieldSize) : Bool := size.possibleValue.isSome

def isFullyUndefined : FieldSize → Bool
  | .unsized ⟨none, none⟩ _ none => true
  | _ => false

def restrict (set : FieldSize → NumberNonZeroUnsigned → Option FieldSize) (bound : Option NumberNonZeroUnsigned)
    (size : FieldSize) : Option FieldSize :=
  match bound with
  | some bits => set size bits
  | none => some size

def intersection (size other : FieldSize) : Option FieldSize :=
  (restrict setMinBits other.minBits size).bind (restrict setMaxBits other.maxBits)

-- The new size, and if it differs.
def updateAction (size : FieldSize) (action : FieldSize → Option FieldSize) : Option (Bool × FieldSize) :=
  (action size).map fun newSize => (size != newSize, newSize)

-- What the constructors and setters build.
inductive Reachable : FieldSize → Prop where
  | newUnsized : Reachable newUnsized
  | newBits (bits : NumberNonZeroUnsigned) : Reachable (newBits bits)
  | newBytes (bytes : NumberNonZeroUnsigned) : Reachable (newBytes bytes)
  | newBool : newBool = some size → Reachable size
  | setFinalValue : Reachable size → size.setFinalValue bits = some next → Reachable next
  | setMinBits : Reachable size → size.setMinBits bits = some next → Reachable next
  | setMinBytes : Reachable size → size.setMinBytes bytes = some next → Reachable next
  | setMaxBits : Reachable size → size.setMaxBits bits = some next → Reachable next
  | setMaxBytes : Reachable size → size.setMaxBytes bytes = some next → Reachable next
  | setPossibleMin : Reachable size → Reachable size.setPossibleMin
  | setPossibleBits : Reachable size → size.setPossibleBits bits = some next → Reachable next
  | setPossibleBytes : Reachable size → size.setPossibleBytes bytes = some next → Reachable next
  | intersection : Reachable size → Reachable other → size.intersection other = some next → Reachable next

end FieldSize

namespace FieldSize

-- The sizes that are left.
def Allows (size : FieldSize) (bits : NumberNonZeroUnsigned) : Prop :=
  (∀ min, size.minBits = some min → min ≤ bits) ∧ ∀ max, size.maxBits = some max → bits ≤ max

def bounds (size : FieldSize) : Option NumberNonZeroUnsigned × Option NumberNonZeroUnsigned := (size.minBits, size.maxBits)

-- A range is open or has two values at least, and holds the possible value.
def WellFormed : FieldSize → Prop
  | .value _ => True
  | .unsized range _ possibleValue =>
    (∀ min max, range.min = some min → range.max = some max → min < max) ∧
      ∀ bits, possibleValue = some bits → range.contains bits = true

end FieldSize

open FieldSize

theorem contains_allows {range : FieldRange} : range.contains bits = true ↔ (FieldSize.unsized range p q).Allows bits := by
  unfold FieldRange.contains Allows
  simp only [minBits,maxBits]
  cases range.min with
  | none =>
    cases range.max with
    | none => simp
    | some max => simp
  | some min =>
    cases range.max with
    | none => simp
    | some max => simp

theorem allows_bounds {s t : FieldSize} (same : s.bounds = t.bounds) : s.Allows bits ↔ t.Allows bits := by
  obtain ⟨isMin,isMax⟩ := Prod.ext_iff.mp same
  unfold Allows
  rw [show s.minBits = t.minBits from isMin,show s.maxBits = t.maxBits from isMax]

theorem ofRange_wf {range : FieldRange} (ordered : ∀ min max, range.min = some min → range.max = some max → min ≤ max) :
    (ofRange range p q).WellFormed ∧ (ofRange range p q).bounds = (range.min,range.max) := by
  unfold ofRange
  cases isSingle : range.singleValue with
  | some bits =>
    refine ⟨trivial,?_⟩
    unfold FieldRange.singleValue at isSingle
    split at isSingle
    · rename_i min max isMin isMax
      by_cases same : min = max
      · rw [if_pos same] at isSingle
        obtain rfl := Option.some.inj isSingle
        simp [bounds,minBits,maxBits,isMin,isMax,same]
      · simp [same] at isSingle
    · cases isSingle
  | none =>
    refine ⟨⟨fun min max isMin isMax => lt_of_le_of_ne (ordered min max isMin isMax) fun same => ?_,fun bits isBits => ?_⟩,rfl⟩
    · simp [FieldRange.singleValue,isMin,isMax,same] at isSingle
    · exact (Option.filter_eq_some_iff.mp isBits).2

section Setters

variable {s t : FieldSize} {min max old : NumberNonZeroUnsigned}

theorem setMinBits_none : s.setMinBits min = none ↔ ∃ max, s.maxBits = some max ∧ max < min := by
  cases s with
  | value bits => simp [setMinBits,maxBits]
  | unsized range p q =>
    cases isMax : range.max with
    | none => simp [setMinBits,maxBits,FieldRange.setMin,isMax]
    | some max => simp [setMinBits,maxBits,FieldRange.setMin,isMax]

theorem setMaxBits_none : s.setMaxBits max = none ↔ ∃ min, s.minBits = some min ∧ max < min := by
  cases s with
  | value bits => simp [setMaxBits,minBits]
  | unsized range p q =>
    cases isMin : range.min with
    | none => simp [setMaxBits,minBits,FieldRange.setMax,isMin]
    | some min => simp [setMaxBits,minBits,FieldRange.setMax,isMin]

theorem setMinBits_some (wf : s.WellFormed) (isSet : s.setMinBits min = some t) :
    t.WellFormed ∧ t.bounds = (s.minBits.merge Max.max (some min),s.maxBits) := by
  have open_ : ∀ max, s.maxBits = some max → min ≤ max := by
    intro max isMax
    by_contra less
    rw [setMinBits_none.mpr ⟨max,isMax,not_le.mp less⟩] at isSet
    cases isSet
  cases s with
  | value bits =>
    have fits : min ≤ bits := open_ bits rfl
    simp only [setMinBits,if_pos fits,Option.some.injEq] at isSet
    subst isSet
    exact ⟨trivial,by simp [bounds,minBits,maxBits,fits]⟩
  | unsized range p q =>
    obtain ⟨next,isNext,rfl⟩ := Option.map_eq_some_iff.mp isSet
    unfold FieldRange.setMin at isNext
    split at isNext
    · cases isNext
    · obtain rfl := Option.some.inj isNext
      obtain ⟨isWf,isBounds⟩ := @ofRange_wf p q
        { range with min := some (match range.min with | some oldMin => Max.max oldMin min | none => min) } (by
          intro lower upper isLower isUpper
          obtain rfl := Option.some.inj isLower
          have fits : min ≤ upper := open_ upper isUpper
          split
          · rename_i old isOld
            exact max_le (wf.1 old upper isOld isUpper).le fits
          · exact fits)
      refine ⟨isWf,isBounds.trans ?_⟩
      cases isOld : range.min with
      | none => simp [minBits,maxBits,isOld]
      | some old => simp [minBits,maxBits,isOld]

theorem setMaxBits_some (wf : s.WellFormed) (isSet : s.setMaxBits max = some t) :
    t.WellFormed ∧ t.bounds = (s.minBits,s.maxBits.merge Min.min (some max)) := by
  have open_ : ∀ min, s.minBits = some min → min ≤ max := by
    intro min isMin
    by_contra less
    rw [setMaxBits_none.mpr ⟨min,isMin,not_le.mp less⟩] at isSet
    cases isSet
  cases s with
  | value bits =>
    have fits : bits ≤ max := open_ bits rfl
    simp only [setMaxBits,if_pos fits,Option.some.injEq] at isSet
    subst isSet
    exact ⟨trivial,by simp [bounds,minBits,maxBits,fits]⟩
  | unsized range p q =>
    obtain ⟨next,isNext,rfl⟩ := Option.map_eq_some_iff.mp isSet
    unfold FieldRange.setMax at isNext
    split at isNext
    · cases isNext
    · obtain rfl := Option.some.inj isNext
      obtain ⟨isWf,isBounds⟩ := @ofRange_wf p q
        { range with max := some (match range.max with | some oldMax => Min.min oldMax max | none => max) } (by
          intro lower upper isLower isUpper
          obtain rfl := Option.some.inj isUpper
          have fits : lower ≤ max := open_ lower isLower
          split
          · rename_i old isOld
            exact le_min (wf.1 lower old isLower isOld).le fits
          · exact fits)
      refine ⟨isWf,isBounds.trans ?_⟩
      cases isOld : range.max with
      | none => simp [minBits,maxBits,isOld]
      | some old => simp [minBits,maxBits,isOld]

theorem ofRange_same {range : FieldRange} (wf : (FieldSize.unsized range p q).WellFormed) :
    ofRange range p q = .unsized range p q := by
  have open_ : range.singleValue = none := by
    unfold FieldRange.singleValue
    split
    · rename_i min max isMin isMax
      rw [if_neg (wf.1 min max isMin isMax).ne]
    · rfl
  have stays : q.filter range.contains = q := by
    cases q with
    | none => rfl
    | some bits => simp [wf.2 bits rfl]
  simp [ofRange,open_,stays]

theorem setMinBits_same (wf : s.WellFormed) (isMin : s.minBits = some old) (covers : min ≤ old) : s.setMinBits min = some s := by
  cases s with
  | value bits =>
    obtain rfl := Option.some.inj isMin
    simp [setMinBits,covers]
  | unsized range p q =>
    have isOld : range.min = some old := isMin
    have step : range.setMin min = some range := by
      have stays : (range.max.any fun max => max < min) = false := by
        cases isMax : range.max with
        | none => rfl
        | some max => simpa using covers.trans (wf.1 old max isOld isMax).le
      unfold FieldRange.setMin
      rw [stays,isOld]
      simp [covers,← isOld]
    simp [setMinBits,step,ofRange_same wf]

theorem setMaxBits_same (wf : s.WellFormed) (isMax : s.maxBits = some old) (covers : old ≤ max) : s.setMaxBits max = some s := by
  cases s with
  | value bits =>
    obtain rfl := Option.some.inj isMax
    simp [setMaxBits,covers]
  | unsized range p q =>
    have isOld : range.max = some old := isMax
    have step : range.setMax max = some range := by
      have stays : (range.min.any fun min => max < min) = false := by
        cases isMin : range.min with
        | none => rfl
        | some min => simpa using (wf.1 min old isMin isOld).le.trans covers
      unfold FieldRange.setMax
      rw [stays,isOld]
      simp [covers,← isOld]
    simp [setMaxBits,step,ofRange_same wf]

end Setters

section Intersection

variable {s t r : FieldSize}

-- The bounds of the second are those of the first, or tighter.
def Within (s t : FieldSize) : Prop :=
  s.minBits.merge Max.max t.minBits = t.minBits ∧ s.maxBits.merge Min.min t.maxBits = t.maxBits

section Merge

variable {α : Type} {f : α → α → α} [Std.Associative f] {a b c : Option α}

theorem merge_left [Std.IdempotentOp f] : a.merge f (a.merge f b) = a.merge f b := by
  rw [← (Option.associative_merge f).assoc,(Option.idempotentOp_merge f).idempotent]

theorem merge_right [Std.IdempotentOp f] [Std.Commutative f] : b.merge f (a.merge f b) = a.merge f b := by
  rw [(Option.commutative_merge f).comm a b,merge_left]

theorem merge_trans (ab : a.merge f b = b) (bc : b.merge f c = c) : a.merge f c = c := by
  rw [← bc,← (Option.associative_merge f).assoc,ab]

end Merge

theorem within_refl : Within s s :=
  ⟨(Option.idempotentOp_merge Max.max).idempotent _,(Option.idempotentOp_merge Min.min).idempotent _⟩

theorem within_trans (st : Within s t) (tr : Within t r) : Within s r :=
  ⟨merge_trans st.1 tr.1,merge_trans st.2 tr.2⟩

theorem within_bounds (same : s.bounds = t.bounds) : Within s t := by
  obtain ⟨isMin,isMax⟩ := Prod.ext_iff.mp same
  unfold Within
  rw [show s.minBits = t.minBits from isMin,show s.maxBits = t.maxBits from isMax]
  exact within_refl

theorem wf_allows (wf : s.WellFormed) : ∃ bits, s.Allows bits := by
  cases s with
  | value bits => exact ⟨bits,by simp [Allows,minBits,maxBits]⟩
  | unsized range p q =>
    cases isMin : range.min with
    | none => exact ⟨1,by simp [Allows,minBits,isMin]⟩
    | some min =>
      refine ⟨min,?_,fun max isMax => (wf.1 min max isMin isMax).le⟩
      intro least isLeast
      rw [show range.min = some least from isLeast] at isMin
      exact (Option.some.inj isMin).le

theorem intersection_some (wf : s.WellFormed) (isSome : s.intersection t = some r) :
    r.WellFormed ∧ r.bounds = (s.minBits.merge Max.max t.minBits,s.maxBits.merge Min.min t.maxBits) := by
  obtain ⟨u,isLower,isUpper⟩ := Option.bind_eq_some_iff.mp isSome
  have lower : u.WellFormed ∧ u.bounds = (s.minBits.merge Max.max t.minBits,s.maxBits) := by
    cases isMin : t.minBits with
    | none =>
      rw [isMin] at isLower
      obtain rfl := Option.some.inj isLower
      exact ⟨wf,by simp [bounds]⟩
    | some min =>
      rw [isMin] at isLower
      exact setMinBits_some wf isLower
  obtain ⟨isMin,isMax⟩ := Prod.ext_iff.mp lower.2
  cases upper : t.maxBits with
  | none =>
    rw [upper] at isUpper
    obtain rfl := Option.some.inj isUpper
    exact ⟨lower.1,by simp [lower.2]⟩
  | some max =>
    rw [upper] at isUpper
    obtain ⟨isWf,isBounds⟩ := setMaxBits_some lower.1 isUpper
    refine ⟨isWf,isBounds.trans ?_⟩
    rw [show u.minBits = _ from isMin,show u.maxBits = _ from isMax]

theorem merge_max_le {a b : Option NumberNonZeroUnsigned} : (∀ min, a.merge Max.max b = some min → min ≤ bits) ↔
    (∀ min, a = some min → min ≤ bits) ∧ ∀ min, b = some min → min ≤ bits := by
  cases a with
  | none => simp
  | some a =>
    cases b with
    | none => simp
    | some b => simp

theorem le_merge_min {a b : Option NumberNonZeroUnsigned} : (∀ max, a.merge Min.min b = some max → bits ≤ max) ↔
    (∀ max, a = some max → bits ≤ max) ∧ ∀ max, b = some max → bits ≤ max := by
  cases a with
  | none => simp
  | some a =>
    cases b with
    | none => simp
    | some b => simp

theorem intersection_allows (wf : s.WellFormed) (isSome : s.intersection t = some r) :
    r.Allows bits ↔ s.Allows bits ∧ t.Allows bits := by
  obtain ⟨isMin,isMax⟩ := Prod.ext_iff.mp (intersection_some wf isSome).2
  unfold Allows
  rw [show r.minBits = _ from isMin,show r.maxBits = _ from isMax,merge_max_le,le_merge_min]
  tauto

theorem intersection_within (wf : s.WellFormed) (isSome : s.intersection t = some r) : Within s r ∧ Within t r := by
  obtain ⟨isMin,isMax⟩ := Prod.ext_iff.mp (intersection_some wf isSome).2
  unfold Within
  rw [show r.minBits = _ from isMin,show r.maxBits = _ from isMax]
  exact ⟨⟨merge_left,merge_left⟩,merge_right,merge_right⟩

theorem intersection_none (wf : s.WellFormed) : s.intersection t = none ↔ ¬∃ bits, s.Allows bits ∧ t.Allows bits := by
  constructor
  · rintro isNone ⟨bits,inS,inT⟩
    unfold intersection at isNone
    cases isMin : t.minBits with
    | none =>
      cases isMax : t.maxBits with
      | none => simp [restrict,isMin,isMax] at isNone
      | some max =>
        simp only [restrict,isMin,isMax,Option.bind_some] at isNone
        obtain ⟨min,isLow,less⟩ := setMaxBits_none.mp isNone
        exact absurd ((inS.1 min isLow).trans (inT.2 max isMax)) (not_le.mpr less)
    | some min =>
      simp only [restrict,isMin] at isNone
      cases lower : s.setMinBits min with
      | none =>
        obtain ⟨max,isHigh,less⟩ := setMinBits_none.mp lower
        exact absurd ((inT.1 min isMin).trans (inS.2 max isHigh)) (not_le.mpr less)
      | some u =>
        obtain ⟨isWf,isBounds⟩ := setMinBits_some wf lower
        cases isMax : t.maxBits with
        | none =>
          rw [lower,Option.bind_some,isMax] at isNone
          cases isNone
        | some max =>
          simp only [lower,isMax,Option.bind_some] at isNone
          obtain ⟨least,isLow,less⟩ := setMaxBits_none.mp isNone
          rw [show u.minBits = _ from (Prod.ext_iff.mp isBounds).1] at isLow
          have above := merge_max_le.mpr ⟨inS.1,fun low same => (Option.some.inj same) ▸ inT.1 min isMin⟩ least isLow
          exact absurd (above.trans (inT.2 max isMax)) (not_le.mpr less)
  · intro disjoint
    cases isSome : s.intersection t with
    | none => rfl
    | some r =>
      obtain ⟨bits,isAllowed⟩ := wf_allows (intersection_some wf isSome).1
      exact absurd ⟨bits,(intersection_allows wf isSome).mp isAllowed⟩ disjoint

theorem intersection_same (wf : s.WellFormed) (within : Within t s) : s.intersection t = some s := by
  have lower : restrict setMinBits t.minBits s = some s := by
    cases isMin : t.minBits with
    | none => rfl
    | some min =>
      have tight := within.1
      rw [isMin] at tight
      cases isOld : s.minBits with
      | none => simp [isOld] at tight
      | some old => exact setMinBits_same wf isOld (max_eq_right_iff.mp (by simpa [isOld] using tight))
  have upper : restrict setMaxBits t.maxBits s = some s := by
    cases isMax : t.maxBits with
    | none => rfl
    | some max =>
      have tight := within.2
      rw [isMax] at tight
      cases isOld : s.maxBits with
      | none => simp [isOld] at tight
      | some old => exact setMaxBits_same wf isOld (by simpa [isOld] using tight)
  unfold intersection
  rw [lower]
  exact upper

end Intersection

theorem setPossibleMin_wf {s : FieldSize} (wf : s.WellFormed) : s.setPossibleMin.WellFormed := by
  cases s with
  | value bits => exact wf
  | unsized range p q => exact wf

theorem setPossibleBits_wf {s t : FieldSize} (wf : s.WellFormed) (isSet : s.setPossibleBits bits = some t) : t.WellFormed := by
  cases s with
  | value own =>
    by_cases same : own = bits
    · simp only [setPossibleBits,if_pos same,Option.some.injEq] at isSet
      exact isSet ▸ wf
    · simp [setPossibleBits,same] at isSet
  | unsized range p q =>
    by_cases inside : range.contains bits = true
    · simp only [setPossibleBits,if_pos inside,Option.some.injEq] at isSet
      subst isSet
      exact ⟨wf.1,fun value same => (Option.some.inj same) ▸ inside⟩
    · simp [setPossibleBits,inside] at isSet

theorem reachable_wf (reachable : Reachable s) : s.WellFormed := by
  have unsized_ : FieldSize.newUnsized.WellFormed := by simp [newUnsized,WellFormed,FieldRange.newUnsize]
  induction reachable with
  | newUnsized => exact unsized_
  | newBits bits => trivial
  | newBytes bytes => trivial
  | newBool isBool =>
    obtain ⟨next,isMin,rfl⟩ := Option.map_eq_some_iff.mp isBool
    exact setPossibleMin_wf (setMinBits_some unsized_ isMin).1
  | @setFinalValue size bits next _ isSet wf =>
    cases size with
    | value own =>
      by_cases same : own = bits
      · simp only [setFinalValue,if_pos same,Option.some.injEq] at isSet
        exact isSet ▸ wf
      · simp [setFinalValue,same] at isSet
    | unsized range p q =>
      by_cases inside : range.contains bits = true
      · simp only [setFinalValue,if_pos inside,Option.some.injEq] at isSet
        exact isSet ▸ trivial
      · simp [setFinalValue,inside] at isSet
  | setMinBits _ isSet wf => exact (setMinBits_some wf isSet).1
  | setMinBytes _ isSet wf => exact (setMinBits_some wf isSet).1
  | setMaxBits _ isSet wf => exact (setMaxBits_some wf isSet).1
  | setMaxBytes _ isSet wf => exact (setMaxBits_some wf isSet).1
  | setPossibleMin _ wf => exact setPossibleMin_wf wf
  | setPossibleBits _ isSet wf => exact setPossibleBits_wf wf isSet
  | setPossibleBytes _ isSet wf => exact setPossibleBits_wf wf isSet
  | intersection _ _ isSome wf _ => exact (intersection_some wf isSome).1

end Rsleigh.Semantic.Len
