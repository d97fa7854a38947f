import Rsleigh.Semantic.FlatMasks
import Rsleigh.Lib.Insertion

namespace Rsleigh.Semantic.Variants

open Decode Insertion

-- `Pattern::bits_produced`.
def bitsProduced (len : PatternLen) : Nat :=
  8 * len.singleLen.getD len.least

-- A converted constructor of a table: the bits of its variants, each of the whole context and of all that the pattern
-- produces, and the parser that is generated for it.
structure TableConstructor (memoryBits width : Nat) (τ : Type) where
  len : PatternLen
  variantsBits : List ConstraintBits
  sized : ∀ bits ∈ variantsBits, bits.context.length = memoryBits ∧ bits.token.length = bitsProduced len
  parserFun : List UInt8 → BitVec width → Nat → Except Failure (Nat × τ × BitVec width)

section Table

variable {memoryBits width : Nat} {τ : Type} (constructors : List (TableConstructor memoryBits width τ))

-- A variant of one of the constructors.
structure TableMatcher where
  constructor : Fin constructors.length
  variantId : Fin constructors[constructor].variantsBits.length

variable {constructors}

theorem TableMatcher.same_iff (x y : TableMatcher constructors) :
    x.constructor = y.constructor ∧ x.variantId.val = y.variantId.val ↔ x = y := by
  cases x with
  | mk constructor variantId =>
    cases y with
    | mk constructor' variantId' =>
      constructor
      · rintro ⟨rfl,same⟩
        have isSame : variantId = variantId' := Fin.ext same
        rw [isSame]
      · rintro ⟨⟩
        exact ⟨rfl,rfl⟩

instance : DecidableEq (TableMatcher constructors) := fun x y => decidable_of_iff _ (TableMatcher.same_iff x y)

def TableMatcher.own (matcher : TableMatcher constructors) : TableConstructor memoryBits width τ :=
  constructors[matcher.constructor]

def TableMatcher.bits (matcher : TableMatcher constructors) : ConstraintBits :=
  constructors[matcher.constructor].variantsBits[matcher.variantId]

def produceIter (matcher : TableMatcher constructors) (extend : Nat) : List BitConstraint :=
  matcher.bits.context ++ matcher.bits.token ++ List.replicate extend .unrestrained

-- The first bit is that of a pattern that is equal to the other, or tighter.
def BitConstraint.firstThen : BitConstraint → BitConstraint → Bool
  | .defined x, .defined y => x == y
  | .unrestrained, .unrestrained | .defined _, .unrestrained | .restrained, .unrestrained => true
  | .defined _, .restrained | .restrained, .defined _ | .restrained, .restrained => false
  | .unrestrained, .restrained | .unrestrained, .defined _ => false

def isFirstThen (matcherA matcherB : TableMatcher constructors) : Bool :=
  let patternLenA := bitsProduced matcherA.own.len
  let patternLenB := bitsProduced matcherB.own.len
  let patternLenMax := max patternLenA patternLenB
  (List.zipWith BitConstraint.firstThen (produceIter matcherA (patternLenMax - patternLenA))
    (produceIter matcherB (patternLenMax - patternLenB))).all id

-- The order of the matchers of a table: each comes before the first one that it contains.
def place (order : List (TableMatcher constructors)) (matcherA : TableMatcher constructors) :
    List (TableMatcher constructors) :=
  match order.findIdx? fun matcherB => isFirstThen matcherA matcherB with
  | some pos => order.insertIdx pos matcherA
  | none => order ++ [matcherA]

variable (constructors) in
def matchers : List (TableMatcher constructors) :=
  (List.finRange constructors.length).flatMap fun constructor =>
    (List.finRange constructors[constructor].variantsBits.length).map fun variantId => ⟨constructor,variantId⟩

variable (constructors) in
def matcherOrder : List (TableMatcher constructors) :=
  (matchers constructors).foldl place []

end Table

-- The parser that is generated for a table.
section Parse

variable {memoryBits width : Nat} {τ : Type} {constructors : List (TableConstructor memoryBits width τ)}
variable (debug : Bool) (tokens : List UInt8) (context : BitVec width) (instStart : Nat)

-- One entry, with the context that the table was called in.
def TableMatcher.parse (matcher : TableMatcher constructors) : Except Failure (Nat × τ × BitVec width) :=
  if tokens.length < matcher.own.len.least then .error .noMatch
  else if debug then matcher.own.parserFun tokens context instStart
  else do
    if ← matcher.bits.applies tokens context then matcher.own.parserFun tokens context instStart
    else .error .noMatch

-- The entries are tried in order; the one that is returned is named.
def parseEntries : List (TableMatcher constructors) → Except Failure (TableMatcher constructors × Nat × τ × BitVec width)
  | [] => .error .noMatch
  | matcher :: rest =>
    match matcher.parse debug tokens context instStart with
    | .ok parsed => .ok (matcher,parsed)
    | .error .noMatch => parseEntries rest
    | .error failure => .error failure

end Parse

section Tighter

variable {memoryBits width : Nat} {τ : Type} {constructors : List (TableConstructor memoryBits width τ)}

-- The bits of a matcher, without restraints after its own.
def TableMatcher.bit (matcher : TableMatcher constructors) (index : Nat) : BitConstraint :=
  (matcher.bits.context ++ matcher.bits.token).getD index .unrestrained

theorem TableMatcher.sized (matcher : TableMatcher constructors) :
    matcher.bits.context.length = memoryBits ∧ matcher.bits.token.length = bitsProduced matcher.own.len :=
  matcher.own.sized matcher.bits (List.getElem_mem _)

theorem firstThen_trans {x y z : BitConstraint} (first : x.firstThen y = true) (later : y.firstThen z = true) :
    x.firstThen z = true := by
  cases x <;> cases y <;> cases z <;> simp_all [BitConstraint.firstThen]

theorem getD_produceIter (matcher : TableMatcher constructors) (extend index : Nat) :
    (produceIter matcher extend).getD index .unrestrained = matcher.bit index := by
  unfold produceIter TableMatcher.bit
  by_cases inside : index < (matcher.bits.context ++ matcher.bits.token).length
  · simp only [List.getD_eq_getElem?_getD,List.getElem?_append_left inside]
  · have beyond := Nat.le_of_not_lt inside
    simp only [List.getD_eq_getElem?_getD,List.getElem?_append_right beyond,List.getElem?_eq_none beyond,
      List.getElem?_replicate]
    split <;> rfl

theorem zipWith_firstThen {xs ys : List BitConstraint} (same : xs.length = ys.length) :
    (List.zipWith BitConstraint.firstThen xs ys).all id = true ↔
      ∀ index, (xs.getD index .unrestrained).firstThen (ys.getD index .unrestrained) = true := by
  rw [List.all_eq_true]
  constructor
  · intro all index
    by_cases inside : index < xs.length
    · have inside' : index < ys.length := by omega
      have isPair : index < (List.zipWith BitConstraint.firstThen xs ys).length := by simp [inside,inside']
      have here := all _ (List.getElem_mem isPair)
      simpa [List.getD_eq_getElem?_getD,inside,inside'] using here
    · have outside : ys.length ≤ index := by omega
      simp [List.getD_eq_getElem?_getD,Nat.le_of_not_lt inside,outside,BitConstraint.firstThen]
  · intro all bit member
    obtain ⟨index,isPair,rfl⟩ := List.getElem_of_mem member
    have inside : index < xs.length ∧ index < ys.length := by simpa using isPair
    have here := all index
    simpa [List.getD_eq_getElem?_getD,inside.1,inside.2] using here

theorem isFirstThen_iff (matcherA matcherB : TableMatcher constructors) :
    isFirstThen matcherA matcherB = true ↔ ∀ index, (matcherA.bit index).firstThen (matcherB.bit index) = true := by
  obtain ⟨contextA,tokenA⟩ := matcherA.sized
  obtain ⟨contextB,tokenB⟩ := matcherB.sized
  unfold isFirstThen
  rw [zipWith_firstThen]
  · simp only [getD_produceIter]
  · simp only [produceIter,List.length_append,List.length_replicate,contextA,contextB,tokenA,tokenB]
    omega

theorem isFirstThen_trans (x y z : TableMatcher constructors) (first : isFirstThen x y = true)
    (later : isFirstThen y z = true) : isFirstThen x z = true := by
  rw [isFirstThen_iff] at first later ⊢
  exact fun index => firstThen_trans (first index) (later index)

theorem place_eq (order : List (TableMatcher constructors)) (matcherA : TableMatcher constructors) :
    place order matcherA = insertBefore isFirstThen matcherA order := by
  induction order with
  | nil => rfl
  | cons first rest ih =>
    unfold insertBefore
    rw [← ih]
    unfold place
    rw [List.findIdx?_cons]
    cases isFirst : isFirstThen matcherA first with
    | true => rfl
    | false =>
      cases found : rest.findIdx? fun matcherB => isFirstThen matcherA matcherB with
      | none => simp
      | some pos => simp

variable (constructors) in
theorem matcherOrder_eq : matcherOrder constructors = insertAll isFirstThen (matchers constructors) := by
  unfold matcherOrder insertAll
  congr 1
  funext order matcherA
  exact place_eq order matcherA

theorem mem_matchers (matcher : TableMatcher constructors) : matcher ∈ matchers constructors := by
  unfold matchers
  refine List.mem_flatMap.mpr ⟨matcher.constructor,List.mem_finRange _,?_⟩
  exact List.mem_map.mpr ⟨matcher.variantId,List.mem_finRange _,rfl⟩

variable (constructors) in
theorem matchers_nodup : (matchers constructors).Nodup := by
  unfold matchers
  refine List.nodup_flatMap.mpr ⟨?_,?_⟩
  · intro constructor _
    refine (List.nodup_finRange _).map ?_
    intro variantId variantId' same
    simpa using same
  · refine (List.nodup_finRange _).imp ?_
    intro constructor constructor' differs matcher member member'
    obtain ⟨_,_,rfl⟩ := List.mem_map.mp member
    obtain ⟨_,_,same⟩ := List.mem_map.mp member'
    exact differs (congrArg TableMatcher.constructor same).symm

end Tighter

section Order

variable {memoryBits width : Nat} {τ : Type} {constructors : List (TableConstructor memoryBits width τ)}
variable {debug : Bool} {tokens : List UInt8} {context : BitVec width} {instStart : Nat}

-- The order has each variant of each constructor once, and those that are strictly tighter come first: what they parse
-- is never returned as a looser one.
structure MostSpecificFirst (order : List (TableMatcher constructors)) : Prop where
  once : order.Nodup
  all : ∀ matcher, matcher ∈ order
  precedes : ∀ x y, isFirstThen x y = true → isFirstThen y x = false → order.idxOf x < order.idxOf y
  parses : ∀ x y, isFirstThen x y = true → isFirstThen y x = false → ∀ debug tokens context instStart parsed,
    x.parse debug tokens context instStart = .ok parsed →
    ∀ other result, parseEntries debug tokens context instStart order = .ok (other,result) → other ≠ y

theorem parseEntries_parsed {order : List (TableMatcher constructors)} {matcher : TableMatcher constructors}
    {result : Nat × τ × BitVec width} (found : parseEntries debug tokens context instStart order = .ok (matcher,result)) :
    matcher.parse debug tokens context instStart = .ok result := by
  induction order with
  | nil => cases found
  | cons first rest ih =>
    unfold parseEntries at found
    split at found
    · rename_i parses
      cases found
      exact parses
    · exact ih found
    · cases found

theorem parseEntries_first {order : List (TableMatcher constructors)} {matcher : TableMatcher constructors}
    {result : Nat × τ × BitVec width} (found : parseEntries debug tokens context instStart order = .ok (matcher,result)) :
    ∀ earlier parsed, earlier.parse debug tokens context instStart = .ok parsed →
      order.idxOf matcher ≤ order.idxOf earlier := by
  induction order with
  | nil => cases found
  | cons first rest ih =>
    intro earlier parsed parses
    unfold parseEntries at found
    split at found
    · cases found
      simp
    · rename_i refused
      have notMatcher : first ≠ matcher := by
        rintro rfl
        rw [parseEntries_parsed found] at refused
        cases refused
      have notEarlier : first ≠ earlier := by
        rintro rfl
        rw [refused] at parses
        cases parses
      rw [List.idxOf_cons_ne rest notMatcher,List.idxOf_cons_ne rest notEarlier]
      exact Nat.succ_le_succ (ih found earlier parsed parses)
    · cases found

theorem matcherOrder_mostSpecificFirst (constructors : List (TableConstructor memoryBits width τ)) :
    MostSpecificFirst (matcherOrder constructors) := by
  have permutes : (matcherOrder constructors).Perm (matchers constructors) := by
    rw [matcherOrder_eq]
    exact insertAll_perm _
  have all : ∀ matcher, matcher ∈ matcherOrder constructors := fun matcher => permutes.mem_iff.mpr (mem_matchers matcher)
  have ordered : Ordered isFirstThen (matcherOrder constructors) := by
    rw [matcherOrder_eq]
    exact insertAll_ordered isFirstThen_trans _
  have precedes : ∀ x y, isFirstThen x y = true → isFirstThen y x = false →
      (matcherOrder constructors).idxOf x < (matcherOrder constructors).idxOf y :=
    fun x y tighter looser => ordered_precedes ordered (all x) (all y) ⟨tighter,looser⟩
  refine ⟨permutes.nodup_iff.mpr (matchers_nodup constructors),all,precedes,?_⟩
  rintro x y tighter looser debug tokens context instStart parsed parses other result found rfl
  have first := parseEntries_first found x parsed parses
  have before := precedes x other tighter looser
  omega

end Order

end Rsleigh.Semantic.Variants
