import Rsleigh.Semantic.FlatPattern
import Rsleigh.Semantic.VariantsOnce

namespace Rsleigh.Semantic.Variants

open Decode Fallible

-- A bit of the context memory, or of the tokens.
inductive Place where
  | context (bit : Nat)
  | token (bit : Nat)
  deriving DecidableEq

def DefinedAt (bits : List BitConstraint) (index : Nat) (bit : Bool) : Prop :=
  bits[index]? = some (BitConstraint.defined bit)

def ConstraintBits.Defines (bits : ConstraintBits) : Place → Bool → Prop
  | .context index, bit => DefinedAt bits.context index bit
  | .token index, bit => DefinedAt bits.token index bit

def inputBit (tokens : List UInt8) (context : BitVec width) : Place → Bool
  | .context index => context.getLsbD index
  | .token index => (tokens.getD (index / 8) 0).toNat.testBit (index % 8)

-- An equality with a literal; the tokens of a field start at a byte of the pattern.
inductive Equality where
  | context (id : Nat) (value : Word)
  | token (offset field : Nat) (value : Word)
  deriving DecidableEq

-- The bits that an equality asks for.
def Equality.Asks (layout : Layout) : Equality → Place → Bool → Prop
  | .context id value, place, bit =>
    ∃ i < (layout.memory.field id).len, place = .context ((layout.memory.field id).start + i) ∧
      bit = value.getLsbD ((layout.memory.field id).len - 1 - i)
  | .token offset id value, place, bit =>
    ∃ i < (layout.tokenField id).len, (layout.tokenField id).start + i < 8 * (layout.tokenField id).tokenLen ∧
      place = .token (8 * offset +
        tokenOrder (layout.tokenField id) ((layout.tokenField id).start + i) (8 * (layout.tokenField id).tokenLen)) ∧
      bit = value.getLsbD i

def Equality.Holds (layout : Layout) (equality : Equality) (input : Place → Bool) : Prop :=
  ∀ place bit, equality.Asks layout place bit → input place = bit

-- Two equalities ask for different values of no bit.
def Equality.Compatible (layout : Layout) (equality other : Equality) : Prop :=
  ∀ place bit bit', equality.Asks layout place bit → other.Asks layout place bit' → bit = bit'

def Check.equalities (offset : Nat) : Check → List Equality
  | .contextCheck id op value => (literal op value).toList.map (.context id)
  | .tokenFieldCheck id op value => (literal op value).toList.map (.token offset id)
  | .tableBuild _ => []

-- The equalities that a choice meets, with each block at its least offset.
section Equalities

variable (len : φ → PatternLen)

mutual

def Verification.equalities (offset : Nat) (choice : Choice) : Verification φ → List Equality
  | .check check => check.equalities offset
  | .subPattern pattern => patternEqualities offset choice pattern

def allEqualities (offset : Nat) (choice : Choice) : List (Verification φ) → List Equality
  | [] => []
  | verification :: rest =>
    match choice with
    | .both first later => verification.equalities offset first ++ allEqualities offset later rest
    | _ => []

def branchEqualities (offset index : Nat) (inner : Choice) : List (Verification φ) → List Equality
  | [] => []
  | branch :: rest =>
    match index with
    | 0 => branch.equalities offset inner
    | index + 1 => branchEqualities offset index inner rest

def Block.equalities (offset : Nat) (choice : Choice) : Block φ → List Equality
  | .and _ verifications => allEqualities offset choice verifications
  | .or _ first rest =>
    match choice with
    | .branch 0 inner => first.equalities offset inner
    | .branch (index + 1) inner => branchEqualities offset index inner rest
    | _ => []

def patternEqualities (offset : Nat) (choice : Choice) : Pattern φ → List Equality
  | [] => []
  | block :: rest =>
    match choice with
    | .both first later =>
      block.equalities offset first ++ patternEqualities (offset + (len block.phase).least) later rest
    | _ => []

end

-- Those that are marked stand in an and block of the flat pattern itself: the parser leaves them to the masks.
def allRoot (flat : Bool) (offset : Nat) (choice : Choice) : List (Verification φ) → List (Bool × Equality)
  | [] => []
  | verification :: rest =>
    match choice with
    | .both first later =>
      (match verification with
        | .check check => (check.equalities offset).map (flat, ·)
        | .subPattern pattern => (patternEqualities len offset first pattern).map (false, ·)) ++
        allRoot flat offset later rest
    | _ => []
termination_by structural verifications => verifications

def Block.root (flat : Bool) (offset : Nat) (choice : Choice) : Block φ → List (Bool × Equality)
  | .and _ verifications => allRoot len flat offset choice verifications
  | .or phase first rest => ((Block.or phase first rest).equalities len offset choice).map (false, ·)

def rootEqualities (flat : Bool) (offset : Nat) (choice : Choice) : Pattern φ → List (Bool × Equality)
  | [] => []
  | block :: rest =>
    match choice with
    | .both first later =>
      block.root len flat offset first ++
        rootEqualities (flat && (len block.phase).singleLen.isSome) (offset + (len block.phase).least) later rest
    | _ => []
termination_by structural pattern => pattern

end Equalities

theorem singleLen_getD (len : PatternLen) : len.singleLen.getD len.least = len.least := by
  cases len <;> rfl

theorem fieldInBe_inj {bytes x y : Nat} (xInside : x < 8 * bytes) (yInside : y < 8 * bytes)
    (same : fieldInBe x (8 * bytes) = fieldInBe y (8 * bytes)) : x = y := by
  unfold fieldInBe at same
  omega

theorem tokenOrder_inj {field : TokenField} {x y : Nat} (xInside : x < 8 * field.tokenLen)
    (yInside : y < 8 * field.tokenLen)
    (same : tokenOrder field x (8 * field.tokenLen) = tokenOrder field y (8 * field.tokenLen)) : x = y := by
  unfold tokenOrder at same
  split at same
  · exact fieldInBe_inj xInside yInside same
  · exact same

theorem definedAt_found {bits : List BitConstraint} {index : Nat} {old : BitConstraint} {bit : Bool}
    (found : bits[index]? = some old) : DefinedAt bits index bit ↔ old = .defined bit := by
  unfold DefinedAt
  rw [found,Option.some_inj]

theorem definedAt_self {bits : List BitConstraint} {index : Nat} {new : BitConstraint} {bit : Bool}
    (inside : index < bits.length) : DefinedAt (bits.set index new) index bit ↔ new = .defined bit :=
  definedAt_found (List.getElem?_set_self inside)

theorem definedAt_other {bits : List BitConstraint} {index other : Nat} {new : BitConstraint} {bit : Bool}
    (isOther : index ≠ other) : DefinedAt (bits.set index new) other bit ↔ DefinedAt bits other bit := by
  unfold DefinedAt
  rw [List.getElem?_set_ne isOther]

section ApplyValue

variable {offset sliceLen start len : Nat} {fieldOrder valueOrder : Nat → Nat → Nat}

theorem define_some {old : BitConstraint} {bit : Bool} {new : BitConstraint} (defined : old.define bit = some new) :
    new = .defined bit ∧ ∀ other, old = .defined other → other = bit := by
  cases old with
  | unrestrained =>
    cases defined
    exact ⟨rfl,nofun⟩
  | restrained =>
    cases defined
    exact ⟨rfl,nofun⟩
  | defined other =>
    simp only [BitConstraint.define] at defined
    split at defined
    · rename_i same
      cases defined
      subst same
      refine ⟨rfl,?_⟩
      intro another isSame
      exact (BitConstraint.defined.inj isSame).symm
    · cases defined

theorem define_none {old : BitConstraint} {bit : Bool} (conflict : old.define bit = none) :
    ∃ other, old = .defined other ∧ other ≠ bit := by
  cases old with
  | unrestrained => cases conflict
  | restrained => cases conflict
  | defined other =>
    simp only [BitConstraint.define] at conflict
    split at conflict
    · cases conflict
    · rename_i differs
      exact ⟨other,rfl,differs⟩

theorem mostRestrictive_defined {old new : BitConstraint} {bit : Bool}
    (restricted : old.mostRestrictive .restrained = some new) : new = .defined bit ↔ old = .defined bit := by
  cases old with
  | unrestrained =>
    cases restricted
    exact ⟨nofun,nofun⟩
  | restrained =>
    cases restricted
    exact ⟨nofun,nofun⟩
  | defined other =>
    cases restricted
    exact Iff.rfl

-- The bits of a literal stand in for one of the values in the list.
def Asked (offset sliceLen start len : Nat) (fieldOrder valueOrder : Nat → Nat → Nat) (value : Option Word)
    (values : List Nat) (index : Nat) (bit : Bool) : Prop :=
  ∃ literal, value = some literal ∧ ∃ i ∈ values, start + i < sliceLen ∧
    index = offset + fieldOrder (start + i) sliceLen ∧ bit = literal.getLsbD (valueOrder i len)

theorem applyValue_bits {value : Option Word} {values : List Nat} :
    ∀ {bits bits' : List BitConstraint} {met : Bool},
      applyValue offset sliceLen start len fieldOrder valueOrder value values bits = .ok (met, bits') →
      bits'.length = bits.length ∧
      (∀ index bit, DefinedAt bits index bit → DefinedAt bits' index bit) ∧
      (∀ index bit, DefinedAt bits' index bit →
        DefinedAt bits index bit ∨
          Asked offset sliceLen start len fieldOrder valueOrder value values index bit) ∧
      (met = true → (∀ i ∈ values, start + i < sliceLen) ∧
        ∀ index bit, Asked offset sliceLen start len fieldOrder valueOrder value values index bit →
          DefinedAt bits' index bit) := by
  induction values with
  | nil =>
    intro bits bits' met run
    cases run
    refine ⟨rfl,fun _ _ defined => defined,fun _ _ defined => Or.inl defined,?_⟩
    intro _
    refine ⟨fun _ member => absurd member List.not_mem_nil,?_⟩
    intro index bit asked
    obtain ⟨_,_,i,member,_⟩ := asked
    cases member
  | cons i rest ih =>
    intro bits bits' met run
    unfold applyValue at run
    split at run
    · cases run
    · rename_i inSlice
      simp only [] at run
      cases found : bits[offset + fieldOrder (start + i) sliceLen]? with
      | none =>
        rw [found] at run
        cases run
      | some old =>
        rw [found] at run
        have inside := (List.getElem?_eq_some_iff.mp found).1
        cases value with
        | none =>
          simp only [] at run
          cases restricted : old.mostRestrictive .restrained with
          | none =>
            rw [restricted] at run
            cases run
          | some new =>
            rw [restricted] at run
            obtain ⟨length,keeps,only,all⟩ := ih run
            have same : ∀ index bit, DefinedAt (bits.set (offset + fieldOrder (start + i) sliceLen) new) index bit ↔
                DefinedAt bits index bit := by
              intro index bit
              by_cases isIndex : offset + fieldOrder (start + i) sliceLen = index
              · subst isIndex
                rw [definedAt_self inside,definedAt_found found]
                exact mostRestrictive_defined restricted
              · exact definedAt_other isIndex
            refine ⟨?_,?_,?_,?_⟩
            · rw [length,List.length_set]
            · exact fun index bit defined => keeps index bit ((same index bit).mpr defined)
            · intro index bit defined
              rcases only index bit defined with before | asked
              · exact Or.inl ((same index bit).mp before)
              · obtain ⟨_,isSome,_⟩ := asked
                cases isSome
            · intro isMet
              refine ⟨?_,?_⟩
              · intro j member
                rcases List.mem_cons.mp member with rfl | member
                · exact Nat.lt_of_not_le inSlice
                · exact (all isMet).1 j member
              · intro index bit asked
                obtain ⟨_,isSome,_⟩ := asked
                cases isSome
        | some literal =>
          simp only [] at run
          cases defined : old.define (literal.getLsbD (valueOrder i len)) with
          | none =>
            rw [defined] at run
            cases run
            exact ⟨rfl,fun _ _ before => before,fun _ _ before => Or.inl before,nofun⟩
          | some new =>
            rw [defined] at run
            obtain ⟨length,keeps,only,all⟩ := ih run
            obtain ⟨rfl,agrees⟩ := define_some defined
            refine ⟨?_,?_,?_,?_⟩
            · rw [length,List.length_set]
            · intro index bit before
              apply keeps
              by_cases isIndex : offset + fieldOrder (start + i) sliceLen = index
              · subst isIndex
                rw [definedAt_self inside,agrees bit ((definedAt_found found).mp before)]
              · exact (definedAt_other isIndex).mpr before
            · intro index bit after
              rcases only index bit after with before | asked
              · by_cases isIndex : offset + fieldOrder (start + i) sliceLen = index
                · subst isIndex
                  have isBit := (definedAt_self inside).mp before
                  exact Or.inr ⟨literal,rfl,i,List.mem_cons_self ..,Nat.lt_of_not_le inSlice,rfl,
                    (BitConstraint.defined.inj isBit).symm⟩
                · exact Or.inl ((definedAt_other isIndex).mp before)
              · obtain ⟨_,isSome,j,member,jInside,isPlace,isBit⟩ := asked
                exact Or.inr ⟨_,isSome,j,List.mem_cons_of_mem _ member,jInside,isPlace,isBit⟩
            · intro isMet
              refine ⟨?_,?_⟩
              · intro j member
                rcases List.mem_cons.mp member with rfl | member
                · exact Nat.lt_of_not_le inSlice
                · exact (all isMet).1 j member
              · intro index bit asked
                obtain ⟨_,isSome,j,member,jInside,isPlace,isBit⟩ := asked
                rcases List.mem_cons.mp member with isHead | member
                · cases isSome
                  subst isHead isPlace isBit
                  apply keeps
                  exact (definedAt_self inside).mpr rfl
                · exact (all isMet).2 index bit ⟨_,isSome,j,member,jInside,isPlace,isBit⟩

-- A literal that agrees with all that is defined before can be met.
theorem applyValue_met {value : Option Word} {known : Nat → Bool → Prop} {values : List Nat}
    (apart : ∀ i j, start + i < sliceLen → start + j < sliceLen →
      fieldOrder (start + i) sliceLen = fieldOrder (start + j) sliceLen → i = j) :
    ∀ {processed : List Nat} {bits bits' : List BitConstraint} {met : Bool},
      applyValue offset sliceLen start len fieldOrder valueOrder value values bits = .ok (met, bits') →
      (∀ index bit, DefinedAt bits index bit →
        known index bit ∨ Asked offset sliceLen start len fieldOrder valueOrder value processed index bit) →
      (∀ index bit bit', Asked offset sliceLen start len fieldOrder valueOrder value values index bit →
        known index bit' → bit' = bit) →
      met = true := by
  induction values with
  | nil =>
    intro processed bits bits' met run _ _
    cases run
    rfl
  | cons i rest ih =>
    intro processed bits bits' met run bounded agrees
    unfold applyValue at run
    split at run
    · cases run
    · rename_i inSlice
      simp only [] at run
      cases found : bits[offset + fieldOrder (start + i) sliceLen]? with
      | none =>
        rw [found] at run
        cases run
      | some old =>
        rw [found] at run
        have inside := (List.getElem?_eq_some_iff.mp found).1
        have later : ∀ index bit bit', Asked offset sliceLen start len fieldOrder valueOrder value rest index bit →
            known index bit' → bit' = bit := by
          intro index bit bit' asked
          obtain ⟨_,isSome,j,member,jInside,isPlace,isBit⟩ := asked
          exact agrees index bit bit' ⟨_,isSome,j,List.mem_cons_of_mem _ member,jInside,isPlace,isBit⟩
        have wider : ∀ index bit, Asked offset sliceLen start len fieldOrder valueOrder value processed index bit →
            Asked offset sliceLen start len fieldOrder valueOrder value (i :: processed) index bit := by
          intro index bit asked
          obtain ⟨_,isSome,j,member,jInside,isPlace,isBit⟩ := asked
          exact ⟨_,isSome,j,List.mem_cons_of_mem _ member,jInside,isPlace,isBit⟩
        cases value with
        | none =>
          simp only [] at run
          cases restricted : old.mostRestrictive .restrained with
          | none =>
            rw [restricted] at run
            cases run
          | some new =>
            rw [restricted] at run
            refine @ih (i :: processed) _ _ _ run ?_ later
            intro index bit defined
            by_cases isIndex : offset + fieldOrder (start + i) sliceLen = index
            · subst isIndex
              have before := (mostRestrictive_defined restricted).mp ((definedAt_self inside).mp defined)
              exact (bounded _ bit ((definedAt_found found).mpr before)).imp_right (wider _ bit)
            · exact (bounded index bit ((definedAt_other isIndex).mp defined)).imp_right (wider index bit)
        | some literal =>
          simp only [] at run
          cases defined : old.define (literal.getLsbD (valueOrder i len)) with
          | none =>
            obtain ⟨other,rfl,differs⟩ := define_none defined
            apply absurd _ differs
            rcases bounded _ other ((definedAt_found found).mpr rfl) with isKnown | asked
            · exact agrees _ _ other ⟨literal,rfl,i,List.mem_cons_self ..,Nat.lt_of_not_le inSlice,rfl,rfl⟩ isKnown
            · obtain ⟨_,isSome,j,member,jInside,isPlace,isBit⟩ := asked
              cases isSome
              have same : i = j := apart i j (Nat.lt_of_not_le inSlice) jInside (Nat.add_left_cancel isPlace)
              rw [isBit,same]
          | some new =>
            rw [defined] at run
            refine @ih (i :: processed) _ _ _ run ?_ later
            intro index bit after
            by_cases isIndex : offset + fieldOrder (start + i) sliceLen = index
            · subst isIndex
              have isBit := (define_some defined).1.symm.trans ((definedAt_self inside).mp after)
              exact Or.inr ⟨literal,rfl,i,List.mem_cons_self ..,Nat.lt_of_not_le inSlice,rfl,
                (BitConstraint.defined.inj isBit).symm⟩
            · exact (bounded index bit ((definedAt_other isIndex).mp after)).imp_right (wider index bit)

end ApplyValue

-- A step of the constraints: it keeps what is defined, and defines only what the equalities ask for.
structure Constrains (layout : Layout) (equalities : List Equality) (bits bits' : ConstraintBits) : Prop where
  length : bits'.token.length = bits.token.length
  keeps : ∀ place bit, bits.Defines place bit → bits'.Defines place bit
  only : ∀ place bit, bits'.Defines place bit →
    bits.Defines place bit ∨ ∃ equality ∈ equalities, equality.Asks layout place bit

-- The tokens of an equality are among those of the pattern.
def Equality.Inside (layout : Layout) (bits : ConstraintBits) : Equality → Prop
  | .context _ _ => True
  | .token offset id _ => 8 * offset + 8 * (layout.tokenField id).tokenLen ≤ bits.token.length ∧
    ∀ i < (layout.tokenField id).len, (layout.tokenField id).start + i < 8 * (layout.tokenField id).tokenLen

section Constrains

variable {layout : Layout} {bits middle bits' : ConstraintBits} {equalities first later : List Equality}

theorem constrains_refl (equalities : List Equality) : Constrains layout equalities bits bits :=
  ⟨rfl,fun _ _ defined => defined,fun _ _ defined => Or.inl defined⟩

theorem constrains_mono (constrains : Constrains layout first bits bits')
    (more : ∀ equality ∈ first, equality ∈ equalities) : Constrains layout equalities bits bits' := by
  refine ⟨constrains.length,constrains.keeps,?_⟩
  intro place bit defined
  rcases constrains.only place bit defined with before | ⟨equality,member,asks⟩
  · exact Or.inl before
  · exact Or.inr ⟨equality,more equality member,asks⟩

theorem constrains_trans (constrains : Constrains layout first bits middle)
    (after : Constrains layout later middle bits') : Constrains layout (first ++ later) bits bits' := by
  refine ⟨after.length.trans constrains.length,?_,?_⟩
  · exact fun place bit defined => after.keeps place bit (constrains.keeps place bit defined)
  · intro place bit defined
    rcases after.only place bit defined with inMiddle | ⟨equality,member,asks⟩
    · rcases constrains.only place bit inMiddle with before | ⟨equality,member,asks⟩
      · exact Or.inl before
      · exact Or.inr ⟨equality,List.mem_append_left _ member,asks⟩
    · exact Or.inr ⟨equality,List.mem_append_right _ member,asks⟩

theorem asked_context {id sliceLen offset index : Nat} {op : CmpOp} {value : Expr} {bit : Bool} :
    Asked 0 sliceLen (layout.memory.field id).start (layout.memory.field id).len fieldInLe valueInContext
      (literal op value) (List.range (layout.memory.field id).len) index bit ↔
      index < sliceLen ∧
        ∃ equality ∈ (Check.contextCheck id op value).equalities offset, equality.Asks layout (.context index) bit := by
  constructor
  · intro asked
    obtain ⟨word,isSome,i,member,inside,rfl,rfl⟩ := asked
    rw [Nat.zero_add]
    refine ⟨inside,.context id word,?_,i,List.mem_range.mp member,rfl,rfl⟩
    simp only [Check.equalities,isSome,Option.toList_some,List.map_cons,List.map_nil,List.mem_singleton]
  · intro asked
    obtain ⟨inside,equality,member,asks⟩ := asked
    obtain ⟨word,isSome,rfl⟩ := List.mem_map.mp member
    obtain ⟨i,less,isPlace,isBit⟩ := asks
    cases isPlace
    exact ⟨word,Option.mem_toList.mp isSome,i,List.mem_range.mpr less,inside,(Nat.zero_add _).symm,isBit⟩

theorem asked_token {id offset index : Nat} {op : CmpOp} {value : Expr} {bit : Bool} :
    Asked (8 * offset) (8 * (layout.tokenField id).tokenLen) (layout.tokenField id).start (layout.tokenField id).len
      (tokenOrder (layout.tokenField id)) valueInToken (literal op value) (List.range (layout.tokenField id).len)
      index bit ↔
      ∃ equality ∈ (Check.tokenFieldCheck id op value).equalities offset, equality.Asks layout (.token index) bit := by
  constructor
  · intro asked
    obtain ⟨word,isSome,i,member,inside,rfl,rfl⟩ := asked
    refine ⟨.token offset id word,?_,i,List.mem_range.mp member,inside,rfl,rfl⟩
    simp only [Check.equalities,isSome,Option.toList_some,List.map_cons,List.map_nil,List.mem_singleton]
  · intro asked
    obtain ⟨equality,member,asks⟩ := asked
    obtain ⟨word,isSome,rfl⟩ := List.mem_map.mp member
    obtain ⟨i,less,inside,isPlace,isBit⟩ := asks
    cases isPlace
    exact ⟨word,Option.mem_toList.mp isSome,i,List.mem_range.mpr less,inside,rfl,isBit⟩

theorem context_asks {id offset : Nat} {op : CmpOp} {value : Expr} {equality : Equality} {place : Place} {bit : Bool}
    (member : equality ∈ (Check.contextCheck id op value).equalities offset) (asks : equality.Asks layout place bit) :
    ∃ index, place = .context index := by
  obtain ⟨word,_,rfl⟩ := List.mem_map.mp member
  obtain ⟨i,_,rfl,_⟩ := asks
  exact ⟨_,rfl⟩

theorem token_asks {id offset : Nat} {op : CmpOp} {value : Expr} {equality : Equality} {place : Place} {bit : Bool}
    (member : equality ∈ (Check.tokenFieldCheck id op value).equalities offset) (asks : equality.Asks layout place bit) :
    ∃ index, place = .token index := by
  obtain ⟨word,_,rfl⟩ := List.mem_map.mp member
  obtain ⟨i,_,_,rfl,_⟩ := asks
  exact ⟨_,rfl⟩

theorem Check.constraint_bits {check : Check} {offset : Nat} {met : Bool}
    (run : check.constraint layout offset bits = .ok (met, bits')) :
    Constrains layout (check.equalities offset) bits bits' ∧
      (met = true → ∀ equality ∈ check.equalities offset, equality.Inside layout bits ∧
        ∀ place bit, equality.Asks layout place bit → bits'.Defines place bit) := by
  cases check with
  | tableBuild table =>
    cases run
    exact ⟨constrains_refl _,fun _ _ member => absurd member List.not_mem_nil⟩
  | contextCheck id op value =>
    obtain ⟨⟨met,context⟩,applied,run⟩ := bind_ok.mp run
    cases run
    obtain ⟨_,keeps,only,all⟩ := applyValue_bits applied
    refine ⟨⟨rfl,?_,?_⟩,?_⟩
    · intro place bit defined
      cases place with
      | context index => exact keeps index bit defined
      | token index => exact defined
    · intro place bit defined
      cases place with
      | context index => exact (only index bit defined).imp_right fun asked => (asked_context.mp asked).2
      | token index => exact Or.inl defined
    · intro isMet equality member
      refine ⟨?_,?_⟩
      · obtain ⟨word,_,rfl⟩ := List.mem_map.mp member
        trivial
      · intro place bit asks
        obtain ⟨index,rfl⟩ := context_asks member asks
        have inside : index < bits.context.length := by
          obtain ⟨word,_,rfl⟩ := List.mem_map.mp member
          obtain ⟨i,less,isPlace,_⟩ := asks
          cases isPlace
          exact (all isMet).1 i (List.mem_range.mpr less)
        exact (all isMet).2 index bit (asked_context.mpr ⟨inside,equality,member,asks⟩)
  | tokenFieldCheck id op value =>
    simp only [Check.constraint] at run
    split at run
    · cases run
    · rename_i inside
      obtain ⟨⟨met,token⟩,applied,run⟩ := bind_ok.mp run
      cases run
      obtain ⟨length,keeps,only,all⟩ := applyValue_bits applied
      refine ⟨⟨length,?_,?_⟩,?_⟩
      · intro place bit defined
        cases place with
        | context index => exact defined
        | token index => exact keeps index bit defined
      · intro place bit defined
        cases place with
        | context index => exact Or.inl defined
        | token index => exact (only index bit defined).imp_right asked_token.mp
      · intro isMet equality member
        refine ⟨?_,?_⟩
        · obtain ⟨word,_,rfl⟩ := List.mem_map.mp member
          exact ⟨Nat.le_of_not_lt inside,fun i less => (all isMet).1 i (List.mem_range.mpr less)⟩
        · intro place bit asks
          obtain ⟨index,rfl⟩ := token_asks member asks
          exact (all isMet).2 index bit (asked_token.mpr ⟨equality,member,asks⟩)

theorem Check.constraint_met {check : Check} {offset : Nat} {met : Bool} {known : Place → Bool → Prop}
    (run : check.constraint layout offset bits = .ok (met, bits'))
    (bounded : ∀ place bit, bits.Defines place bit → known place bit)
    (agrees : ∀ equality ∈ check.equalities offset, ∀ place bit bit', equality.Asks layout place bit →
      known place bit' → bit' = bit) : met = true := by
  cases check with
  | tableBuild table =>
    cases run
    rfl
  | contextCheck id op value =>
    obtain ⟨⟨met,context⟩,applied,run⟩ := bind_ok.mp run
    cases run
    apply @applyValue_met _ _ _ _ _ _ _ (fun index bit => known (.context index) bit) _ _ [] _ _ _ applied
    · exact fun index bit defined => Or.inl (bounded (.context index) bit defined)
    · intro index bit bit' asked isKnown
      obtain ⟨_,equality,member,asks⟩ := asked_context.mp asked
      exact agrees equality member _ bit bit' asks isKnown
    · exact fun i j _ _ same => Nat.add_left_cancel same
  | tokenFieldCheck id op value =>
    simp only [Check.constraint] at run
    split at run
    · cases run
    · obtain ⟨⟨met,token⟩,applied,run⟩ := bind_ok.mp run
      cases run
      apply @applyValue_met _ _ _ _ _ _ _ (fun index bit => known (.token index) bit) _ _ [] _ _ _ applied
      · exact fun index bit defined => Or.inl (bounded (.token index) bit defined)
      · intro index bit bit' asked isKnown
        obtain ⟨equality,member,asks⟩ := asked_token.mp asked
        exact agrees equality member _ bit bit' asks isKnown
      · exact fun i j iInside jInside same => Nat.add_left_cancel (tokenOrder_inj iInside jInside same)

-- What a variant defines are the equalities of its choice.
mutual

theorem Verification.constraint_bits : (verification : Verification BlockPhase2) → {offset variantId : Nat} →
    {bits bits' : ConstraintBits} → {met : Bool} → {choice : Choice} → verification.select variantId = some choice →
    verification.constraint layout offset variantId bits = .ok (met, bits') →
    Constrains layout (verification.equalities BlockPhase2.len offset choice) bits bits'
  | .check check, offset, variantId, bits, bits', met, choice, selected, run => (check.constraint_bits run).1
  | .subPattern pattern, offset, variantId, bits, bits', met, choice, selected, run => by
    obtain ⟨result,ran,run⟩ := bind_ok.mp run
    cases run
    exact patternConstraint_bits pattern selected ran

theorem allConstraint_bits : (verifications : List (Verification BlockPhase2)) → {offset variantId : Nat} →
    {bits bits' : ConstraintBits} → {met : Bool} → {choice : Choice} →
    allSelect variantId verifications = some choice →
    allConstraint layout offset variantId bits verifications = .ok (met, bits') →
    Constrains layout (allEqualities BlockPhase2.len offset choice verifications) bits bits'
  | [], offset, variantId, bits, bits', met, choice, selected, run => by
    cases run
    exact constrains_refl _
  | verification :: rest, offset, variantId, bits, bits', met, choice, selected, run => by
    obtain ⟨first,later,isFirst,isLater,rfl⟩ := both_some selected
    obtain ⟨⟨metFirst,middle⟩,ran,run⟩ := bind_ok.mp run
    have constrains := verification.constraint_bits isFirst ran
    cases metFirst with
    | false =>
      cases run
      exact constrains_mono constrains fun _ member => List.mem_append_left _ member
    | true => exact constrains_trans constrains (allConstraint_bits rest isLater run)

theorem branchConstraint_bits : (branches : List (Verification BlockPhase2)) →
    {offset variantId verificationId index : Nat} → {bits bits' : ConstraintBits} → {met : Bool} → {choice : Choice} →
    branchSelect variantId verificationId index branches = some choice →
    branchConstraint layout offset variantId verificationId bits branches = .ok (met, bits') →
    ∃ taken inner, choice = .branch (index + taken) inner ∧
      Constrains layout (branchEqualities BlockPhase2.len offset taken inner branches) bits bits'
  | [], offset, variantId, verificationId, index, bits, bits', met, choice, selected, run => by cases run
  | branch :: rest, offset, variantId, verificationId, index, bits, bits', met, choice, selected, run => by
    simp only [branchSelect] at selected
    simp only [branchConstraint] at run
    split at run
    · rename_i here
      rw [if_pos here] at selected
      obtain ⟨inner,isInner,rfl⟩ := Option.map_eq_some_iff.mp selected
      exact ⟨0,inner,rfl,branch.constraint_bits isInner run⟩
    · rename_i here
      rw [if_neg here] at selected
      obtain ⟨taken,inner,rfl,constrains⟩ := branchConstraint_bits rest selected run
      refine ⟨taken + 1,inner,?_,constrains⟩
      rw [Nat.add_assoc,Nat.add_comm 1]

theorem Block.constraint_bits : (block : Block BlockPhase2) → {offset variantId : Nat} → {bits bits' : ConstraintBits} →
    {met : Bool} → {choice : Choice} → block.select variantId = some choice →
    block.constraint layout offset variantId bits = .ok (met, bits') →
    Constrains layout (block.equalities BlockPhase2.len offset choice) bits bits'
  | .and _ verifications, offset, variantId, bits, bits', met, choice, selected, run =>
    allConstraint_bits verifications selected run
  | .or phase first rest, offset, variantId, bits, bits', met, choice, selected, run => by
    simp only [Block.select] at selected
    simp only [Block.constraint] at run
    split at run
    · rename_i here
      rw [if_pos here] at selected
      obtain ⟨inner,isInner,rfl⟩ := Option.map_eq_some_iff.mp selected
      exact first.constraint_bits isInner run
    · rename_i here
      rw [if_neg here] at selected
      obtain ⟨taken,inner,rfl,constrains⟩ := branchConstraint_bits rest selected run
      rw [Nat.add_comm 1]
      exact constrains

theorem patternConstraint_bits : (pattern : Pattern BlockPhase2) → {offset variantId : Nat} →
    {bits bits' : ConstraintBits} → {choice : Choice} → patternSelect variantId pattern = some choice →
    patternConstraint layout offset variantId bits pattern = .ok bits' →
    Constrains layout (patternEqualities BlockPhase2.len offset choice pattern) bits bits'
  | [], offset, variantId, bits, bits', choice, selected, run => by
    cases run
    exact constrains_refl _
  | block :: rest, offset, variantId, bits, bits', choice, selected, run => by
    obtain ⟨first,later,isFirst,isLater,rfl⟩ := both_some selected
    obtain ⟨⟨met,middle⟩,ran,run⟩ := bind_ok.mp run
    have constrains := block.constraint_bits isFirst ran
    simp only [singleLen_getD] at run
    split at run
    · cases run
    · exact constrains_trans constrains (patternConstraint_bits rest isLater run)

end

section Root

variable {len : φ → PatternLen}

theorem allRoot_snd (flat : Bool) (offset : Nat) (verifications : List (Verification φ)) :
    ∀ choice, (allRoot len flat offset choice verifications).map Prod.snd =
      allEqualities len offset choice verifications := by
  induction verifications with
  | nil => exact fun _ => rfl
  | cons verification rest ih =>
    intro choice
    cases choice with
    | done => rfl
    | branch index inner => rfl
    | both first later =>
      simp only [allRoot,allEqualities,List.map_append,ih later]
      cases verification with
      | check check => simp only [Verification.equalities,List.map_map,Function.comp_def,List.map_id']
      | subPattern pattern => simp only [Verification.equalities,List.map_map,Function.comp_def,List.map_id']

theorem Block.root_snd (flat : Bool) (offset : Nat) (choice : Choice) (block : Block φ) :
    (block.root len flat offset choice).map Prod.snd = block.equalities len offset choice := by
  cases block with
  | and phase verifications => exact allRoot_snd flat offset verifications choice
  | or phase first rest => simp only [Block.root,List.map_map,Function.comp_def,List.map_id']

theorem allRoot_unmarked {offset : Nat} {equality : Equality} (verifications : List (Verification φ)) :
    ∀ choice, (true, equality) ∉ allRoot len false offset choice verifications := by
  induction verifications with
  | nil => exact fun _ => List.not_mem_nil
  | cons verification rest ih =>
    intro choice member
    cases choice with
    | done => cases member
    | branch index inner => cases member
    | both first later =>
      rcases List.mem_append.mp member with member | member
      · cases verification with
        | check check =>
          obtain ⟨_,_,same⟩ := List.mem_map.mp member
          cases same
        | subPattern pattern =>
          obtain ⟨_,_,same⟩ := List.mem_map.mp member
          cases same
      · exact ih later member

theorem Block.root_unmarked {flat : Bool} {offset : Nat} {choice : Choice} {equality : Equality} {block : Block φ}
    (member : (true, equality) ∈ block.root len flat offset choice) :
    flat = true ∧ ∃ phase verifications, block = .and phase verifications := by
  cases block with
  | or phase first rest =>
    obtain ⟨_,_,same⟩ := List.mem_map.mp member
    cases same
  | and phase verifications =>
    cases flat with
    | false => exact absurd member (allRoot_unmarked verifications choice)
    | true => exact ⟨rfl,phase,verifications,rfl⟩

end Root

-- A marked equality agrees with all that come before it.
def Agreeing (layout : Layout) (marked : List (Bool × Equality)) : Prop :=
  marked.Pairwise fun equality other => other.1 = true → equality.2.Compatible layout other.2

def Bounded (layout : Layout) (marked : List (Bool × Equality)) (bits : ConstraintBits) : Prop :=
  ∀ place bit, bits.Defines place bit → ∃ equality ∈ marked.map Prod.snd, equality.Asks layout place bit

theorem bounded_constrains {marked more : List (Bool × Equality)} (bounded : Bounded layout marked bits)
    (constrains : Constrains layout (more.map Prod.snd) bits bits') : Bounded layout (marked ++ more) bits' := by
  intro place bit defined
  rw [List.map_append]
  rcases constrains.only place bit defined with before | ⟨equality,member,asks⟩
  · obtain ⟨equality,member,asks⟩ := bounded place bit before
    exact ⟨equality,List.mem_append_left _ member,asks⟩
  · exact ⟨equality,List.mem_append_right _ member,asks⟩

-- Where they agree, an and block of the flat pattern defines the bits of all its equalities.
theorem allRoot_defines {offset variantId : Nat} (verifications : List (Verification BlockPhase2)) :
    ∀ {bits bits' : ConstraintBits} {met : Bool} {choice : Choice} {earlier : List (Bool × Equality)},
      allSelect variantId verifications = some choice →
      allConstraint layout offset variantId bits verifications = .ok (met, bits') →
      Bounded layout earlier bits →
      Agreeing layout (earlier ++ allRoot BlockPhase2.len true offset choice verifications) →
      ∀ equality, (true, equality) ∈ allRoot BlockPhase2.len true offset choice verifications →
        equality.Inside layout bits ∧ ∀ place bit, equality.Asks layout place bit → bits'.Defines place bit := by
  induction verifications with
  | nil =>
    intro bits bits' met choice earlier selected run bounded agreeing equality member
    cases member
  | cons verification rest ih =>
    intro bits bits' met choice earlier selected run bounded agreeing equality member
    obtain ⟨first,later,isFirst,isLater,rfl⟩ := both_some selected
    obtain ⟨⟨metFirst,middle⟩,ran,run⟩ := bind_ok.mp run
    have constrains := verification.constraint_bits isFirst ran
    cases verification with
    | subPattern pattern =>
      obtain ⟨result,ranPattern,same⟩ := bind_ok.mp ran
      cases same
      simp only [allRoot] at agreeing member
      rw [← List.append_assoc] at agreeing
      rcases List.mem_append.mp member with member | member
      · obtain ⟨_,_,same⟩ := List.mem_map.mp member
        cases same
      · have boundedMiddle := @bounded_constrains _ _ _ _
          ((patternEqualities BlockPhase2.len offset first pattern).map (false, ·)) bounded
          (by simpa only [List.map_map,Function.comp_def,List.map_id',Verification.equalities] using constrains)
        obtain ⟨inside,defines⟩ := ih isLater run boundedMiddle agreeing equality member
        refine ⟨?_,defines⟩
        cases equality with
        | context id value => trivial
        | token start id value =>
          unfold Equality.Inside at inside
          rw [constrains.length] at inside
          exact inside
    | check check =>
      simp only [allRoot] at agreeing member
      rw [← List.append_assoc] at agreeing
      have metFirst : metFirst = true := by
        apply check.constraint_met ran bounded
        intro own isOwn place bit bit' asks known
        obtain ⟨other,isOther,asksOther⟩ := known
        obtain ⟨marked,isMarked,rfl⟩ := List.mem_map.mp isOther
        have pair := (List.pairwise_append.mp (List.pairwise_append.mp agreeing).1).2.2 marked isMarked (true, own)
          (List.mem_map.mpr ⟨own,isOwn,rfl⟩) rfl
        exact pair place bit' bit asksOther asks
      subst metFirst
      obtain ⟨_,all⟩ := check.constraint_bits ran
      have boundedMiddle := @bounded_constrains _ _ _ _ ((check.equalities offset).map (true, ·)) bounded
        (by simpa only [List.map_map,Function.comp_def,List.map_id',Verification.equalities] using constrains)
      rcases List.mem_append.mp member with member | member
      · obtain ⟨_,isOwn,same⟩ := List.mem_map.mp member
        cases same
        obtain ⟨inside,defines⟩ := all rfl equality isOwn
        refine ⟨inside,?_⟩
        intro place bit asks
        exact (allConstraint_bits rest isLater run).keeps place bit (defines place bit asks)
      · obtain ⟨inside,defines⟩ := ih isLater run boundedMiddle agreeing equality member
        refine ⟨?_,defines⟩
        cases equality with
        | context id value => trivial
        | token start id value =>
          unfold Equality.Inside at inside
          rw [constrains.length] at inside
          exact inside

theorem root_defines {variantId : Nat} (pattern : Pattern BlockPhase2) :
    ∀ {flat : Bool} {offset : Nat} {bits bits' : ConstraintBits} {choice : Choice} {earlier : List (Bool × Equality)},
      patternSelect variantId pattern = some choice →
      patternConstraint layout offset variantId bits pattern = .ok bits' →
      Bounded layout earlier bits →
      Agreeing layout (earlier ++ rootEqualities BlockPhase2.len flat offset choice pattern) →
      ∀ equality, (true, equality) ∈ rootEqualities BlockPhase2.len flat offset choice pattern →
        equality.Inside layout bits ∧ ∀ place bit, equality.Asks layout place bit → bits'.Defines place bit := by
  induction pattern with
  | nil =>
    intro flat offset bits bits' choice earlier selected run bounded agreeing equality member
    cases member
  | cons block rest ih =>
    intro flat offset bits bits' choice earlier selected run bounded agreeing equality member
    obtain ⟨first,later,isFirst,isLater,rfl⟩ := both_some selected
    obtain ⟨⟨met,middle⟩,ran,run⟩ := bind_ok.mp run
    have constrains := block.constraint_bits isFirst ran
    rw [← block.root_snd flat] at constrains
    simp only [singleLen_getD] at run
    split at run
    · cases run
    · simp only [rootEqualities] at agreeing member
      rw [← List.append_assoc] at agreeing
      rcases List.mem_append.mp member with member | member
      · obtain ⟨rfl,phase,verifications,rfl⟩ := Block.root_unmarked member
        obtain ⟨inside,defines⟩ :=
          allRoot_defines verifications isFirst ran bounded (List.pairwise_append.mp agreeing).1 equality member
        refine ⟨inside,?_⟩
        intro place bit asks
        exact (patternConstraint_bits rest isLater run).keeps place bit (defines place bit asks)
      · obtain ⟨inside,defines⟩ :=
          ih isLater run (bounded_constrains bounded constrains) agreeing equality member
        refine ⟨?_,defines⟩
        cases equality with
        | context id value => trivial
        | token start id value =>
          unfold Equality.Inside at inside
          rw [constrains.length] at inside
          exact inside

end Constrains

-- The masks compare the defined bits.
section Masks

variable {bits : List BitConstraint} {tokens : List UInt8}

theorem definedAt_zero {first : BitConstraint} {bit : Bool} :
    DefinedAt (first :: bits) 0 bit ↔ first = .defined bit :=
  definedAt_found List.getElem?_cons_zero

theorem definedAt_succ {first : BitConstraint} {index : Nat} {bit : Bool} :
    DefinedAt (first :: bits) (index + 1) bit ↔ DefinedAt bits index bit := by
  unfold DefinedAt
  rw [List.getElem?_cons_succ]

theorem testBit_double (n index : Nat) : (2 * n).testBit (index + 1) = n.testBit index := by
  rw [Nat.testBit_succ,Nat.mul_div_cancel_left n Nat.two_pos]

theorem testBit_double_one (n index : Nat) : (2 * n + 1).testBit (index + 1) = n.testBit index := by
  rw [Nat.testBit_succ]
  congr 1
  omega

theorem maskOf_testBit : ∀ index, (maskOf bits).testBit index = true ↔ ∃ bit, DefinedAt bits index bit := by
  induction bits with
  | nil =>
    intro index
    simp [maskOf,DefinedAt]
  | cons first rest ih =>
    intro index
    cases index with
    | zero => cases first <;> simp [maskOf,definedAt_zero]
    | succ index =>
      cases first <;> simp only [maskOf,testBit_double,testBit_double_one,definedAt_succ,ih]

theorem valueOf_testBit : ∀ index, (valueOf bits).testBit index = true ↔ DefinedAt bits index true := by
  induction bits with
  | nil =>
    intro index
    simp [valueOf,DefinedAt]
  | cons first rest ih =>
    intro index
    cases index with
    | zero =>
      cases first with
      | defined bit => cases bit <;> simp [valueOf,definedAt_zero]
      | unrestrained => simp [valueOf,definedAt_zero]
      | restrained => simp [valueOf,definedAt_zero]
    | succ index =>
      cases first with
      | defined bit =>
        cases bit <;> simp only [valueOf,testBit_double,testBit_double_one,definedAt_succ,ih]
      | unrestrained => simp only [valueOf,testBit_double,definedAt_succ,ih]
      | restrained => simp only [valueOf,testBit_double,definedAt_succ,ih]

theorem definedAt_unique {index : Nat} {bit bit' : Bool} (defined : DefinedAt bits index bit)
    (defined' : DefinedAt bits index bit') : bit = bit' :=
  BitConstraint.defined.inj (Option.some_inj.mp (defined.symm.trans defined'))

theorem masked_iff (x : Nat) :
    x &&& maskOf bits = valueOf bits ↔ ∀ index bit, DefinedAt bits index bit → x.testBit index = bit := by
  constructor
  · intro same index bit defined
    have here := congrArg (·.testBit index) same
    simp only [Nat.testBit_and,maskOf_testBit index |>.mpr ⟨bit,defined⟩,Bool.and_true] at here
    cases bit with
    | true => exact here.trans (valueOf_testBit index |>.mpr defined)
    | false =>
      rw [here]
      apply Bool.eq_false_iff.mpr
      intro isTrue
      exact absurd (definedAt_unique (valueOf_testBit index |>.mp isTrue) defined) (by decide)
  · intro agrees
    apply Nat.eq_of_testBit_eq
    intro index
    rw [Nat.testBit_and]
    apply Bool.eq_iff_iff.mpr
    rw [Bool.and_eq_true,maskOf_testBit,valueOf_testBit]
    constructor
    · rintro ⟨isSet,bit,defined⟩
      rw [← agrees index bit defined,isSet] at defined
      exact defined
    · intro defined
      exact ⟨agrees index true defined,true,defined⟩

theorem definedAt_byte {byte index : Nat} {bit : Bool} :
    DefinedAt ((bits.drop (8 * byte)).take 8) index bit ↔ index < 8 ∧ DefinedAt bits (8 * byte + index) bit := by
  unfold DefinedAt
  rw [List.getElem?_take]
  split
  · rename_i inside
    rw [List.getElem?_drop]
    exact ⟨fun defined => ⟨inside,defined⟩,fun defined => defined.2⟩
  · rename_i outside
    exact ⟨nofun,fun defined => absurd defined.1 outside⟩

theorem tokenConstraint_ok {bytes : List (Nat × Nat)} :
    ∀ {i : Nat}, i + bytes.length ≤ tokens.length →
      ∃ holds, tokenConstraint tokens i bytes = .ok holds ∧
        (holds = true ↔ ∀ j mask value, bytes[j]? = some (mask, value) → mask ≠ 0 →
          (tokens.getD (i + j) 0).toNat &&& mask = value) := by
  induction bytes with
  | nil =>
    intro i _
    refine ⟨true,rfl,fun _ j mask value found => ?_,fun _ => rfl⟩
    cases found
  | cons first rest ih =>
    intro i enough
    obtain ⟨mask,value⟩ := first
    rw [List.length_cons] at enough
    obtain ⟨holds,run,iff⟩ := @ih (i + 1) (by omega)
    have rest_iff : (∀ j mask value, rest[j]? = some (mask, value) → mask ≠ 0 →
        (tokens.getD (i + 1 + j) 0).toNat &&& mask = value) ↔
        ∀ j mask' value', ((mask, value) :: rest)[j + 1]? = some (mask', value') → mask' ≠ 0 →
          (tokens.getD (i + (j + 1)) 0).toNat &&& mask' = value' := by
      simp only [List.getElem?_cons_succ,Nat.add_assoc,Nat.add_comm 1]
    rw [rest_iff] at iff
    unfold tokenConstraint
    by_cases none : mask = 0
    · rw [if_pos none]
      refine ⟨holds,run,iff.trans ⟨?_,?_⟩⟩
      · intro all j mask' value' found nonzero
        cases j with
        | zero =>
          cases found
          exact absurd none nonzero
        | succ j => exact all j mask' value' found nonzero
      · exact fun all j => all (j + 1)
    · rw [if_neg none]
      have inside : i < tokens.length := by omega
      have byte : tokens.getD i 0 = tokens[i] := by
        rw [List.getD_eq_getElem?_getD,List.getElem?_eq_getElem inside,Option.getD_some]
      rw [List.getElem?_eq_getElem inside]
      simp only []
      rw [← byte]
      by_cases here : (tokens.getD i 0).toNat &&& mask = value
      · rw [if_pos here]
        refine ⟨holds,run,iff.trans ⟨?_,?_⟩⟩
        · intro all j mask' value' found nonzero
          cases j with
          | zero =>
            cases found
            exact here
          | succ j => exact all j mask' value' found nonzero
        · exact fun all j => all (j + 1)
      · rw [if_neg here]
        refine ⟨false,rfl,nofun,?_⟩
        intro all
        exact absurd (all 0 mask value rfl none) here

theorem patternBytes_get {byte : Nat} (inside : byte < (bits.length + 7) / 8) :
    (patternBytes bits)[byte]? = some (maskOf ((bits.drop (8 * byte)).take 8), valueOf ((bits.drop (8 * byte)).take 8)) := by
  unfold patternBytes
  rw [List.getElem?_map,List.getElem?_range inside]
  rfl

-- On tokens that are as long as the pattern, the masks hold exactly when each defined bit is that of the input.
theorem ConstraintBits.applies_iff {bits : ConstraintBits} {context : BitVec width}
    (enough : (bits.token.length + 7) / 8 ≤ tokens.length) :
    ∃ holds, bits.applies tokens context = .ok holds ∧
      (holds = true ↔ ∀ place bit, bits.Defines place bit → inputBit tokens context place = bit) := by
  have length : (patternBytes bits.token).length = (bits.token.length + 7) / 8 := by
    unfold patternBytes
    rw [List.length_map,List.length_range]
  obtain ⟨holds,run,iff⟩ := @tokenConstraint_ok tokens (patternBytes bits.token) 0 (by omega)
  have bytes_iff : (∀ j mask value, (patternBytes bits.token)[j]? = some (mask, value) → mask ≠ 0 →
      (tokens.getD (0 + j) 0).toNat &&& mask = value) ↔
      ∀ index bit, DefinedAt bits.token index bit → inputBit tokens context (.token index) = bit := by
    constructor
    · intro all index bit defined
      have inside := (List.getElem?_eq_some_iff.mp defined).1
      have isByte : index / 8 < (bits.token.length + 7) / 8 := by omega
      have found := patternBytes_get isByte
      have own : DefinedAt ((bits.token.drop (8 * (index / 8))).take 8) (index % 8) bit := by
        apply definedAt_byte.mpr
        refine ⟨Nat.mod_lt _ (by decide),?_⟩
        rw [Nat.div_add_mod]
        exact defined
      have nonzero : maskOf ((bits.token.drop (8 * (index / 8))).take 8) ≠ 0 := by
        intro none
        have isSet := (maskOf_testBit (index % 8)).mpr ⟨bit,own⟩
        rw [none,Nat.zero_testBit] at isSet
        cases isSet
      have masked := all (index / 8) _ _ found nonzero
      rw [Nat.zero_add] at masked
      exact (masked_iff _).mp masked (index % 8) bit own
    · intro all j mask value found _
      have inside : j < (bits.token.length + 7) / 8 := by
        rw [← length]
        exact (List.getElem?_eq_some_iff.mp found).1
      rw [patternBytes_get inside] at found
      cases found
      rw [Nat.zero_add]
      apply (masked_iff _).mpr
      intro index bit own
      obtain ⟨small,defined⟩ := definedAt_byte.mp own
      have isBit := all (8 * j + index) bit defined
      have isByte : (8 * j + index) / 8 = j := by omega
      have isIndex : (8 * j + index) % 8 = index := by omega
      simp only [inputBit,isByte,isIndex] at isBit
      exact isBit
  have context_iff : context.toNat &&& maskOf bits.context = valueOf bits.context ↔
      ∀ index bit, DefinedAt bits.context index bit → inputBit tokens context (.context index) = bit :=
    masked_iff context.toNat
  unfold ConstraintBits.applies
  split
  · rename_i inContext
    refine ⟨holds,run,(iff.trans bytes_iff).trans ⟨?_,?_⟩⟩
    · intro inTokens place bit defined
      cases place with
      | context index => exact context_iff.mp inContext index bit defined
      | token index => exact inTokens index bit defined
    · exact fun all index bit defined => all (.token index) bit defined
  · rename_i outside
    refine ⟨false,rfl,nofun,?_⟩
    intro all
    exact absurd (context_iff.mpr fun index bit defined => all (.context index) bit defined) outside

end Masks

end Rsleigh.Semantic.Variants
