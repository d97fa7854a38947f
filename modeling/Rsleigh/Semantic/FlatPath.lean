import Rsleigh.Semantic.FlatAgreement

namespace Rsleigh.Semantic.Variants

open Decode Fallible

variable {layout : Layout} {tableLen : Nat → PatternLen} {instStart : Nat}
variable {parseTable : Nat → List UInt8 → layout.Context → Except Failure (Nat × τ × layout.Context)}

namespace RootPattern

-- The equalities of a choice hold of an input.
def Meets (layout : Layout) (root : RootPattern) (choice : Choice) (input : Place → Bool) : Prop :=
  ∀ equality ∈ patternEqualities BlockCode.len 0 choice root.pattern, equality.Holds layout input

-- The condition: nothing changes a context field before it is compared with a literal; token fields are compared with
-- literals only where all blocks before have a single length; the literals of the flat pattern are values of their
-- fields, and agree with the equalities before them; each choice of branches asks for all
-- that some variant asks for.
structure Sound (layout : Layout)
    (parseTable : Nat → List UInt8 → layout.Context → Except Failure (Nat × τ × layout.Context))
    (root : RootPattern) : Prop where
  steady : rootSteady layout parseTable root.blocks
  anchored : patternAnchored root.pattern
  fits : ∀ choice ∈ patternChoices root.pattern, ∀ equality,
    (true, equality) ∈ rootEqualities BlockCode.len true 0 choice root.pattern → equality.Fits layout
  agreeing : ∀ choice ∈ patternChoices root.pattern,
    Agreeing layout (rootEqualities BlockCode.len true 0 choice root.pattern)
  covered : ∀ choice ∈ patternChoices root.pattern,
    ∃ variantId < variantsNum (calculateBits 0 (patternPhase1 root.pattern)), ∃ taken,
      patternSelect variantId (calculateBits 0 (patternPhase1 root.pattern)) = some taken ∧
        ∀ input, root.Meets layout choice input → root.Meets layout taken input

end RootPattern

theorem variantsBits_ok {least : Nat} {pattern : Pattern BlockPhase2} {ids : List Nat} :
    ∀ {variants : List ConstraintBits}, variantsBits layout least pattern ids = .ok variants →
      (∀ bits ∈ variants, ∃ id ∈ ids, patternConstraint layout 0 id (freshBits layout least) pattern = .ok bits) ∧
      ∀ id ∈ ids, ∃ bits ∈ variants, patternConstraint layout 0 id (freshBits layout least) pattern = .ok bits := by
  induction ids with
  | nil =>
    intro variants run
    cases run
    exact ⟨fun _ member => absurd member List.not_mem_nil,fun _ member => absurd member List.not_mem_nil⟩
  | cons id rest ih =>
    intro variants run
    obtain ⟨bits,ran,run⟩ := bind_ok.mp run
    obtain ⟨others,ranRest,run⟩ := bind_ok.mp run
    cases run
    obtain ⟨each,all⟩ := ih ranRest
    refine ⟨?_,?_⟩
    · intro other member
      rcases List.mem_cons.mp member with rfl | member
      · exact ⟨id,List.mem_cons_self ..,ran⟩
      · obtain ⟨found,isId,ranOther⟩ := each other member
        exact ⟨found,List.mem_cons_of_mem _ isId,ranOther⟩
    · intro other member
      rcases List.mem_cons.mp member with rfl | member
      · exact ⟨bits,List.mem_cons_self ..,ran⟩
      · obtain ⟨found,isBits,ranOther⟩ := all other member
        exact ⟨found,List.mem_cons_of_mem _ isBits,ranOther⟩

theorem fresh_undefined {least : Nat} {place : Place} {bit : Bool} : ¬ (freshBits layout least).Defines place bit := by
  have none : ∀ count index, ¬ DefinedAt (List.replicate count .unrestrained) index bit := by
    intro count index defined
    unfold DefinedAt at defined
    rw [List.getElem?_replicate] at defined
    split at defined
    · cases defined
    · cases defined
  cases place with
  | context index => exact none _ index
  | token index => exact none _ index

theorem fresh_length (least : Nat) : (freshBits layout least).token.length = 8 * least :=
  List.length_replicate

section TryVariants

variable {root : RootPattern} {debug : Bool} {tokens : List UInt8} {context : layout.Context}
  {variant : ConstraintBits} {rest : List ConstraintBits}

theorem tryVariants_short (short : tokens.length < root.len.least) :
    root.tryVariants layout debug parseTable instStart tokens context (variant :: rest) =
      root.tryVariants layout debug parseTable instStart tokens context rest := if_pos short

theorem tryVariants_refused (enough : root.len.least ≤ tokens.length)
    (entered : variant.entry layout debug tokens context = .ok false) :
    root.tryVariants layout debug parseTable instStart tokens context (variant :: rest) =
      root.tryVariants layout debug parseTable instStart tokens context rest := by
  rw [RootPattern.tryVariants,if_neg (Nat.not_lt_of_le enough),entered]
  rfl

theorem tryVariants_noMatch (enough : root.len.least ≤ tokens.length)
    (entered : variant.entry layout debug tokens context = .ok true)
    (failed : root.parse layout.sleigh parseTable instStart debug tokens context = .error .noMatch) :
    root.tryVariants layout debug parseTable instStart tokens context (variant :: rest) =
      root.tryVariants layout debug parseTable instStart tokens context rest := by
  rw [RootPattern.tryVariants,if_neg (Nat.not_lt_of_le enough),entered,failed]
  rfl

theorem tryVariants_entered (enough : root.len.least ≤ tokens.length)
    (entered : variant.entry layout debug tokens context = .ok true)
    (matches_ : root.parse layout.sleigh parseTable instStart debug tokens context ≠ .error .noMatch) :
    root.tryVariants layout debug parseTable instStart tokens context (variant :: rest) =
      root.parse layout.sleigh parseTable instStart debug tokens context := by
  rw [RootPattern.tryVariants,if_neg (Nat.not_lt_of_le enough),entered]
  cases ran : root.parse layout.sleigh parseTable instStart debug tokens context with
  | ok result => rfl
  | error failure =>
    cases failure with
    | noMatch => exact absurd ran matches_
    | _ => rfl

-- A constructor matches when some entry applies and the parser succeeds.
theorem tryVariants_ok {result : Nat × ConstructorStruct (Nat × τ) × layout.Context} {variants : List ConstraintBits}
    (entries : root.len.least ≤ tokens.length →
      ∀ variant ∈ variants, ∃ holds, variant.entry layout debug tokens context = .ok holds) :
    root.tryVariants layout debug parseTable instStart tokens context variants = .ok result ↔
      root.len.least ≤ tokens.length ∧ (∃ variant ∈ variants, variant.entry layout debug tokens context = .ok true) ∧
        root.parse layout.sleigh parseTable instStart debug tokens context = .ok result := by
  induction variants with
  | nil =>
    constructor
    · intro isError
      cases isError
    · intro parts
      obtain ⟨_,⟨_,member,_⟩,_⟩ := parts
      cases member
  | cons variant rest ih =>
    have later := ih fun enough other member => entries enough other (List.mem_cons_of_mem _ member)
    by_cases short : tokens.length < root.len.least
    · rw [tryVariants_short short,later]
      constructor
      · exact fun parts => absurd parts.1 (Nat.not_le_of_lt short)
      · exact fun parts => absurd parts.1 (Nat.not_le_of_lt short)
    · have enough := Nat.le_of_not_lt short
      obtain ⟨holds,entered⟩ := entries enough variant (List.mem_cons_self ..)
      cases holds with
      | false =>
        rw [tryVariants_refused enough entered,later]
        constructor
        · rintro ⟨_,⟨other,member,applies⟩,parsed⟩
          exact ⟨enough,⟨other,List.mem_cons_of_mem _ member,applies⟩,parsed⟩
        · rintro ⟨_,⟨other,member,applies⟩,parsed⟩
          rcases List.mem_cons.mp member with rfl | member
          · rw [entered] at applies
            cases applies
          · exact ⟨enough,⟨other,member,applies⟩,parsed⟩
      | true =>
        by_cases failed : root.parse layout.sleigh parseTable instStart debug tokens context = .error .noMatch
        · rw [tryVariants_noMatch enough entered failed,later,failed]
          constructor
          · intro parts
            cases parts.2.2
          · intro parts
            cases parts.2.2
        · rw [tryVariants_entered enough entered failed]
          constructor
          · exact fun parsed => ⟨enough,⟨variant,List.mem_cons_self ..,entered⟩,parsed⟩
          · exact fun parts => parts.2.2

end TryVariants

theorem parse_blocks {root : RootPattern} {debug : Bool} {tokens : List UInt8} {context : layout.Context}
    {result : Nat × ConstructorStruct (Nat × τ) × layout.Context}
    (parsed : root.parse layout.sleigh parseTable instStart debug tokens context = .ok result) :
    ∃ matching, rootParse layout.sleigh parseTable instStart (!debug) root.blocks (.start tokens context) =
        .ok matching ∧
      ∀ other, rootParse layout.sleigh parseTable instStart (!other) root.blocks (.start tokens context) =
          .ok matching → root.parse layout.sleigh parseTable instStart other tokens context = .ok result := by
  obtain ⟨matching,ran,parsed⟩ := bind_ok.mp parsed
  exact ⟨matching,ran,fun other ranOther => bind_ok.mpr ⟨matching,ranOther,parsed⟩⟩

section Decides

variable {root : RootPattern} {variants : List ConstraintBits} {tokens : List UInt8} {context : layout.Context}
variable {result : Nat × ConstructorStruct (Nat × τ) × layout.Context}

theorem variant_choice (isVariants : root.variants layout = .ok variants) {bits : ConstraintBits}
    (member : bits ∈ variants) :
    ∃ id choice, patternSelect id (calculateBits 0 (patternPhase1 root.pattern)) = some choice ∧
      choice ∈ patternChoices root.pattern ∧
      patternConstraint layout 0 id (freshBits layout root.len.least)
        (calculateBits 0 (patternPhase1 root.pattern)) = .ok bits := by
  obtain ⟨id,_,ran⟩ := (variantsBits_ok isVariants).1 bits member
  obtain ⟨choice,isChoice,decoded⟩ := patternDecode_some (patternPhase1 root.pattern) 1 id
  refine ⟨id,choice,?_,?_,ran⟩
  · rw [select_root]
    exact decoded
  · rw [patternChoices_phase1] at isChoice
    exact isChoice

theorem variant_length (isVariants : root.variants layout = .ok variants) {bits : ConstraintBits}
    (member : bits ∈ variants) : bits.token.length = 8 * root.len.least := by
  obtain ⟨id,choice,selected,_,ran⟩ := variant_choice isVariants member
  rw [(patternConstraint_bits _ selected ran).length,fresh_length]

theorem variant_applies (isVariants : root.variants layout = .ok variants) (enough : root.len.least ≤ tokens.length)
    {variant : ConstraintBits} (member : variant ∈ variants) :
    ∃ holds, variant.applies tokens context = .ok holds ∧
      (holds = true ↔ ∀ place bit, variant.Defines place bit → inputBit tokens context place = bit) := by
  apply ConstraintBits.applies_iff
  rw [variant_length isVariants member]
  omega

theorem variant_entries (isVariants : root.variants layout = .ok variants) (debug : Bool)
    (enough : root.len.least ≤ tokens.length) :
    ∀ variant ∈ variants, ∃ holds, variant.entry layout debug tokens context = .ok holds := by
  intro variant member
  cases debug with
  | true => exact ⟨true,rfl⟩
  | false =>
    obtain ⟨holds,applied,_⟩ := variant_applies isVariants enough member
    exact ⟨holds,applied⟩

theorem full_of_flat (within : TablesWithin parseTable tableLen) (solved : patternSolved layout tableLen root.pattern)
    (sound : root.Sound layout parseTable) (isVariants : root.variants layout = .ok variants)
    (enough : root.len.least ≤ tokens.length) {variant : ConstraintBits} (member : variant ∈ variants)
    (applies : variant.applies tokens context = .ok true)
    (parsed : root.parse layout.sleigh parseTable instStart false tokens context = .ok result) :
    root.parse layout.sleigh parseTable instStart true tokens context = .ok result := by
  obtain ⟨id,choice,selected,isChoice,ran⟩ := variant_choice isVariants member
  have freshLength := @fresh_length layout root.len.least
  obtain ⟨holds,applied,accepts⟩ := variant_applies isVariants enough member
  rw [applied] at applies
  have accepted := accepts.mp (Except.ok.inj applies)
  have agreeing : Agreeing layout ([] ++ rootEqualities BlockPhase2.len true 0 choice
      (calculateBits 0 (patternPhase1 root.pattern))) := by
    unfold calculateBits
    rw [List.nil_append,rootEqualities_phase2]
    exact sound.agreeing choice isChoice
  have defines := root_defines (calculateBits 0 (patternPhase1 root.pattern)) selected ran
    (fun _ _ defined => absurd defined fresh_undefined) agreeing
  unfold calculateBits at defines
  rw [rootEqualities_phase2] at defines
  obtain ⟨matching,ranFlat,again⟩ := parse_blocks parsed
  apply again true
  have placed : true = true → (Matching.start tokens context : Matching layout.Context (Nat × τ)).tokens =
      tokens.drop 0 := fun _ => rfl
  apply rootParse_full within (Nat.le_trans (Nat.le_of_eq freshLength) (Nat.mul_le_mul_left 8 enough)) isChoice _
    sound.steady solved (fun _ _ => rfl) placed ranFlat
  intro equality marked
  obtain ⟨inside,asked⟩ := defines equality marked
  refine ⟨sound.fits choice isChoice equality marked,inside,?_⟩
  exact fun place bit asks => accepted place bit (asked place bit asks)

theorem flat_of_full (within : TablesWithin parseTable tableLen) (solved : patternSolved layout tableLen root.pattern)
    (sound : root.Sound layout parseTable) (isVariants : root.variants layout = .ok variants)
    (enough : root.len.least ≤ tokens.length)
    (parsed : root.parse layout.sleigh parseTable instStart true tokens context = .ok result) :
    (∃ variant ∈ variants, variant.applies tokens context = .ok true) ∧
      root.parse layout.sleigh parseTable instStart false tokens context = .ok result := by
  obtain ⟨matching,ranFull,again⟩ := parse_blocks parsed
  refine ⟨?_,again false (rootParse_flat ranFull)⟩
  have placed : patternComparesToken root.pattern →
      (Matching.start tokens context : Matching layout.Context (Nat × τ)).tokens = tokens.drop 0 := fun _ => rfl
  obtain ⟨choice,isChoice,holds⟩ :=
    rootParse_choice within sound.steady solved sound.anchored (fun _ _ => rfl) placed ranFull
  obtain ⟨id,isVariant,taken,selected,weaker⟩ := sound.covered choice isChoice
  obtain ⟨variant,member,ran⟩ := (variantsBits_ok isVariants).2 id (List.mem_range.mpr isVariant)
  obtain ⟨accepted,applied,accepts⟩ := variant_applies isVariants enough member
  have all : accepted = true := by
    apply accepts.mpr
    intro place bit defined
    rcases (patternConstraint_bits _ selected ran).only place bit defined with before | ⟨equality,isEquality,asks⟩
    · exact absurd before fresh_undefined
    · unfold calculateBits at isEquality
      rw [patternEqualities_phase2] at isEquality
      exact weaker (inputBit tokens context) holds equality isEquality place bit asks
  rw [all] at applied
  exact ⟨variant,member,applied⟩

end Decides

-- For a constructor that meets the condition, the masks with the flat parser match what the full parser matches.
theorem flat_decides (within : TablesWithin parseTable tableLen) {root : RootPattern}
    (solved : patternSolved layout tableLen root.pattern) (sound : root.Sound layout parseTable) (tokens : List UInt8)
    (context : layout.Context) (result : Nat × ConstructorStruct (Nat × τ) × layout.Context) :
    root.match_ layout false parseTable instStart tokens context = .ok result ↔
      root.match_ layout true parseTable instStart tokens context = .ok result := by
  constructor
  · intro matched
    obtain ⟨variants,isVariants,tried⟩ := bind_ok.mp matched
    obtain ⟨enough,⟨variant,member,applies⟩,parsed⟩ := (tryVariants_ok (variant_entries isVariants false)).mp tried
    apply bind_ok.mpr
    refine ⟨variants,isVariants,(tryVariants_ok (variant_entries isVariants true)).mpr ⟨enough,⟨variant,member,rfl⟩,?_⟩⟩
    exact full_of_flat within solved sound isVariants enough member applies parsed
  · intro matched
    obtain ⟨variants,isVariants,tried⟩ := bind_ok.mp matched
    obtain ⟨enough,_,parsed⟩ := (tryVariants_ok (variant_entries isVariants true)).mp tried
    obtain ⟨accepts,flat⟩ := flat_of_full within solved sound isVariants enough parsed
    apply bind_ok.mpr
    exact ⟨variants,isVariants,(tryVariants_ok (variant_entries isVariants false)).mpr ⟨enough,accepts,flat⟩⟩

theorem byte_positive : 0 < 8 := Nat.succ_pos 7

theorem byte_short : 8 ≤ 64 := Nat.le_add_right 8 56

-- A byte as the only token field, and no context.
def byteLayout : Layout where
  addrBits := 32
  tokenField := fun _ => {
    tokenLen := 1
    bigEndian := false
    start := 0
    len := 8
    attach := .noAttach false
    positive := byte_positive
    short := byte_short
  }
  memory := {
    memoryBits := 0
    width := 8
    field := fun _ => ⟨0, 0, false⟩
    inside := fun _ => Nat.zero_le 8
    narrow := Nat.le_add_right 8 120
  }

def byteIs (value : Int) : Verification BlockCode :=
  .check (.tokenFieldCheck 0 .eq (.value (.integer value)))

def byteBlock (verifications : List (Verification BlockCode)) : RootBlock where
  block := .and ⟨.defined 1, [1], []⟩ verifications
  pre := []
  pos := []

def tableBlock : RootBlock where
  block := .and ⟨.range 1 2, [], []⟩ [.check (.tableBuild 0)]
  pre := []
  pos := []

-- A table of two bytes.
def twoBytes : Nat → List UInt8 → byteLayout.Context → Except Failure (Nat × Unit × byteLayout.Context) :=
  fun _ _ context => .ok (2, (), context)

theorem twoBytes_within : TablesWithin twoBytes fun _ => .defined 2 := by
  intro table tokens context len parsed after found
  cases found
  refine ⟨Nat.le_refl _,?_⟩
  intro most bounded
  cases bounded
  exact Nat.le_refl _

-- `byte=1; byte=5`.
def oneThenFive : RootPattern where
  len := .defined 2
  blocks := [byteBlock [byteIs 1], byteBlock [byteIs 5]]
  pos := []

def oneThenFiveChoice : Choice :=
  .both (.both .done .done) (.both (.both .done .done) .done)

theorem oneThenFive_choice {choice : Choice} (member : choice ∈ patternChoices oneThenFive.pattern) :
    choice = oneThenFiveChoice :=
  List.mem_singleton.mp member

theorem oneThenFive_sound : oneThenFive.Sound byteLayout twoBytes where
  steady := ⟨nofun,⟨trivial,trivial⟩,nofun,nofun,⟨trivial,trivial⟩,nofun,trivial⟩
  anchored := ⟨⟨trivial,trivial⟩,fun _ => rfl,⟨trivial,trivial⟩,fun _ => rfl,trivial⟩
  fits := by
    intro choice member equality marked
    rw [oneThenFive_choice member] at marked
    rcases List.mem_cons.mp marked with same | marked
    · cases same
      exact ⟨1,by decide,rfl⟩
    · cases List.mem_singleton.mp marked
      exact ⟨5,by decide,rfl⟩
  agreeing := by
    intro choice member
    rw [oneThenFive_choice member]
    apply List.pairwise_pair.mpr
    intro _ place bit bit' asks asks'
    obtain ⟨i,less,_,rfl,_⟩ := asks
    obtain ⟨j,_,_,same,_⟩ := asks'
    have sameBit := Place.token.inj same
    change 8 * 0 + (0 + i) = 8 * 1 + (0 + j) at sameBit
    change i < 8 at less
    omega
  covered := by
    intro choice member
    rw [oneThenFive_choice member]
    exact ⟨0,by decide,oneThenFiveChoice,rfl,fun _ meets => meets⟩

theorem flat_decides_bytes :
    ∃ result, oneThenFive.match_ byteLayout false twoBytes 0 [1, 5] 0 = .ok result ∧
      oneThenFive.match_ byteLayout true twoBytes 0 [1, 5] 0 = .ok result := by
  have solved : patternSolved byteLayout (fun _ => .defined 2) oneThenFive.pattern :=
    ⟨⟨rfl,trivial,trivial⟩,⟨rfl,trivial,trivial⟩,trivial⟩
  exact ⟨_,rfl,(flat_decides twoBytes_within solved oneThenFive_sound [1, 5] 0 _).mp rfl⟩

-- `byte=1 & byte=2` matches the byte 1: the masks stop at the second value, and the parser checks neither. After a table
-- of one or two bytes, the masks look for `byte=5` in the second byte.
theorem flat_decides_otherwise :
    (∃ result, RootPattern.match_ byteLayout false twoBytes 0 ⟨.defined 1, [byteBlock [byteIs 1,byteIs 2]], []⟩ [1] 0 =
        .ok result) ∧
      RootPattern.match_ byteLayout true twoBytes 0 ⟨.defined 1, [byteBlock [byteIs 1,byteIs 2]], []⟩ [1] 0 =
        .error .noMatch ∧
      (∃ result, RootPattern.match_ byteLayout true twoBytes 0 ⟨.range 2 3, [tableBlock, byteBlock [byteIs 5]], []⟩
        [0, 0, 5] 0 = .ok result) ∧
      RootPattern.match_ byteLayout false twoBytes 0 ⟨.range 2 3, [tableBlock, byteBlock [byteIs 5]], []⟩ [0, 0, 5] 0 =
        .error .noMatch :=
  ⟨⟨_,rfl⟩,rfl,⟨_,rfl⟩,rfl⟩

end Rsleigh.Semantic.Variants
