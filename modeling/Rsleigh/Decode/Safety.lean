import Rsleigh.Decode.Bounds

namespace Rsleigh.Decode

open Fallible

variable {χ : Type}

namespace Specification

variable {specification : Specification χ} {parse : Nat → List UInt8 → χ → Except Failure (Nat × Parsed × χ)}
variable {instStart : Nat}

-- A matched block moves over its own length, which is that of its tokens and its longest table.
structure Passed (block : AndBlock χ) (matching matching' : Matching χ Parsed) (tables : List Parsed) : Prop where
  within : block.len.Within (blockLen (block.own,tables))
  inside : blockLen (block.own,tables) ≤ matching.tokens.length
  tokens : matching'.tokens = matching.tokens.drop (blockLen (block.own,tables))
  patternLen : matching'.patternLen = matching.patternLen + blockLen (block.own,tables)
  blocks : matching'.blocks = matching.blocks ++ [(block.own,tables)]
  kept : ∀ id, matching.fields id ≠ none → matching'.fields id ≠ none
  produced : ∀ id ∈ block.tokenFields, matching'.fields id ≠ none

-- The expressions of a block divide by nothing that may be zero.
def Defined (block : AndBlock χ) : Prop :=
  ∀ expr ∈ block.exprs, expr.Total

theorem exprs_value {block : AndBlock χ} {verification : Verification χ} {value : Expr}
    (member : verification ∈ block.verifications) (isValue : verification.value = some value) : value ∈ block.exprs :=
  List.mem_append_left _ (List.mem_filterMap.mpr ⟨verification,member,isValue⟩)

theorem exprs_action {block : AndBlock χ} {right : Expr}
    (member : right ∈ (block.pre ++ block.pos).filterMap Assertation.right) : right ∈ block.exprs :=
  List.mem_append_right _ member

theorem exprs_pre {block : AndBlock χ} {right : Expr} (member : right ∈ block.pre.filterMap Assertation.right) :
    right ∈ block.exprs := by
  apply exprs_action
  rw [List.filterMap_append]
  exact List.mem_append_left _ member

theorem exprs_pos {block : AndBlock χ} {right : Expr} (member : right ∈ block.pos.filterMap Assertation.right) :
    right ∈ block.exprs := by
  apply exprs_action
  rw [List.filterMap_append]
  exact List.mem_append_right _ member

section Block

variable {table : Nat} {constructor : Constructor χ} {block : AndBlock χ} {matching : Matching χ Parsed}

-- The checks of a block whose fields are inside of the tokens.
theorem block_checks {tokens : List UInt8} {context : χ} (partOfFlat : Bool)
    (isConstructor : constructor ∈ specification.constructors table) (isBlock : .and block ∈ constructor.blocks)
    (defined : Defined block)
    (inside : ∀ id, block.ReadsField id → (specification.tokenField id).tokenLen ≤ tokens.length) :
    Meets NoMatch (fun _ => True)
      (checks specification.toSleigh instStart partOfFlat tokens context block.verifications) := by
  apply checks_meets
  intro verification member
  apply check_meets
  · intro id op value isCheck
    apply inside
    exact Or.inl ⟨op,value,isCheck ▸ member⟩
  · intro value isValue
    exact defined value (exprs_value member isValue)
  · intro value isValue scope isRead
    have checked : ∃ id op, .contextCheck id op value ∈ block.verifications ∨
        .tokenFieldCheck id op value ∈ block.verifications := by
      cases verification with
      | contextCheck id op other =>
        cases isValue
        exact ⟨id,op,Or.inl member⟩
      | tokenFieldCheck id op other =>
        cases isValue
        exact ⟨id,op,Or.inr member⟩
      | tableBuild called => cases isValue
      | subPattern closure => cases isValue
    obtain ⟨id,op,isCheck⟩ := checked
    obtain ⟨notNext,notVar⟩ :=
      specification.checked table constructor isConstructor block isBlock id op value isCheck scope isRead
    refine ⟨notNext,notVar,?_⟩
    intro field isField
    apply inside
    exact Or.inr (Or.inl ⟨value,exprs_value member isValue,isField ▸ isRead⟩)

theorem and_meets {partOfFlat : Bool}
    (isConstructor : constructor ∈ specification.constructors table) (isBlock : .and block ∈ constructor.blocks)
    (defined : Defined block)
    (inside : ∀ id, block.ReadsField id → (specification.tokenField id).tokenLen ≤ matching.tokens.length)
    (own : ∀ id, block.ReadsField id → (specification.tokenField id).tokenLen ≤ block.own)
    (ready : ∀ started, checks specification.toSleigh instStart partOfFlat matching.tokens matching.context
        block.verifications = .ok () →
      disassembly specification.toSleigh instStart block.pre matching = .ok started →
      specification.Ready parse matching.tokens (tableIds block.verifications) started.context) :
    Meets NoMatch (fun matching' => ∃ tables, Passed block matching matching' tables)
      (block.parse specification.toSleigh parse instStart partOfFlat matching) := by
  obtain ⟨_,isAnd,plain⟩ := specification.sequences table constructor isConstructor _ isBlock
  cases isAnd
  unfold AndBlock.parse
  have checked : Meets NoMatch (fun _ => True)
      (checks specification.toSleigh instStart partOfFlat matching.tokens matching.context block.verifications) :=
    block_checks partOfFlat isConstructor isBlock defined inside
  cases holds : checks specification.toSleigh instStart partOfFlat matching.tokens matching.context
      block.verifications with
  | error failure =>
    rw [holds] at checked
    exact checked
  | ok _ =>
    obtain ⟨started,ranPre⟩ : ∃ started,
        disassembly specification.toSleigh instStart block.pre matching = .ok started := by
      apply disassembly_total
      · exact fun right member => defined right (exprs_pre member)
      · exact fun right member id isRead => inside id (Or.inr (Or.inl ⟨right,exprs_pre member,isRead⟩))
    have frame := disassembly_frame ranPre
    change Meets NoMatch _ (disassembly specification.toSleigh instStart block.pre matching >>= _)
    rw [ranPre]
    have called := ready started holds ranPre
    rw [← frame.tokens] at called
    apply meets_bind (build_meets plain block.len.least [] started called)
    intro result built
    rcases result with ⟨len,tables,built'⟩
    obtain ⟨more,context,isTables,isMatching,isLen,fits⟩ := built
    change tables = more at isTables
    change built' = _ at isMatching
    change len = _ at isLen
    subst isTables isMatching isLen
    obtain ⟨sameLen,within⟩ := block_len isConstructor isBlock own fits
    obtain ⟨fields,ranFields⟩ : ∃ fields,
        readFields specification.toSleigh started.tokens block.tokenFields = .ok fields := by
      apply readFields_total
      intro id member
      rw [frame.tokens]
      exact inside id (Or.inr (Or.inr member))
    obtain ⟨produced,missing⟩ := readFields_ok ranFields
    change Meets NoMatch _ (readFields specification.toSleigh started.tokens block.tokenFields >>= _)
    rw [ranFields]
    obtain ⟨finished,ranPos⟩ : ∃ finished, disassembly specification.toSleigh instStart block.pos
        (produce { started with context := context } fields) = .ok finished := by
      apply disassembly_total
      · exact fun right member => defined right (exprs_pos member)
      · intro right member id isRead
        change _ ≤ started.tokens.length
        rw [frame.tokens]
        exact inside id (Or.inr (Or.inl ⟨right,exprs_pos member,isRead⟩))
    have later := disassembly_frame ranPos
    change Meets NoMatch _ (disassembly specification.toSleigh instStart block.pos
      (produce { started with context := context } fields) >>= _)
    rw [ranPos]
    have finishTokens : finished.tokens = matching.tokens := later.tokens.trans frame.tokens
    have finishFields : finished.fields = fun id => (fields id).or (matching.fields id) := by
      rw [later.fields]
      exact congrArg (fun old : Nat → Option Nat => fun id => (fields id).or (old id)) frame.fields
    have ownLen : blockLen (block.own,tables) = max block.own (tablesLen tables) := by rw [blockLen]
    change Meets NoMatch _ (advance block.own (max block.len.least (tablesLen tables)) (tables) finished)
    rw [sameLen,← ownLen]
    rw [sameLen,← ownLen] at within
    unfold advance
    split
    · rfl
    · rename_i enough
      refine ⟨tables,within,?_,?_,?_,?_,?_,?_⟩
      · rw [← finishTokens]
        exact Nat.le_of_not_lt enough
      · change finished.tokens.drop _ = _
        rw [finishTokens]
      · change finished.patternLen + _ = _
        rw [later.patternLen]
        exact congrArg (· + _) frame.patternLen
      · change finished.blocks ++ [(block.own,tables)] = _
        rw [later.blocks]
        exact congrArg (· ++ _) frame.blocks
      · intro id isSome
        change finished.fields id ≠ none
        rw [finishFields]
        intro lost
        exact isSome (Option.or_eq_none_iff.mp lost).2
      · intro id member
        obtain ⟨raw,_,isRaw⟩ := produced id member
        change finished.fields id ≠ none
        rw [finishFields]
        simp only [isRaw,Option.some_or]
        exact Option.some_ne_none raw

end Block

-- What a specification needs so that nothing but the end of the tokens can go wrong: the fields that a block reads are
-- fields of its own tokens, no expression divides by zero, and a constructor that calls its own table has either
-- consumed tokens before or calls it first, in a context that its actions before the call made smaller.
structure Safe (specification : Specification χ) (measure : χ → Nat) (bound : Nat) : Prop where
  ownTokens : specification.OwnTokens
  defined : ∀ table, ∀ constructor ∈ specification.constructors table, ∀ block, .and block ∈ constructor.blocks →
    Defined block
  definedPos : ∀ table, ∀ constructor ∈ specification.constructors table,
    ∀ right ∈ constructor.pos.filterMap Assertation.right, right.Total
  bounded : ∀ context, measure context ≤ bound
  descends : ∀ table, ∀ matcher ∈ specification.matcherOrder table, ∀ before block after,
    matcher.constructor.blocks = before ++ .and block :: after → table ∈ tableIds block.verifications →
    0 < leastSum before ∨ before = [] ∧ (∃ others, tableIds block.verifications = table :: others ∧ table ∉ others) ∧
      ∀ instStart tokens context started, matcher.applies specification.toSleigh tokens context = .ok true →
        checks specification.toSleigh instStart (!specification.debug) tokens context block.verifications = .ok () →
        disassembly specification.toSleigh instStart block.pre (.start tokens context : Matching χ Parsed) = .ok started →
        measure started.context < measure context

-- The calls that a table may make on some tokens in some context: of tables of a lower rank, of itself
-- on fewer tokens, and of itself in a smaller context.
structure Lower (rooms : specification.Rooms) (measure : χ → Nat)
    (parse : Nat → List UInt8 → χ → Except Failure (Nat × Parsed × χ)) (table : Nat) (tokens : List UInt8)
    (context : χ) : Prop where
  ranked : ∀ called rest after, specification.rank called < specification.rank table → rest.length ≤ tokens.length →
    rooms.table called rest.length → specification.Answers called rest (parse called rest after)
  shorter : ∀ rest after, rest.length < tokens.length → rooms.table table rest.length →
    specification.Answers table rest (parse table rest after)
  smaller : ∀ after, measure after < measure context → rooms.table table tokens.length →
    specification.Answers table tokens (parse table tokens after)

section Run

variable {rooms : specification.Rooms} {measure : χ → Nat} {bound table : Nat} {matcher : Matcher χ}
variable {tokens : List UInt8} {context : χ}

theorem matcher_calls (isMatcher : matcher ∈ specification.matcherOrder table) {block : AndBlock χ}
    (isBlock : .and block ∈ matcher.constructor.blocks) {called : Nat} (isCalled : called ∈ tableIds block.verifications) :
    called = table ∨ specification.rank called < specification.rank table := by
  apply specification.ordered table matcher.constructor (specification.matchers table matcher isMatcher).1
  apply List.any_eq_true.mpr
  exact ⟨.and block,isBlock,decide_eq_true isCalled⟩

-- The calls of a block, after blocks that consumed at least their minimum.
theorem block_ready (safe : specification.Safe measure bound) (lower : Lower rooms measure parse table tokens context)
    (isMatcher : matcher ∈ specification.matcherOrder table)
    (applies : matcher.applies specification.toSleigh tokens context = .ok true)
    {before after : List (Block χ)} {block : AndBlock χ}
    (shape : matcher.constructor.blocks = before ++ .and block :: after) {matching : Matching χ Parsed}
    (first : before = [] → matching = .start tokens context)
    (consumed : leastSum before + matching.tokens.length ≤ tokens.length)
    (room : rooms.blocks (.and block :: after) matching.tokens.length) {started : Matching χ Parsed}
    (holds : checks specification.toSleigh instStart (!specification.debug && before.all (·.len.singleLen.isSome))
      matching.tokens matching.context block.verifications = .ok ())
    (ranPre : disassembly specification.toSleigh instStart block.pre matching = .ok started) :
    specification.Ready parse matching.tokens (tableIds block.verifications) started.context := by
  have isBlock : .and block ∈ matcher.constructor.blocks := by
    rw [shape]
    exact List.mem_append_right _ (List.mem_cons_self ..)
  have others : ∀ called ∈ tableIds block.verifications, called ≠ table → ∀ after,
      specification.Answers called matching.tokens (parse called matching.tokens after) := by
    intro called member notSame context'
    apply lower.ranked
    · exact (matcher_calls isMatcher isBlock member).resolve_left notSame
    · omega
    · exact rooms.calls room called member
  by_cases recursive : table ∈ tableIds block.verifications
  · rcases safe.descends table matcher isMatcher before block after shape recursive with moved | ⟨isFirst,once,smaller⟩
    · apply ready_all
      intro called member context'
      by_cases same : called = table
      · subst same
        apply lower.shorter
        · omega
        · exact rooms.calls room called member
      · exact others called member same context'
    · -- The recursive call is the first one of the whole pattern.
      have isStart := first isFirst
      subst isFirst isStart
      obtain ⟨rest,ids,notAgain⟩ := once
      have less := smaller instStart tokens context started applies (by simpa [Matching.start] using holds) ranPre
      rw [ids]
      refine ⟨?_,?_⟩
      · apply lower.smaller started.context less
        exact rooms.calls room table recursive
      · apply ready_all
        intro called member context'
        apply others
        · rw [ids]
          exact List.mem_cons_of_mem _ member
        · intro same
          exact notAgain (same ▸ member)
  · apply ready_all
    intro called member context'
    apply others called member
    intro same
    exact recursive (same ▸ member)

-- Matched blocks consume the sum of their lengths.
structure Ran (pattern : List (Block χ)) (matching matching' : Matching χ Parsed) (parsed : List (Nat × List Parsed)) :
    Prop where
  patternLen : matching'.patternLen = matching.patternLen + blocksLen parsed
  blocks : matching'.blocks = matching.blocks ++ parsed
  inside : blocksLen parsed ≤ matching.tokens.length
  least : leastSum pattern ≤ blocksLen parsed
  greatest : ∀ most, PatternLen.greatestSum (pattern.map Block.len) = some most → blocksLen parsed ≤ most
  kept : ∀ id, matching.fields id ≠ none → matching'.fields id ≠ none
  produced : ∀ block, Block.and block ∈ pattern → ∀ id ∈ block.tokenFields, matching'.fields id ≠ none

theorem ran_nil (matching : Matching χ Parsed) : Ran [] matching matching [] where
  patternLen := by rw [blocksLen,Nat.add_zero]
  blocks := (List.append_nil _).symm
  inside := by
    rw [blocksLen]
    exact Nat.zero_le _
  least := Nat.zero_le _
  greatest := by
    intro most _
    rw [blocksLen]
    exact Nat.zero_le _
  kept := fun _ isSome => isSome
  produced := fun _ member => absurd member List.not_mem_nil

theorem ran_cons {block : AndBlock χ} {rest : List (Block χ)} {matching middle matching' : Matching χ Parsed}
    {tables : List Parsed} {parsed : List (Nat × List Parsed)} (passed : Passed block matching middle tables)
    (ran : Ran rest middle matching' parsed) :
    Ran (.and block :: rest) matching matching' ((block.own,tables) :: parsed) := by
  have sum : blocksLen ((block.own,tables) :: parsed) = blockLen (block.own,tables) + blocksLen parsed := by
    rw [blocksLen]
  have left : middle.tokens.length = matching.tokens.length - blockLen (block.own,tables) := by
    rw [passed.tokens,List.length_drop]
  have inside := passed.inside
  have laterInside := ran.inside
  constructor
  · rw [sum,ran.patternLen,passed.patternLen,Nat.add_assoc]
  · rw [ran.blocks,passed.blocks,List.append_assoc]
    rfl
  · omega
  · rw [sum]
    exact Nat.add_le_add passed.within.1 ran.least
  · intro most isMost
    obtain ⟨blockMost,isBlockMost,isMost⟩ := Option.bind_eq_some_iff.mp isMost
    obtain ⟨others,isOthers,isMost⟩ := Option.bind_eq_some_iff.mp isMost
    cases isMost
    rw [sum]
    exact Nat.add_le_add (passed.within.2 blockMost isBlockMost) (ran.greatest others isOthers)
  · intro id isSome
    exact ran.kept id (passed.kept id isSome)
  · intro other member id isField
    rcases List.mem_cons.mp member with isHere | member
    · cases isHere
      exact ran.kept id (passed.produced id isField)
    · exact ran.produced other member id isField

theorem parseBlocks_meets (safe : specification.Safe measure bound)
    (lower : Lower rooms measure parse table tokens context) (isMatcher : matcher ∈ specification.matcherOrder table)
    (applies : matcher.applies specification.toSleigh tokens context = .ok true) {rest : List (Block χ)} :
    ∀ {before : List (Block χ)} {matching : Matching χ Parsed}, matcher.constructor.blocks = before ++ rest →
      (before = [] → matching = .start tokens context) → leastSum before + matching.tokens.length ≤ tokens.length →
      rooms.blocks rest matching.tokens.length →
      Meets NoMatch (fun matching' => ∃ parsed, Ran rest matching matching' parsed)
        (parseBlocks specification.toSleigh parse instStart
          (!specification.debug && before.all (·.len.singleLen.isSome)) rest matching) := by
  have isConstructor := (specification.matchers table matcher isMatcher).1
  induction rest with
  | nil =>
    intro before matching _ _ _ _
    exact ⟨[],ran_nil matching⟩
  | cons block rest ih =>
    intro before matching shape first consumed room
    have isBlock : block ∈ matcher.constructor.blocks := by
      rw [shape]
      exact List.mem_append_right _ (List.mem_cons_self ..)
    obtain ⟨own,rfl,_⟩ := specification.sequences table _ isConstructor block isBlock
    have isRest : specification.Rest before (.and own :: rest) := ⟨table,_,isConstructor,shape⟩
    have here : Meets NoMatch (fun middle => ∃ tables, Passed own matching middle tables)
        (own.parse specification.toSleigh parse instStart
          (!specification.debug && before.all (·.len.singleLen.isSome)) matching) := by
      apply and_meets isConstructor isBlock (safe.defined table _ isConstructor own isBlock) (rooms.reads room)
        (safe.ownTokens before own rest isRest)
      intro started holds ranPre
      exact block_ready safe lower isMatcher applies shape first consumed room holds ranPre
    apply meets_bind here
    intro middle passed
    obtain ⟨tables,passed⟩ := passed
    have left : middle.tokens.length = matching.tokens.length - blockLen (own.own,tables) := by
      rw [passed.tokens,List.length_drop]
    have inside := passed.inside
    have least : own.len.least ≤ blockLen (own.own,tables) := passed.within.1
    have sum : leastSum (before ++ [.and own]) = leastSum before + own.len.least := by
      simp [leastSum,Block.len]
    have nextShape : matcher.constructor.blocks = (before ++ [.and own]) ++ rest := by
      rw [shape,List.append_assoc]
      rfl
    have nextRoom : rooms.blocks rest middle.tokens.length := by
      rw [left]
      exact rooms.next room passed.within inside
    have later := ih nextShape (fun empty => absurd empty (List.append_ne_nil_of_right_ne_nil _ (List.cons_ne_nil _ _)))
      (by omega) nextRoom
    have flat : (!specification.debug && (before ++ [Block.and own]).all (·.len.singleLen.isSome)) =
        ((!specification.debug && before.all (·.len.singleLen.isSome)) && (Block.and own).len.singleLen.isSome) := by
      rw [List.all_append,Bool.and_assoc]
      simp
    rw [flat] at later
    apply meets_mono later
    intro matching' ran
    obtain ⟨parsed,ran⟩ := ran
    exact ⟨(own.own,tables) :: parsed,ran_cons passed ran⟩

theorem ran_within {constructor : Constructor χ} (isConstructor : constructor ∈ specification.constructors table)
    {matching matching' : Matching χ Parsed} {parsed : List (Nat × List Parsed)}
    (ran : Ran constructor.blocks matching matching' parsed) : (specification.tableLen table).Within (blocksLen parsed) := by
  constructor
  · calc
      (specification.tableLen table).least ≤ constructor.len.least := table_least isConstructor
      _ = leastSum constructor.blocks := constructor_least isConstructor
      _ ≤ blocksLen parsed := ran.least
  · intro most isMost
    obtain ⟨constructorMost,isConstructorMost,small⟩ := table_greatest isConstructor isMost
    rw [specification.constructorLens table constructor isConstructor] at isConstructorMost
    obtain ⟨start,sum,isStart,isSum,rfl⟩ := PatternLen.concat_fold_greatest _ _ isConstructorMost
    have longest := ran.greatest sum isSum
    omega

theorem matcher_meets (safe : specification.Safe measure bound)
    (lower : Lower rooms measure parse table tokens context) (isMatcher : matcher ∈ specification.matcherOrder table)
    (applies : matcher.applies specification.toSleigh tokens context = .ok true)
    (room : rooms.table table tokens.length) (enough : matcher.constructor.len.least ≤ tokens.length) :
    Meets NoMatch (fun result => result.1 = blocksLen result.2.1.blocks ∧ result.1 ≤ tokens.length ∧
        (specification.tableLen table).Within result.1)
      (matcher.constructor.parse specification.toSleigh parse instStart tokens context) := by
  have isConstructor := (specification.matchers table matcher isMatcher).1
  have matched := @parseBlocks_meets _ _ _ instStart _ _ _ _ _ _ _ safe lower isMatcher applies
    matcher.constructor.blocks [] (.start tokens context) rfl (fun _ => rfl) (Nat.le_of_eq (Nat.zero_add _))
    (rooms.enter room isConstructor enough)
  simp only [List.all_nil,Bool.and_true] at matched
  unfold Constructor.parse
  apply meets_bind matched
  intro matching ran
  obtain ⟨parsed,ran⟩ := ran
  obtain ⟨finished,ranPost,frame⟩ : ∃ finished,
      postMatch specification.toSleigh instStart matcher.constructor.pos matching = .ok finished ∧
        Frame matching finished := by
    apply postMatch_total (safe.definedPos table _ isConstructor)
    intro right isRight id isRead
    obtain ⟨action,isAction,isRight⟩ := List.mem_filterMap.mp isRight
    cases action with
    | globalSet address context => cases isRight
    | assignment left own =>
      cases isRight
      obtain ⟨block,isBlock,isField⟩ := specification.produced table _ isConstructor left right isAction id isRead
      exact ran.produced block isBlock id isField
  rw [ranPost]
  change finished.patternLen = blocksLen finished.blocks ∧ finished.patternLen ≤ tokens.length ∧
    (specification.tableLen table).Within finished.patternLen
  have sameBlocks : finished.blocks = parsed := frame.blocks.trans ran.blocks
  have sameLen : finished.patternLen = blocksLen parsed := by
    rw [frame.patternLen,ran.patternLen]
    exact Nat.zero_add _
  rw [sameBlocks,sameLen]
  exact ⟨rfl,ran.inside,ran_within isConstructor ran⟩

theorem applies_meets (isMatcher : matcher ∈ specification.matcherOrder table) :
    Meets NoMatch (fun applies => applies = true → matcher.constructor.len.least ≤ tokens.length)
      (matcher.applies specification.toSleigh tokens context) := by
  unfold Matcher.applies
  split
  · intro isTrue
    cases isTrue
  · rename_i enough
    have inside := Nat.le_of_not_lt enough
    split
    · exact fun _ => inside
    · split
      · obtain ⟨applies,run⟩ := @tokenConstraint_total tokens matcher.token 0 (by
          have short := (specification.matchers table matcher isMatcher).2
          omega)
        rw [run]
        exact fun _ => inside
      · intro isTrue
        cases isTrue

theorem parseMatchers_meets (safe : specification.Safe measure bound)
    (lower : Lower rooms measure parse table tokens context) (room : rooms.table table tokens.length)
    {matchers : List (Matcher χ)} :
    (∀ matcher ∈ matchers, matcher ∈ specification.matcherOrder table) →
      specification.Answers table tokens (specification.parseMatchers instStart parse tokens context matchers) := by
  induction matchers with
  | nil =>
    intro _
    rfl
  | cons matcher rest ih =>
    intro listed
    have isMatcher := listed matcher (List.mem_cons_self ..)
    have later := ih fun other member => listed other (List.mem_cons_of_mem _ member)
    have applied := @applies_meets _ _ _ _ tokens context isMatcher
    unfold Answers parseMatchers
    cases applies : matcher.applies specification.toSleigh tokens context with
    | error failure =>
      rw [applies] at applied
      exact applied
    | ok isTrue =>
      rw [applies] at applied
      cases isTrue with
      | false => exact later
      | true =>
        have matched := @matcher_meets _ _ _ instStart _ _ _ _ _ _ _ safe lower isMatcher applies room (applied rfl)
        dsimp only [Bind.bind,Except.bind]
        rw [if_pos rfl]
        cases run : matcher.constructor.parse specification.toSleigh parse instStart tokens context with
        | error failure =>
          rw [run] at matched
          cases matched
          exact later
        | ok result =>
          rw [run] at matched
          obtain ⟨isLen,inside,within⟩ := matched
          refine ⟨?_,inside,within⟩
          rw [Parsed.len]
          exact isLen

-- The fuel that a call needs: first by the rank of its table, then by the bytes that are left, then by the context.
def need (specification : Specification χ) (measure : χ → Nat) (bound size table len : Nat) (context : χ) : Nat :=
  (specification.rank table * (size + 1) + len) * (bound + 1) + measure context + 1

theorem need_less {size outer inner outerLen innerLen : Nat} {outerContext innerContext : χ}
    (bounded : ∀ context, measure context ≤ bound)
    (less : specification.rank inner * (size + 1) + innerLen < specification.rank outer * (size + 1) + outerLen) :
    specification.need measure bound size inner innerLen innerContext <
      specification.need measure bound size outer outerLen outerContext := by
  unfold need
  have small := bounded innerContext
  have steps := Nat.mul_le_mul_right (bound + 1) (Nat.succ_le_of_lt less)
  rw [Nat.succ_mul] at steps
  omega

theorem parseTable_meets (safe : specification.Safe measure bound) (rooms : specification.Rooms) {size : Nat} :
    ∀ {fuel table : Nat} {tokens : List UInt8} {context : χ}, tokens.length ≤ size → rooms.table table tokens.length →
      specification.need measure bound size table tokens.length context ≤ fuel →
      specification.Answers table tokens (specification.parseTable instStart fuel table tokens context) := by
  intro fuel
  induction fuel with
  | zero =>
    intro table tokens context _ _ enough
    exact absurd enough (Nat.not_succ_le_zero _)
  | succ fuel ih =>
    intro table tokens context short room enough
    have lower : Lower rooms measure (specification.parseTable instStart fuel) table tokens context := by
      constructor
      · intro called rest after ranked shorter calledRoom
        apply ih (Nat.le_trans shorter short) calledRoom
        apply Nat.le_of_lt_succ
        refine Nat.lt_of_lt_of_le (need_less safe.bounded ?_) enough
        have steps := Nat.mul_le_mul_right (size + 1) (Nat.succ_le_of_lt ranked)
        rw [Nat.succ_mul] at steps
        omega
      · intro rest after shorter restRoom
        apply ih (Nat.le_trans (Nat.le_of_lt shorter) short) restRoom
        apply Nat.le_of_lt_succ
        exact Nat.lt_of_lt_of_le (need_less safe.bounded (Nat.add_lt_add_left shorter _)) enough
      · intro after smaller sameRoom
        apply ih short sameRoom
        unfold need at enough ⊢
        omega
    exact parseMatchers_meets safe lower room fun _ member => member

end Run

theorem address_difference {bits addr len : Nat} (short : len < 2 ^ bits) :
    ((addr % 2 ^ bits + len) % 2 ^ bits + 2 ^ bits - addr % 2 ^ bits) % 2 ^ bits = len := by
  generalize 2 ^ bits = size at short
  have start := Nat.mod_lt addr (Nat.zero_lt_of_lt short)
  generalize addr % size = first at start
  by_cases wraps : first + len < size
  · rw [Nat.mod_eq_of_lt wraps]
    have back : first + len + size - first = len + size := by omega
    rw [back,Nat.add_mod_right,Nat.mod_eq_of_lt short]
  · have once : (first + len) % size = first + len - size := by
      rw [Nat.mod_eq_sub_mod (Nat.le_of_not_lt wraps)]
      exact Nat.mod_eq_of_lt (by omega)
    rw [once]
    have back : first + len - size + size - first = len := by omega
    rw [back,Nat.mod_eq_of_lt short]

-- A match of the whole instruction: as long as its blocks, and inside of the bytes.
def InBytes (size : Nat) (result : Nat × Parsed) : Prop :=
  0 < result.1 ∧ result.1 = result.2.len ∧ result.1 ≤ size

theorem decodeFrom_meets {measure : χ → Nat} {bound : Nat} (safe : specification.Safe measure bound)
    (rooms : specification.Rooms) {bytes : List UInt8} (room : rooms.table specification.root bytes.length)
    (positive : 1 ≤ (specification.tableLen specification.root).least)
    (short : bytes.length < 2 ^ specification.addrBits) {fuel addr : Nat} {context : χ}
    (enough : specification.need measure bound bytes.length specification.root bytes.length context ≤ fuel) :
    Meets NoMatch (InBytes bytes.length) (specification.decodeFrom fuel context bytes addr) := by
  unfold decodeFrom
  apply meets_bind (parseTable_meets safe rooms (Nat.le_refl _) room enough)
  intro result answer
  rcases result with ⟨instLen,instruction,after⟩
  obtain ⟨isLen,inside,within⟩ := answer
  change InBytes bytes.length (_,instruction)
  rw [address_difference (Nat.lt_of_le_of_lt inside short)]
  exact ⟨Nat.lt_of_lt_of_le positive within.1,isLen,inside⟩

theorem padded_length (bytes : List UInt8) : (padded bytes).length = max bytes.length decodeWindow := by
  unfold padded
  rw [List.length_append,List.length_replicate]
  omega

end Specification

-- A byte that may come after any number of prefixes 0x66: `sub: b=0x66; sub` and `sub: b=0x90`.
namespace Prefixes

def byte : TokenField where
  tokenLen := 1
  bigEndian := false
  start := 0
  len := 8
  attach := .noAttach false
  positive := Nat.succ_pos 7
  short := Nat.le_add_right 8 56

def byteBlock (value : Nat) : AndBlock Unit where
  len := .defined 1
  tokens := [1]
  verifications := [.tokenFieldCheck 0 .eq (.value (.integer value))]
  tokenFields := []
  pre := []
  pos := []

def subBlock : AndBlock Unit where
  len := .min 1
  tokens := []
  verifications := [.tableBuild 0]
  tokenFields := []
  pre := []
  pos := []

def repeated : Constructor Unit where
  len := .min 2
  blocks := [.and (byteBlock 0x66),.and subBlock]
  pos := []

def single : Constructor Unit where
  len := .defined 1
  blocks := [.and (byteBlock 0x90)]
  pos := []

-- `instruction: sub; b=0xc3`.
def followed : Constructor Unit where
  len := .min 2
  blocks := [.and subBlock,.and (byteBlock 0xc3)]
  pos := []

def constructors (tail : Bool) (table : Nat) : List (Constructor Unit) :=
  if table = 0 then [repeated,single] else if tail then [followed] else [single]

def tableLen (tail : Bool) (table : Nat) : PatternLen :=
  if table = 0 then .min 1 else if tail then .min 2 else .defined 1

def matcherOrder (tail : Bool) (table : Nat) : List (Matcher Unit) :=
  if table = 0 then [⟨repeated,fun _ => true,[(255,0x66)]⟩,⟨single,fun _ => true,[(255,0x90)]⟩]
  else if tail then [⟨followed,fun _ => true,[]⟩] else [⟨single,fun _ => true,[(255,0x90)]⟩]

theorem constructors_cases {tail : Bool} {table : Nat} {constructor : Constructor Unit}
    (member : constructor ∈ constructors tail table) :
    constructor = repeated ∧ table = 0 ∨ constructor = single ∨ constructor = followed ∧ table ≠ 0 ∧ tail = true := by
  unfold constructors at member
  by_cases isSub : table = 0
  · simp only [if_pos isSub,List.mem_cons,List.not_mem_nil,or_false] at member
    rcases member with rfl | rfl
    · exact Or.inl ⟨rfl,isSub⟩
    · exact Or.inr (Or.inl rfl)
  · cases tail with
    | false =>
      simp only [if_neg isSub,Bool.false_eq_true,if_false,List.mem_singleton] at member
      exact Or.inr (Or.inl member)
    | true =>
      simp only [if_neg isSub,if_true,List.mem_singleton] at member
      exact Or.inr (Or.inr ⟨member,isSub,rfl⟩)

theorem blocks_cases {tail : Bool} {table : Nat} {constructor : Constructor Unit}
    (isConstructor : constructor ∈ constructors tail table) {block : Block Unit} (isBlock : block ∈ constructor.blocks) :
    (∃ value, block = .and (byteBlock value)) ∨ block = .and subBlock := by
  rcases constructors_cases isConstructor with ⟨rfl,_⟩ | rfl | ⟨rfl,_⟩
  · simp only [repeated,List.mem_cons,List.not_mem_nil,or_false] at isBlock
    exact isBlock.imp (fun isByte => ⟨_,isByte⟩) id
  · simp only [single,List.mem_cons,List.not_mem_nil,or_false] at isBlock
    exact Or.inl ⟨_,isBlock⟩
  · simp only [followed,List.mem_cons,List.not_mem_nil,or_false] at isBlock
    exact isBlock.symm.imp (fun isByte => ⟨_,isByte⟩) id

def specification (tail : Bool) : Specification Unit where
  addrBits := 64
  debug := false
  tokenField := fun _ => byte
  readContext := fun _ _ => 0
  writeContext := fun _ _ context => context
  constructors := constructors tail
  matcherOrder := matcherOrder tail
  tableLen := tableLen tail
  root := if tail then 1 else 0
  rank := id
  sequences := by
    intro table constructor isConstructor block isBlock
    rcases blocks_cases isConstructor isBlock with ⟨value,rfl⟩ | rfl
    · exact ⟨byteBlock value,rfl,fun closure => by simp [byteBlock]⟩
    · exact ⟨subBlock,rfl,fun closure => by simp [subBlock]⟩
  checked := by
    intro table constructor isConstructor block isBlock id op value isCheck scope isRead
    rcases blocks_cases isConstructor isBlock with ⟨number,isByte⟩ | isSub
    · cases isByte
      simp only [byteBlock,List.mem_singleton,reduceCtorEq,false_or,Verification.tokenFieldCheck.injEq] at isCheck
      obtain ⟨_,_,rfl⟩ := isCheck
      rw [List.mem_singleton.mp isRead]
      exact ⟨nofun,nofun⟩
    · cases isSub
      simp [subBlock] at isCheck
  produced := by
    intro table constructor isConstructor left right isAction
    rcases constructors_cases isConstructor with ⟨rfl,_⟩ | rfl | ⟨rfl,_⟩ <;> cases isAction
  ordered := by
    intro table constructor isConstructor called calls
    obtain ⟨block,isBlock,isCalled⟩ := Specification.calls_block calls
    have isZero : called = 0 := by
      rcases blocks_cases isConstructor isBlock with ⟨number,isByte⟩ | isSub
      · cases isByte
        cases isCalled
      · cases isSub
        exact List.mem_singleton.mp isCalled
    subst isZero
    rcases Nat.eq_zero_or_pos table with isSub | above
    · exact Or.inl isSub.symm
    · exact Or.inr above
  matchers := by
    intro table matcher isMatcher
    unfold matcherOrder at isMatcher
    unfold constructors
    by_cases isSub : table = 0
    · simp only [if_pos isSub,List.mem_cons,List.not_mem_nil,or_false] at isMatcher ⊢
      rcases isMatcher with rfl | rfl
      · exact ⟨Or.inl rfl,by decide⟩
      · exact ⟨Or.inr rfl,by decide⟩
    · cases tail with
      | false =>
        simp only [if_neg isSub,Bool.false_eq_true,if_false,List.mem_singleton] at isMatcher ⊢
        subst isMatcher
        exact ⟨rfl,by decide⟩
      | true =>
        simp only [if_neg isSub,if_true,List.mem_singleton] at isMatcher ⊢
        subst isMatcher
        exact ⟨rfl,by decide⟩
  blockLens := by
    intro table constructor isConstructor block isBlock
    rcases blocks_cases isConstructor isBlock with ⟨number,isByte⟩ | isSub
    · cases isByte
      rfl
    · cases isSub
      rfl
  constructorLens := by
    intro table constructor isConstructor
    rcases constructors_cases isConstructor with ⟨rfl,_⟩ | rfl | ⟨rfl,_⟩ <;> rfl
  tableLens := by
    intro table
    unfold constructors tableLen
    by_cases isSub : table = 0
    · subst isSub
      rfl
    · have notCalled : ∀ constructor : Constructor Unit, constructor = single ∨ constructor = followed →
          constructor.calls table = false := by
        intro constructor known
        have notZero : ¬ table = 0 := isSub
        rcases known with rfl | rfl <;> simp [Constructor.calls,single,followed,byteBlock,subBlock,tableIds,notZero]
      cases tail with
      | false =>
        simp only [if_neg isSub,Bool.false_eq_true,if_false,List.map_cons,List.map_nil,notCalled single (Or.inl rfl)]
        rfl
      | true =>
        simp only [if_neg isSub,if_true,List.map_cons,List.map_nil,notCalled followed (Or.inr rfl),Bool.false_eq_true,
          if_false]
        rfl

-- The recursive call of `sub` comes after its prefix.
theorem descends {tail : Bool} {table : Nat} {constructor : Constructor Unit}
    (isConstructor : constructor ∈ constructors tail table) {before after : List (Block Unit)} {block : AndBlock Unit}
    (shape : constructor.blocks = before ++ .and block :: after) (recursive : table ∈ tableIds block.verifications) :
    0 < leastSum before := by
  cases before with
  | nil =>
    rcases constructors_cases isConstructor with ⟨rfl,_⟩ | rfl | ⟨rfl,notSub,_⟩
    · cases shape
      cases recursive
    · cases shape
      cases recursive
    · cases shape
      exact absurd (List.mem_singleton.mp recursive) notSub
  | cons first before =>
    have isFirst : first ∈ constructor.blocks := by
      rw [shape]
      exact List.mem_cons_self ..
    have positive : 1 ≤ first.len.least := by
      rcases blocks_cases isConstructor isFirst with ⟨value,rfl⟩ | rfl <;> exact Nat.le_refl 1
    exact Nat.lt_of_lt_of_le positive (Specification.leastSum_le (List.mem_cons_self ..))

theorem safe (tail : Bool) : (specification tail).Safe (fun _ => 0) 0 where
  ownTokens := by
    intro before block after isRest id isRead
    obtain ⟨table,constructor,isConstructor,isBlock⟩ := Specification.rest_block isRest
    rcases blocks_cases isConstructor isBlock with ⟨value,isByte⟩ | isSub
    · cases isByte
      exact Nat.le_refl 1
    · cases isSub
      rcases isRead with ⟨op,value,isCheck⟩ | ⟨expr,isExpr,_⟩ | isField
      · simp [subBlock] at isCheck
      · cases isExpr
      · cases isField
  defined := by
    intro table constructor isConstructor block isBlock expr isExpr
    rcases blocks_cases isConstructor isBlock with ⟨value,isByte⟩ | isSub
    · cases isByte
      rw [List.mem_singleton.mp isExpr]
      trivial
    · cases isSub
      cases isExpr
  definedPos := by
    intro table constructor isConstructor right isRight
    rcases constructors_cases isConstructor with ⟨rfl,_⟩ | rfl | ⟨rfl,_⟩ <;> cases isRight
  bounded := fun _ => Nat.le_refl 0
  descends := by
    intro table matcher isMatcher before block after shape recursive
    have isConstructor := ((specification tail).matchers table matcher isMatcher).1
    exact Or.inl (descends isConstructor shape recursive)

theorem reads_byte {block : AndBlock Unit} {id : Nat} (isRead : block.ReadsField id) : block ≠ subBlock := by
  intro isSub
  subst isSub
  rcases isRead with ⟨op,value,isCheck⟩ | ⟨expr,isExpr,_⟩ | isField
  · simp [subBlock] at isCheck
  · cases isExpr
  · cases isField

theorem guarded : (specification false).Guarded := by
  intro before block after isRest isRead other isOther
  obtain ⟨table,constructor,isConstructor,shape⟩ := isRest
  obtain ⟨id,isRead⟩ := isRead
  cases before with
  | nil => cases isOther
  | cons first before =>
    rcases constructors_cases isConstructor with ⟨rfl,_⟩ | rfl | ⟨_,_,isTrue⟩
    · have later := (List.cons.inj shape).2
      cases before with
      | nil =>
        cases later
        exact absurd rfl (reads_byte isRead)
      | cons second before =>
        have none := (List.cons.inj later).2
        cases before <;> cases none
    · have later := (List.cons.inj shape).2
      cases before <;> cases later
    · cases isTrue

-- 31 prefixes before their last byte.
def input : List UInt8 :=
  List.replicate 31 0x66 ++ [0x90]

end Prefixes

end Rsleigh.Decode
