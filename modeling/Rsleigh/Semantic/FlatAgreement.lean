import Rsleigh.Semantic.FlatPhases
import Rsleigh.Semantic.FlatSteady

namespace Rsleigh.Semantic.Variants

open Decode Fallible

variable {layout : Layout} {tableLen : Nat → PatternLen} {instStart : Nat}
variable {parseTable : Nat → List UInt8 → layout.Context → Except Failure (Nat × τ × layout.Context)}
variable {whole : List UInt8} {first : layout.Context}

theorem literal_some {op : CmpOp} {value : Expr} {word : Word} (isLiteral : literal op value = some word) :
    op = .eq ∧ ∃ number, value = .value (.integer number) ∧ word = BitVec.ofInt 128 number := by
  unfold literal at isLiteral
  split at isLiteral
  · rename_i number
    exact ⟨rfl,number,rfl,(Option.some_inj.mp isLiteral).symm⟩
  · cases isLiteral

theorem verification_eq {x y : Word} : verification .eq x y = .ok () ↔ x = y := by
  change (if (x == y) = true then _ else _) = _ ↔ _
  constructor
  · intro run
    split at run
    · rename_i same
      exact eq_of_beq same
    · cases run
  · intro same
    rw [same,if_pos (beq_self_eq_true y)]

theorem check_holds {check : Check} {tokens : List UInt8} {context : layout.Context} {offset : Nat}
    (met : (check.verification).check layout.sleigh instStart tokens context = .ok ())
    (reads : ∀ id, (Verification.check (φ := BlockCode) check).Compares id →
      layout.memory.read id context = layout.memory.read id first)
    (placed : (Verification.check (φ := BlockCode) check).ComparesToken → tokens = whole.drop offset) :
    ∀ equality ∈ check.equalities offset, equality.Holds layout (inputBit whole first) := by
  intro equality member
  cases check with
  | tableBuild table => cases member
  | contextCheck id op value =>
    obtain ⟨word,isWord,rfl⟩ := List.mem_map.mp member
    have isLiteral : literal op value = some word := Option.mem_toList.mp isWord
    obtain ⟨rfl,number,rfl,rfl⟩ := literal_some isLiteral
    obtain ⟨y,evaluated,same⟩ := bind_ok.mp met
    cases evaluated
    apply context_holds
    rw [← reads id ⟨rfl,rfl⟩]
    exact verification_eq.mp same
  | tokenFieldCheck id op value =>
    obtain ⟨word,isWord,rfl⟩ := List.mem_map.mp member
    have isLiteral : literal op value = some word := Option.mem_toList.mp isWord
    obtain ⟨rfl,number,rfl,rfl⟩ := literal_some isLiteral
    obtain ⟨raw,found,met⟩ := bind_ok.mp met
    obtain ⟨y,evaluated,same⟩ := bind_ok.mp met
    cases evaluated
    rw [placed rfl] at found
    exact token_holds found (verification_eq.mp same)

theorem checks_met {verifications : List (Verification BlockCode)} {tokens : List UInt8} {context : layout.Context}
    (run : checks layout.sleigh instStart false tokens context (directs verifications) = .ok ()) :
    ∀ check, .check check ∈ verifications →
      (check.verification).check layout.sleigh instStart tokens context = .ok () := by
  induction verifications with
  | nil => exact fun _ member => absurd member List.not_mem_nil
  | cons verification rest ih =>
    intro check member
    cases verification with
    | subPattern pattern =>
      rcases List.mem_cons.mp member with same | member
      · cases same
      · exact ih run check member
    | check own =>
      obtain ⟨_,met,run⟩ := bind_ok.mp run
      rcases List.mem_cons.mp member with same | member
      · cases same
        exact met
      · exact ih run check member

theorem compares_of_mem {id : Nat} {verification : Verification BlockCode} (compares : verification.Compares id) :
    ∀ {verifications : List (Verification BlockCode)}, verification ∈ verifications → anyCompares id verifications := by
  intro verifications
  induction verifications with
  | nil => exact fun member => absurd member List.not_mem_nil
  | cons head rest ih =>
    intro member
    rcases List.mem_cons.mp member with rfl | member
    · exact Or.inl compares
    · exact Or.inr (ih member)

theorem comparesToken_of_mem {verification : Verification BlockCode} (compares : verification.ComparesToken) :
    ∀ {verifications : List (Verification BlockCode)}, verification ∈ verifications →
      anyComparesToken verifications := by
  intro verifications
  induction verifications with
  | nil => exact fun member => absurd member List.not_mem_nil
  | cons head rest ih =>
    intro member
    rcases List.mem_cons.mp member with rfl | member
    · exact Or.inl compares
    · exact Or.inr (ih member)

theorem subCompares_compares {id : Nat} {verifications : List (Verification BlockCode)}
    (compares : subCompares id verifications) : anyCompares id verifications := by
  obtain ⟨verification,member,compares⟩ := compares
  apply compares_of_mem _ member
  cases verification with
  | check check => cases compares
  | subPattern pattern => exact compares

-- The context fields that are compared read as in the context of the whole pattern.
abbrev Reads (layout : Layout) (first context : layout.Context) (compared : Nat → Prop) : Prop :=
  ∀ id, compared id → layout.memory.read id context = layout.memory.read id first

theorem reads_keeps {context after : layout.Context} {compared kept : Nat → Prop}
    (reads : Reads layout first context compared) (keeps : Keeps layout.sleigh kept context after)
    (isKept : ∀ id, compared id → kept id) : Reads layout first after compared :=
  fun id isCompared => (keeps id (isKept id isCompared)).trans (reads id isCompared)

-- A full match meets the equalities of one choice of branches.
mutual

theorem Verification.build_choice (within : TablesWithin parseTable tableLen) : (verification : Verification BlockCode) →
    {kept : Nat → Prop} → {offset : Nat} → {tokens : List UInt8} → {built built' : Built layout.Context τ} →
    verification.Steady layout parseTable kept → verification.Solved layout tableLen → verification.Anchored →
    Reads layout first built.context (fun id => verification.SubCompares id) →
    (verification.ComparesToken → tokens = whole.drop offset) →
    (∀ check, verification = .check check →
      ∀ equality ∈ check.equalities offset, equality.Holds layout (inputBit whole first)) →
    verification.build layout.sleigh parseTable instStart tokens built = .ok built' →
    ∃ choice ∈ verification.choices, ∀ equality ∈ verification.equalities BlockCode.len offset choice,
      equality.Holds layout (inputBit whole first)
  | .check check, kept, offset, tokens, built, built', steady, solved, anchored, reads, placed, checked, run =>
    ⟨.done,List.mem_singleton_self _,checked check rfl⟩
  | .subPattern pattern, kept, offset, tokens, built, built', steady, solved, anchored, reads, placed, checked, run => by
    obtain ⟨sub,found,run⟩ := bind_ok.mp run
    exact patternParse_choice within pattern steady solved anchored reads placed found

theorem buildAll_choice (within : TablesWithin parseTable tableLen) : (verifications : List (Verification BlockCode)) →
    {kept : Nat → Prop} → {offset : Nat} → {tokens : List UInt8} → {built built' : Built layout.Context τ} →
    allSteady layout parseTable kept verifications → allSolved layout tableLen verifications →
    allAnchored verifications → Reads layout first built.context (fun id => subCompares id verifications) →
    (anyComparesToken verifications → tokens = whole.drop offset) →
    (∀ check, .check check ∈ verifications →
      ∀ equality ∈ check.equalities offset, equality.Holds layout (inputBit whole first)) →
    buildAll layout.sleigh parseTable instStart tokens built verifications = .ok built' →
    ∃ choice ∈ allChoices verifications, ∀ equality ∈ allEqualities BlockCode.len offset choice verifications,
      equality.Holds layout (inputBit whole first)
  | [], kept, offset, tokens, built, built', steady, solved, anchored, reads, placed, checked, run =>
    ⟨.done,List.mem_singleton_self _,fun _ member => absurd member List.not_mem_nil⟩
  | verification :: rest, kept, offset, tokens, built, built', steady, solved, anchored, reads, placed, checked, run => by
    obtain ⟨middle,found,run⟩ := bind_ok.mp run
    obtain ⟨keeps,_⟩ := verification.build_frame within steady.1 solved.1 found
    obtain ⟨here,isHere,holds⟩ := verification.build_choice within steady.1 solved.1 anchored.1
      (fun id compares => reads id ⟨verification,List.mem_cons_self ..,compares⟩)
      (fun compares => placed (Or.inl compares))
      (fun check same => checked check (by rw [same]; exact List.mem_cons_self ..)) found
    have readsRest : Reads layout first middle.context (fun id => subCompares id rest) := by
      apply reads_keeps _ keeps fun _ compares => Or.inr compares
      intro id compares
      obtain ⟨other,member,compares⟩ := compares
      exact reads id ⟨other,List.mem_cons_of_mem _ member,compares⟩
    obtain ⟨later,isLater,holdsLater⟩ := buildAll_choice within rest steady.2 solved.2 anchored.2 readsRest
      (fun compares => placed (Or.inr compares))
      (fun check member => checked check (List.mem_cons_of_mem _ member)) run
    refine ⟨.both here later,mem_combine.mpr ⟨here,isHere,later,isLater,rfl⟩,?_⟩
    intro equality member
    rcases List.mem_append.mp member with member | member
    · exact holds equality member
    · exact holdsLater equality member

theorem Verification.branch_choice (within : TablesWithin parseTable tableLen) : (branch : Verification BlockCode) →
    {kept : Nat → Prop} → {offset : Nat} → {tokens : List UInt8} → {context : layout.Context} → {code : BlockCode} →
    {built : Built layout.Context τ} → branch.Steady layout parseTable kept → branch.Solved layout tableLen →
    branch.Anchored → Reads layout first context (fun id => branch.Compares id) →
    (branch.ComparesToken → tokens = whole.drop offset) →
    branch.branch layout.sleigh parseTable instStart tokens context code = .ok built →
    ∃ choice ∈ branch.choices, ∀ equality ∈ branch.equalities BlockCode.len offset choice,
      equality.Holds layout (inputBit whole first)
  | .check (.contextCheck id op value), kept, offset, tokens, context, code, built, steady, solved, anchored, reads,
      placed, run => by
    obtain ⟨_,met,run⟩ := bind_ok.mp run
    exact ⟨.done,List.mem_singleton_self _,@check_holds _ _ _ _ (.contextCheck id op value) _ _ _ met reads placed⟩
  | .check (.tokenFieldCheck id op value), kept, offset, tokens, context, code, built, steady, solved, anchored, reads,
      placed, run => by
    obtain ⟨_,met,run⟩ := bind_ok.mp run
    exact ⟨.done,List.mem_singleton_self _,@check_holds _ _ _ _ (.tokenFieldCheck id op value) _ _ _ met reads placed⟩
  | .check (.tableBuild table), kept, offset, tokens, context, code, built, steady, solved, anchored, reads, placed,
      run => by cases run
  | .subPattern pattern, kept, offset, tokens, context, code, built, steady, solved, anchored, reads, placed, run => by
    obtain ⟨sub,found,run⟩ := bind_ok.mp run
    exact patternParse_choice within pattern steady solved anchored reads placed found

theorem branches_choice (index : Nat) (within : TablesWithin parseTable tableLen) :
    (rest : List (Verification BlockCode)) → {kept : Nat → Prop} → {offset : Nat} → {tokens : List UInt8} → {context : layout.Context} →
    {code : BlockCode} → {built : Built layout.Context τ} → branchesSteady layout parseTable kept rest →
    allSolved layout tableLen rest → allAnchored rest → Reads layout first context (fun id => anyCompares id rest) →
    (anyComparesToken rest → tokens = whole.drop offset) →
    branches layout.sleigh parseTable instStart tokens context code rest = .ok built →
    ∃ taken inner, Choice.branch (index + taken) inner ∈ branchChoices index rest ∧
      ∀ equality ∈ branchEqualities BlockCode.len offset taken inner rest,
        equality.Holds layout (inputBit whole first)
  | [], kept, offset, tokens, context, code, built, steady, solved, anchored, reads, placed, run => by cases run
  | branch :: rest, kept, offset, tokens, context, code, built, steady, solved, anchored, reads, placed,
      run => by
    simp only [branches] at run
    split at run
    · obtain ⟨taken,inner,isInner,holds⟩ := branches_choice (index + 1) within rest steady.2 solved.2 anchored.2
        (fun id compares => reads id (Or.inr compares)) (fun compares => placed (Or.inr compares)) run
      rw [Nat.add_assoc,Nat.add_comm 1] at isInner
      exact ⟨taken + 1,inner,List.mem_append_right _ isInner,holds⟩
    · obtain ⟨inner,isInner,holds⟩ := branch.branch_choice within steady.1 solved.1 anchored.1
        (fun id compares => reads id (Or.inl compares)) (fun compares => placed (Or.inl compares)) run
      exact ⟨0,inner,List.mem_append_left _ (List.mem_map.mpr ⟨inner,isInner,rfl⟩),holds⟩

theorem Block.parse_choice (within : TablesWithin parseTable tableLen) : (block : Block BlockCode) →
    {kept : Nat → Prop} → {offset : Nat} → {tokens : List UInt8} → {context : layout.Context} →
    {built : Built layout.Context τ} → block.Steady layout parseTable kept → block.Solved layout tableLen →
    block.Anchored → Reads layout first context (fun id => block.Compares id) →
    (block.ComparesToken → tokens = whole.drop offset) →
    block.parse layout.sleigh parseTable instStart tokens context = .ok built →
    ∃ choice ∈ block.choices, ∀ equality ∈ block.equalities BlockCode.len offset choice,
      equality.Holds layout (inputBit whole first)
  | .and code verifications, kept, offset, tokens, context, built, steady, solved, anchored, reads, placed, run => by
    obtain ⟨_,met,run⟩ := bind_ok.mp run
    obtain ⟨middle,found,run⟩ := bind_ok.mp run
    have readsSub : Reads layout first (Built.start (τ := τ) code.len.least context).context
        (fun id => subCompares id verifications) :=
      fun id compares => reads id (subCompares_compares compares)
    have checked : ∀ check, .check check ∈ verifications →
        ∀ equality ∈ check.equalities offset, equality.Holds layout (inputBit whole first) := by
      intro check member
      have readsCheck : Reads layout first context (fun id => (Verification.check (φ := BlockCode) check).Compares id) :=
        fun id compares => reads id (compares_of_mem compares member)
      exact check_holds (checks_met met check member) readsCheck
        fun compares => placed (comparesToken_of_mem compares member)
    exact buildAll_choice within verifications steady solved.2 anchored readsSub placed checked found
  | .or code first rest, kept, offset, tokens, context, built, steady, solved, anchored, reads, placed, run => by
    simp only [Block.parse] at run
    split at run
    · obtain ⟨taken,inner,isInner,holds⟩ := branches_choice 1 within rest steady.2 solved.2.2 anchored.2
        (fun id compares => reads id (Or.inr compares)) (fun compares => placed (Or.inr compares)) run
      rw [Nat.add_comm 1] at isInner
      exact ⟨_,List.mem_append_right _ isInner,holds⟩
    · obtain ⟨inner,isInner,holds⟩ := first.branch_choice within steady.1 solved.2.1 anchored.1
        (fun id compares => reads id (Or.inl compares)) (fun compares => placed (Or.inl compares)) run
      exact ⟨_,List.mem_append_left _ (List.mem_map.mpr ⟨inner,isInner,rfl⟩),holds⟩

theorem patternParse_choice (within : TablesWithin parseTable tableLen) : (pattern : Pattern BlockCode) →
    {kept : Nat → Prop} → {offset : Nat} → {tokens : List UInt8} → {context : layout.Context} →
    {built : Built layout.Context τ} → patternSteady layout parseTable kept pattern →
    patternSolved layout tableLen pattern → patternAnchored pattern →
    Reads layout first context (fun id => patternCompares id pattern) →
    (patternComparesToken pattern → tokens = whole.drop offset) →
    patternParse layout.sleigh parseTable instStart tokens context pattern = .ok built →
    ∃ choice ∈ patternChoices pattern, ∀ equality ∈ patternEqualities BlockCode.len offset choice pattern,
      equality.Holds layout (inputBit whole first)
  | [], kept, offset, tokens, context, built, steady, solved, anchored, reads, placed, run =>
    ⟨.done,List.mem_singleton_self _,fun _ member => absurd member List.not_mem_nil⟩
  | block :: rest, kept, offset, tokens, context, built, steady, solved, anchored, reads, placed, run => by
    obtain ⟨own,found,run⟩ := bind_ok.mp run
    obtain ⟨keeps,isWithin⟩ := block.parse_frame within steady.1 solved.1 found
    obtain ⟨here,isHere,holds⟩ := block.parse_choice within steady.1 solved.1 anchored.1
      (fun id compares => reads id (Or.inl compares)) (fun compares => placed (Or.inl compares)) found
    split at run
    · cases run
    · obtain ⟨later,foundRest,run⟩ := bind_ok.mp run
      have placedRest : patternComparesToken rest →
          tokens.drop own.len = whole.drop (offset + block.phase.len.least) := by
        intro compares
        obtain ⟨single,isSingle⟩ := Option.isSome_iff_exists.mp (anchored.2.1 compares)
        rw [placed (Or.inr compares),List.drop_drop,PatternLen.single_within isSingle isWithin,
          PatternLen.single_least isSingle]
      obtain ⟨next,isNext,holdsNext⟩ := patternParse_choice within rest steady.2 solved.2 anchored.2.2
        (reads_keeps (fun id compares => reads id (Or.inr compares)) keeps fun _ compares => Or.inr compares)
        placedRest foundRest
      refine ⟨.both here next,mem_combine.mpr ⟨here,isHere,next,isNext,rfl⟩,?_⟩
      intro equality member
      rcases List.mem_append.mp member with member | member
      · exact holds equality member
      · exact holdsNext equality member

end

theorem disassembly_keeps {kept : Nat → Prop} {actions : List Assertation} (quiet : ActionsKeep layout kept actions) :
    ∀ matching matching' : Matching layout.Context (Nat × τ),
      disassembly layout.sleigh instStart actions matching = .ok matching' →
      Keeps layout.sleigh kept matching.context matching'.context := by
  induction actions with
  | nil =>
    intro matching matching' run
    cases run
    exact keeps_refl _
  | cons action rest ih =>
    intro matching matching' run
    have later := ih fun id right member => quiet id right (List.mem_cons_of_mem _ member)
    cases action with
    | globalSet address id => exact later _ _ run
    | assignment left right =>
      simp only [disassembly] at run
      split at run
      · cases run
        exact keeps_refl _
      · obtain ⟨value,_,run⟩ := bind_ok.mp run
        have after := later _ _ run
        cases left with
        | var id => exact after
        | context id => exact keeps_trans (quiet id right (List.mem_cons_self ..) value _) after

-- The end of the code for a block of the constructor, after its checks.
section RootBlock

variable {matching matching' : Matching layout.Context (Nat × τ)} {root : RootBlock} {partOfFlat : Bool}

theorem root_and_parts {code : BlockCode} {verifications : List (Verification BlockCode)}
    (isAnd : root.block = .and code verifications)
    (run : root.parse layout.sleigh parseTable instStart partOfFlat matching = .ok matching') :
    ∃ started built fields finished,
      disassembly layout.sleigh instStart root.pre matching = .ok started ∧
      buildAll layout.sleigh parseTable instStart started.tokens (.start code.len.least started.context) verifications =
        .ok built ∧
      disassembly layout.sleigh instStart root.pos (absorb started (built.produce fields)) = .ok finished ∧
      advance code.own built.len built.tables finished = .ok matching' := by
  unfold RootBlock.parse at run
  rw [isAnd] at run
  obtain ⟨_,_,run⟩ := bind_ok.mp run
  obtain ⟨started,ranPre,run⟩ := bind_ok.mp run
  obtain ⟨built,ranBuild,run⟩ := bind_ok.mp run
  obtain ⟨fields,_,run⟩ := bind_ok.mp run
  obtain ⟨finished,ranPos,run⟩ := bind_ok.mp run
  exact ⟨started,built,fields,finished,ranPre,ranBuild,ranPos,run⟩

theorem root_or_parts {code : BlockCode} {branch : Verification BlockCode} {rest : List (Verification BlockCode)}
    (isOr : root.block = .or code branch rest)
    (run : root.parse layout.sleigh parseTable instStart partOfFlat matching = .ok matching') :
    ∃ built finished,
      branches layout.sleigh parseTable instStart matching.tokens matching.context code (branch :: rest) = .ok built ∧
      disassembly layout.sleigh instStart root.pos (absorb matching built) = .ok finished ∧
      advance built.len built.len built.tables finished = .ok matching' := by
  unfold RootBlock.parse at run
  rw [isOr] at run
  obtain ⟨built,ranBranches,run⟩ := bind_ok.mp run
  obtain ⟨finished,ranPos,run⟩ := bind_ok.mp run
  exact ⟨built,finished,ranBranches,ranPos,run⟩

theorem advance_tokens {own blockLen : Nat} {tables : List (Nat × τ)}
    (run : advance own blockLen tables matching = .ok matching') :
    matching'.tokens = matching.tokens.drop blockLen ∧ matching'.context = matching.context := by
  obtain ⟨_,rfl⟩ := advance_ok run
  exact ⟨rfl,rfl⟩

-- A block moves on by its length, and keeps what later blocks compare.
theorem root_frame (within : TablesWithin parseTable tableLen) {later : Nat → Prop}
    (steady : root.block.Steady layout parseTable later) (solved : root.block.Solved layout tableLen)
    (quietPre : ActionsKeep layout (fun id => later id ∨ subCompares id root.block.subPatterns) root.pre)
    (quietPos : ActionsKeep layout later root.pos)
    (run : root.parse layout.sleigh parseTable instStart partOfFlat matching = .ok matching') :
    Keeps layout.sleigh later matching.context matching'.context ∧
      ∃ len, root.block.phase.len.Within len ∧ matching'.tokens = matching.tokens.drop len := by
  cases isBlock : root.block with
  | and code verifications =>
    obtain ⟨started,built,fields,finished,ranPre,ranBuild,ranPos,run⟩ := root_and_parts isBlock run
    rw [isBlock] at steady solved
    obtain ⟨keepsBuild,longer,lens,upper⟩ := buildAll_frame within verifications steady solved.2 ranBuild
    have keepsPre := keeps_mono (disassembly_keeps quietPre _ _ ranPre) fun _ isLater => Or.inl isLater
    have keepsPos := disassembly_keeps quietPos _ _ ranPos
    have framePre := disassembly_frame ranPre
    have framePos := disassembly_frame ranPos
    obtain ⟨tokens,context⟩ := advance_tokens run
    refine ⟨?_,built.len,and_within solved.1 longer lens upper,?_⟩
    · rw [context]
      exact keeps_trans (keeps_trans keepsPre keepsBuild) keepsPos
    · rw [tokens,framePos.tokens]
      exact congrArg (List.drop built.len) framePre.tokens
  | or code branch rest =>
    obtain ⟨built,finished,ranBranches,ranPos,run⟩ := root_or_parts isBlock run
    rw [isBlock] at steady solved
    obtain ⟨keepsBranches,isWithin⟩ :=
      branches_frame within (branch :: rest) steady ⟨solved.2.1,solved.2.2⟩ ranBranches
    have keepsPos := disassembly_keeps quietPos _ _ ranPos
    have framePos := disassembly_frame ranPos
    obtain ⟨tokens,context⟩ := advance_tokens run
    refine ⟨?_,built.len,?_,?_⟩
    · rw [context]
      exact keeps_trans keepsBranches keepsPos
    · change code.len.Within built.len
      rw [solved.1]
      exact intersection_fold_within isWithin
    · rw [tokens,framePos.tokens]
      rfl

-- A full match of a block meets the equalities of a choice.
theorem root_choice (within : TablesWithin parseTable tableLen) {later : Nat → Prop} {offset : Nat}
    (steady : root.block.Steady layout parseTable later) (solved : root.block.Solved layout tableLen)
    (anchored : root.block.Anchored)
    (quietPre : ActionsKeep layout (fun id => later id ∨ subCompares id root.block.subPatterns) root.pre)
    (reads : Reads layout first matching.context fun id => root.block.Compares id)
    (placed : root.block.ComparesToken → matching.tokens = whole.drop offset)
    (run : root.parse layout.sleigh parseTable instStart false matching = .ok matching') :
    ∃ choice ∈ root.block.choices, ∀ equality ∈ root.block.equalities BlockCode.len offset choice,
      equality.Holds layout (inputBit whole first) := by
  cases isBlock : root.block with
  | and code verifications =>
    obtain ⟨started,built,fields,finished,ranPre,ranBuild,ranPos,_⟩ := root_and_parts isBlock run
    unfold RootBlock.parse at run
    rw [isBlock] at run steady solved anchored reads placed quietPre
    obtain ⟨_,met,_⟩ := bind_ok.mp run
    have checked : ∀ check, .check check ∈ verifications →
        ∀ equality ∈ check.equalities offset, equality.Holds layout (inputBit whole first) := by
      intro check member
      have readsCheck : Reads layout first matching.context
          (fun id => (Verification.check (φ := BlockCode) check).Compares id) :=
        fun id compares => reads id (compares_of_mem compares member)
      exact check_holds (checks_met met check member) readsCheck
        fun compares => placed (comparesToken_of_mem compares member)
    have readsSub : Reads layout first (Built.start (τ := τ) code.len.least started.context).context
        (fun id => subCompares id verifications) :=
      reads_keeps (fun id compares => reads id (subCompares_compares compares)) (disassembly_keeps quietPre _ _ ranPre)
        fun _ compares => Or.inr compares
    have placedSub : anyComparesToken verifications → started.tokens = whole.drop offset := by
      intro compares
      rw [(disassembly_frame ranPre).tokens]
      exact placed compares
    exact buildAll_choice within verifications steady solved.2 anchored readsSub placedSub checked ranBuild
  | or code branch rest =>
    obtain ⟨built,finished,ranBranches,_,_⟩ := root_or_parts isBlock run
    rw [isBlock] at steady solved anchored reads placed
    have ran : (Block.or code branch rest).parse layout.sleigh parseTable instStart matching.tokens matching.context =
        .ok built := ranBranches
    exact (Block.or code branch rest).parse_choice within steady solved anchored reads placed ran

end RootBlock

theorem rootParse_choice (within : TablesWithin parseTable tableLen) {roots : List RootBlock} :
    ∀ {offset : Nat} {matching matching' : Matching layout.Context (Nat × τ)},
      rootSteady layout parseTable roots → patternSolved layout tableLen (roots.map RootBlock.block) →
      patternAnchored (roots.map RootBlock.block) →
      Reads layout first matching.context (fun id => patternCompares id (roots.map RootBlock.block)) →
      (patternComparesToken (roots.map RootBlock.block) → matching.tokens = whole.drop offset) →
      rootParse layout.sleigh parseTable instStart false roots matching = .ok matching' →
      ∃ choice ∈ patternChoices (roots.map RootBlock.block),
        ∀ equality ∈ patternEqualities BlockCode.len offset choice (roots.map RootBlock.block),
          equality.Holds layout (inputBit whole first) := by
  induction roots with
  | nil =>
    intro offset matching matching' _ _ _ _ _ _
    exact ⟨.done,List.mem_singleton_self _,fun _ member => absurd member List.not_mem_nil⟩
  | cons root rest ih =>
    intro offset matching matching' steady solved anchored reads placed run
    obtain ⟨quietPre,steadyHere,quietPos,steadyRest⟩ := steady
    obtain ⟨middle,ran,run⟩ := bind_ok.mp run
    obtain ⟨keeps,len,isWithin,tokens⟩ := root_frame within steadyHere solved.1 quietPre quietPos ran
    obtain ⟨here,isHere,holds⟩ := root_choice within steadyHere solved.1 anchored.1 quietPre
      (fun id compares => reads id (Or.inl compares)) (fun compares => placed (Or.inl compares)) ran
    have placedRest : patternComparesToken (rest.map RootBlock.block) →
        middle.tokens = whole.drop (offset + root.block.phase.len.least) := by
      intro compares
      obtain ⟨single,isSingle⟩ := Option.isSome_iff_exists.mp (anchored.2.1 compares)
      rw [tokens,placed (Or.inr compares),List.drop_drop,PatternLen.single_within isSingle isWithin,
        PatternLen.single_least isSingle]
    obtain ⟨next,isNext,holdsNext⟩ := ih steadyRest solved.2 anchored.2.2
      (reads_keeps (fun id compares => reads id (Or.inr compares)) keeps fun _ compares => compares) placedRest run
    refine ⟨.both here next,mem_combine.mpr ⟨here,isHere,next,isNext,rfl⟩,?_⟩
    intro equality member
    rcases List.mem_append.mp member with member | member
    · exact holds equality member
    · exact holdsNext equality member

-- The checks that the parser leaves out are those that the masks have made.
section Checks

variable {bits : ConstraintBits} {tokens : List UInt8} {context : layout.Context} {offset : Nat}

theorem checks_flat {verifications : List (Decode.Verification layout.Context)}
    (run : checks layout.sleigh instStart false tokens context verifications = .ok ()) (partOfFlat : Bool) :
    checks layout.sleigh instStart partOfFlat tokens context verifications = .ok () := by
  induction verifications with
  | nil => rfl
  | cons verification rest ih =>
    obtain ⟨_,met,run⟩ := bind_ok.mp run
    have later := ih run
    unfold checks
    split
    · exact later
    · exact bind_ok.mpr ⟨(),met,later⟩

-- What an equality must be for the parser to leave it out.
def Equality.Checked (layout : Layout) (bits : ConstraintBits) (input : Place → Bool) (equality : Equality) : Prop :=
  equality.Fits layout ∧ equality.Inside layout bits ∧ equality.Holds layout input

theorem flat_met {check : Check} (enough : bits.token.length ≤ 8 * whole.length) (placed : tokens = whole.drop offset)
    (isFlat : (check.verification : Decode.Verification layout.Context).inFlat = true)
    (reads : Reads layout first context fun id => (Verification.check (φ := BlockCode) check).Compares id)
    (checked : ∀ equality ∈ check.equalities offset, equality.Checked layout bits (inputBit whole first)) :
    (check.verification).check layout.sleigh instStart tokens context = .ok () := by
  cases check with
  | tableBuild table => rfl
  | contextCheck id op value =>
    simp only [Check.verification,Decode.Verification.inFlat] at isFlat
    split at isFlat
    · rename_i number same
      cases same
      obtain ⟨fits,_,holds⟩ := checked (.context id (BitVec.ofInt 128 number)) (List.mem_singleton_self _)
      have isValue := context_value fits holds
      rw [← reads id ⟨rfl,rfl⟩] at isValue
      exact verification_eq.mpr isValue
    · rename_i same
      cases same
    · cases isFlat
  | tokenFieldCheck id op value =>
    simp only [Check.verification,Decode.Verification.inFlat] at isFlat
    split at isFlat
    · rename_i same
      cases same
    · rename_i number same
      cases same
      obtain ⟨fits,inside,holds⟩ := checked (.token offset id (BitVec.ofInt 128 number)) (List.mem_singleton_self _)
      obtain ⟨raw,found,isValue⟩ := token_value fits inside enough holds
      subst placed
      exact bind_ok.mpr ⟨raw,found,bind_ok.mpr ⟨_,rfl,verification_eq.mpr isValue⟩⟩
    · cases isFlat

theorem checks_full {verifications : List (Verification BlockCode)} (enough : bits.token.length ≤ 8 * whole.length)
    (placed : tokens = whole.drop offset) (reads : Reads layout first context fun id => anyCompares id verifications)
    (checked : ∀ check, .check check ∈ verifications →
      ∀ equality ∈ check.equalities offset, equality.Checked layout bits (inputBit whole first))
    (run : checks layout.sleigh instStart true tokens context (directs verifications) = .ok ()) :
    checks layout.sleigh instStart false tokens context (directs verifications) = .ok () := by
  induction verifications with
  | nil => rfl
  | cons verification rest ih =>
    have later := ih (fun id compares => reads id (Or.inr compares))
      fun check member => checked check (List.mem_cons_of_mem _ member)
    cases verification with
    | subPattern pattern => exact later run
    | check check =>
      simp only [directs,checks,Bool.true_and] at run
      simp only [directs,checks,Bool.false_and]
      split at run
      · rename_i isFlat
        have met : (check.verification).check layout.sleigh instStart tokens context = .ok () :=
          flat_met enough placed isFlat (fun id compares => reads id (Or.inl compares))
            (checked check (List.mem_cons_self ..))
        exact bind_ok.mpr ⟨(),met,later run⟩
      · obtain ⟨_,met,run⟩ := bind_ok.mp run
        exact bind_ok.mpr ⟨(),met,later run⟩

end Checks

theorem mem_allRoot {len : φ → PatternLen} {offset : Nat} {check : Check} {equality : Equality}
    {verifications : List (Verification φ)} (isEquality : equality ∈ check.equalities offset) :
    ∀ {choice : Choice}, .check check ∈ verifications → choice ∈ allChoices verifications →
      (true, equality) ∈ allRoot len true offset choice verifications := by
  induction verifications with
  | nil => exact fun member => absurd member List.not_mem_nil
  | cons verification rest ih =>
    intro choice member isChoice
    obtain ⟨here,_,later,isLater,rfl⟩ := mem_combine.mp isChoice
    rcases List.mem_cons.mp member with rfl | member
    · exact List.mem_append_left _ (List.mem_map.mpr ⟨equality,isEquality,rfl⟩)
    · exact List.mem_append_right _ (ih member isLater)

-- A match of the flat pattern is a full match, where the masks have made the checks.
theorem rootParse_full (within : TablesWithin parseTable tableLen) {bits : ConstraintBits}
    (enough : bits.token.length ≤ 8 * whole.length) {roots : List RootBlock} :
    ∀ {flat : Bool} {offset : Nat} {choice : Choice} {matching matching' : Matching layout.Context (Nat × τ)},
      choice ∈ patternChoices (roots.map RootBlock.block) →
      (∀ equality, (true, equality) ∈ rootEqualities BlockCode.len flat offset choice (roots.map RootBlock.block) →
        equality.Checked layout bits (inputBit whole first)) →
      rootSteady layout parseTable roots → patternSolved layout tableLen (roots.map RootBlock.block) →
      Reads layout first matching.context (fun id => patternCompares id (roots.map RootBlock.block)) →
      (flat = true → matching.tokens = whole.drop offset) →
      rootParse layout.sleigh parseTable instStart flat roots matching = .ok matching' →
      rootParse layout.sleigh parseTable instStart false roots matching = .ok matching' := by
  induction roots with
  | nil => exact fun _ _ _ _ _ _ run => run
  | cons root rest ih =>
    intro flat offset choice matching matching' isChoice checked steady solved reads placed run
    cases flat with
    | false => exact run
    | true =>
      obtain ⟨quietPre,steadyHere,quietPos,steadyRest⟩ := steady
      obtain ⟨here,isHere,later,isLater,rfl⟩ := mem_combine.mp isChoice
      obtain ⟨middle,ran,run⟩ := bind_ok.mp run
      obtain ⟨keeps,len,isWithin,tokens⟩ := root_frame within steadyHere solved.1 quietPre quietPos ran
      have full : root.parse layout.sleigh parseTable instStart false matching = .ok middle := by
        cases isBlock : root.block with
        | or code branch others =>
          unfold RootBlock.parse at ran ⊢
          rw [isBlock] at ran ⊢
          exact ran
        | and code verifications =>
          unfold RootBlock.parse at ran ⊢
          rw [isBlock] at ran ⊢
          obtain ⟨_,met,ran⟩ := bind_ok.mp ran
          apply bind_ok.mpr
          refine ⟨(),?_,ran⟩
          have readsHere : Reads layout first matching.context fun id => anyCompares id verifications := by
            intro id compares
            apply reads id
            apply Or.inl
            rw [isBlock]
            exact compares
          apply checks_full enough (placed rfl) readsHere _ met
          intro check member equality isEquality
          apply checked
          apply List.mem_append_left
          rw [isBlock] at isHere ⊢
          exact mem_allRoot isEquality member isHere
      have checkedRest : ∀ equality, (true, equality) ∈
          rootEqualities BlockCode.len (true && root.block.phase.len.singleLen.isSome)
            (offset + root.block.phase.len.least) later (rest.map RootBlock.block) →
          equality.Checked layout bits (inputBit whole first) :=
        fun equality member => checked equality (List.mem_append_right _ member)
      have readsRest : Reads layout first middle.context fun id => patternCompares id (rest.map RootBlock.block) :=
        reads_keeps (fun id compares => reads id (Or.inr compares)) keeps fun _ compares => compares
      have placedRest : (true && root.block.phase.len.singleLen.isSome) = true →
          middle.tokens = whole.drop (offset + root.block.phase.len.least) := by
        intro isSingle
        rw [Bool.true_and] at isSingle
        obtain ⟨single,isSingle⟩ := Option.isSome_iff_exists.mp isSingle
        rw [tokens,placed rfl,List.drop_drop,PatternLen.single_within isSingle isWithin,
          PatternLen.single_least isSingle]
      exact bind_ok.mpr
        ⟨middle,full,ih isLater checkedRest steadyRest solved.2 readsRest placedRest run⟩

theorem rootParse_flat {roots : List RootBlock} :
    ∀ {flat : Bool} {matching matching' : Matching layout.Context (Nat × τ)},
      rootParse layout.sleigh parseTable instStart false roots matching = .ok matching' →
      rootParse layout.sleigh parseTable instStart flat roots matching = .ok matching' := by
  induction roots with
  | nil => exact fun run => run
  | cons root rest ih =>
    intro flat matching matching' run
    obtain ⟨middle,ran,run⟩ := bind_ok.mp run
    apply bind_ok.mpr
    refine ⟨middle,?_,ih run⟩
    unfold RootBlock.parse at ran ⊢
    cases isBlock : root.block with
    | or code branch others =>
      rw [isBlock] at ran
      exact ran
    | and code verifications =>
      rw [isBlock] at ran
      obtain ⟨_,met,ran⟩ := bind_ok.mp ran
      exact bind_ok.mpr ⟨(),checks_flat met flat,ran⟩

end Rsleigh.Semantic.Variants
