import Rsleigh.Preprocessor.Exact

namespace Rsleigh.Preprocessor

open Parsing Syntax Fallible

-- A search keeps count of the groups it passes over.
theorem findBlock_nesting {f : IfBorders → Bool} (stops : f .endIf = true) {block : IfBorders} {rest : List Line}
    (depth : Nat) : ∀ {ls : List Line} {counter : Nat}, findBlock f counter ls = some (block,rest) →
      nesting (depth + 1 + counter) ls = nesting (depth + 1) rest := by
  intro ls
  induction ls with
  | nil =>
    intro counter found
    cases counter <;> cases found
  | cons line ls ih =>
    intro counter found
    cases line with
    | tokens line => exact ih found
    | directive macroLine line =>
      cases macroLine with
      | define name value => exact ih found
      | undefine name => exact ih found
      | include_ path => exact ih found
      | if_ cond =>
        have later : findBlock f (counter + 1) ls = some (block,rest) := by
          cases cond <;> cases counter <;> exact found
        exact ih later
      | endIf =>
        cases counter with
        | zero =>
          simp only [findBlock,Line.border,MacroLine.border,stops] at found
          cases found
          rfl
        | succ counter => exact ih found
      | elIf cond =>
        cases counter with
        | zero =>
          simp only [findBlock,Line.border,MacroLine.border] at found
          split at found
          · cases found
            rfl
          · exact ih found
        | succ counter => exact ih found
      | else_ =>
        cases counter with
        | zero =>
          simp only [findBlock,Line.border,MacroLine.border] at found
          split at found
          · cases found
            rfl
          · exact ih found
        | succ counter => exact ih found

-- A file whose end cannot be reached with every group closed.
def Unclosed (file : DrainingFile) : Prop :=
  ∃ items ls, At file items ls ∧ nesting file.ifStack.length ls ≠ some 0

section Files

variable {file file' : DrainingFile} {state : PreProcessorState}

theorem nextIfBlock_inv {f : IfBorders → Bool} {ls : List Line} {block : IfBorders} (atEnd : AtEnd file ls)
    (found : file.nextIfBlock f = .ok (block,file')) :
    ∃ rest, findBlock f 0 ls = some (block,rest) ∧ file'.data = chars rest ∧ file'.ifStack = file.ifStack := by
  obtain ⟨ending,isData⟩ := atEnd
  have split : lines file.data = ([],file.data) :: lines (chars ls) := by
    rw [isData]
    have unbroken : Unbroken [] := by decide
    exact lines_line unbroken ending (chars ls)
  have noBorder : border [] = none := border_refused nofun
  unfold DrainingFile.nextIfBlock at found
  rw [split,findIfBlock,noBorder] at found
  simp only at found
  rw [findIfBlock_lines] at found
  cases isFound : findBlock f 0 ls with
  | none =>
    rw [isFound] at found
    cases found
  | some result =>
    rw [isFound] at found
    cases found
    exact ⟨result.2,rfl,rfl,rfl⟩

theorem findBlock_directive {f : IfBorders → Bool} {block : IfBorders} {rest : List Line} :
    ∀ {ls : List Line} {counter : Nat}, findBlock f counter ls = some (block,rest) →
      ∃ macroLine, ∃ line : DirectiveLine macroLine, ∃ later, rest = .directive macroLine line :: later := by
  intro ls
  induction ls with
  | nil =>
    intro counter found
    cases counter <;> cases found
  | cons line ls ih =>
    intro counter found
    unfold findBlock at found
    cases line with
    | tokens line => exact ih found
    | directive macroLine line =>
      split at found
      · exact ih found
      · split at found
        all_goals first | exact ih found | skip
        split at found
        · cases found
          exact ⟨macroLine,line,ls,rfl⟩
        · exact ih found

theorem found_directive {f : IfBorders → Bool} (stops : f .endIf = true) {ls : List Line} {block : IfBorders}
    {next : DrainingFile} {macroLine : MacroLine} (atEnd : AtEnd file ls)
    (found : file.nextIfBlock f = .ok (block,next)) (parsed : next.nomIt MacroLine.parse = .ok (macroLine,file')) :
    ∃ line : DirectiveLine macroLine, ∃ rest, AtEnd file' rest ∧ file'.ifStack = file.ifStack ∧
      ∀ depth, nesting (depth + 1) ls = nesting (depth + 1) (.directive macroLine line :: rest) := by
  obtain ⟨lines,isFound,isData,sameStack⟩ := nextIfBlock_inv atEnd found
  obtain ⟨directive,line,rest,shape⟩ := findBlock_directive isFound
  rw [shape] at isData
  obtain ⟨last,accepted,atEnd',sameStack'⟩ := nomIt_directive isData
  rw [accepted] at parsed
  cases parsed
  refine ⟨line,rest,atEnd',sameStack'.trans sameStack,?_⟩
  intro depth
  rw [← shape]
  exact findBlock_nesting stops depth isFound

theorem push_unclosed {status : IfStatus} {ls : List Line} (atEnd : AtEnd file ls)
    (unclosed : nesting (file.ifStack.length + 1) ls ≠ some 0) : Unclosed (file.push status) :=
  ⟨[],ls,atEnd_at atEnd,unclosed⟩

-- A search for a branch to enter.
theorem search_unclosed {fuel : Nat} :
    ∀ {file : DrainingFile} {ls : List Line}, AtEnd file ls → nesting (file.ifStack.length + 1) ls ≠ some 0 →
      file.searchIfBlock state fuel = .ok file' → Unclosed file' := by
  induction fuel with
  | zero =>
    intro file ls atEnd unclosed run
    cases run
  | succ fuel ih =>
    intro file ls atEnd unclosed run
    obtain ⟨found,isFound,run⟩ := bind_ok.mp run
    obtain ⟨parsed,isParsed,run⟩ := bind_ok.mp run
    rcases parsed with ⟨macroLine,next⟩
    obtain ⟨line,rest,atEnd',sameStack,same⟩ := found_directive rfl atEnd isFound isParsed
    rw [same] at unclosed
    cases macroLine with
    | elIf cond =>
      obtain ⟨holds,_,run⟩ := bind_ok.mp run
      rw [← sameStack] at unclosed
      cases holds with
      | true =>
        cases run
        exact push_unclosed atEnd' unclosed
      | false => exact ih atEnd' unclosed run
    | else_ =>
      cases run
      rw [← sameStack] at unclosed
      exact push_unclosed atEnd' unclosed
    | endIf =>
      cases run
      rw [← sameStack] at unclosed
      exact ⟨[],rest,atEnd_at atEnd',unclosed⟩
    | _ => cases run

theorem enter_unclosed {fuel : Nat} {cond : Bool} {ls : List Line} (atEnd : AtEnd file ls)
    (unclosed : nesting (file.ifStack.length + 1) ls ≠ some 0) (run : file.enterIfBlock fuel cond state = .ok file') :
    Unclosed file' := by
  unfold DrainingFile.enterIfBlock at run
  cases cond with
  | true =>
    cases run
    exact push_unclosed atEnd unclosed
  | false => exact search_unclosed atEnd unclosed run

-- A directive is followed by a part of the file that cannot be closed either.
theorem followed_unclosed {fuel : Nat} {macroLine : MacroLine} {line : DirectiveLine macroLine} {rest : List Line}
    {product : Product} {last : DrainingFile} {state' : PreProcessorState} (atEnd : AtEnd file rest)
    (unclosed : nesting file.ifStack.length (.directive macroLine line :: rest) ≠ some 0)
    (later : ∀ {file : DrainingFile} {state : PreProcessorState}, Unclosed file →
      file.parse fuel state = .ok (product,last,state') → product ≠ .end_ ∧ Unclosed last)
    (run : followed fuel file.ifStack.head? state (.macro_ macroLine,file) = .ok (product,last,state')) :
    product ≠ .end_ ∧ Unclosed last := by
  have next : macroLine = .else_ ∨ (∃ cond, macroLine = .elIf cond) → product ≠ .end_ ∧ Unclosed last := by
    intro isNext
    have passed : ∃ found, file.nextIfBlock (fun block => block = .endIf) = .ok found ∧ ∃ parsed,
        found.2.nomIt MacroLine.parse = .ok (.endIf,parsed) ∧
        parsed.pop.parse fuel state = .ok (product,last,state') := by
      rcases isNext with rfl | ⟨cond,rfl⟩
      all_goals
        unfold followed at run
        dsimp only at run
        split at run
        · cases run
        · obtain ⟨found,isFound,run⟩ := bind_ok.mp run
          obtain ⟨parsed,isParsed,run⟩ := bind_ok.mp run
          rcases parsed with ⟨lastLine,parsed⟩
          cases lastLine with
          | endIf => exact ⟨found,isFound,parsed,isParsed,run⟩
          | _ => cases run
    have isOpen : ∃ depth, file.ifStack.length = depth + 1 := by
      rcases isNext with rfl | ⟨cond,rfl⟩
      all_goals
        cases stack : file.ifStack with
        | nil =>
          rw [stack] at run
          cases run
        | cons status below => exact ⟨below.length,rfl⟩
    obtain ⟨found,isFound,parsed,isParsed,run⟩ := passed
    obtain ⟨depth,isDepth⟩ := isOpen
    obtain ⟨endLine,after,atEnd',sameStack,same⟩ := found_directive rfl atEnd isFound isParsed
    have sameDepth : parsed.pop.ifStack.length = depth := by
      change parsed.ifStack.tail.length = depth
      rw [sameStack,List.length_tail,isDepth]
      rfl
    have skips : nesting file.ifStack.length (.directive macroLine line :: rest) = nesting (depth + 1) rest := by
      rw [isDepth]
      rcases isNext with rfl | ⟨cond,rfl⟩ <;> rfl
    apply later _ run
    refine ⟨[],after,atEnd_at atEnd',?_⟩
    rw [sameDepth]
    rw [skips,same] at unclosed
    exact unclosed
  cases macroLine with
  | include_ path =>
    cases run
    exact ⟨nofun,[],rest,atEnd_at atEnd,unclosed⟩
  | define name value =>
    obtain ⟨defines,_,run⟩ := bind_ok.mp run
    exact later ⟨[],rest,atEnd_at atEnd,unclosed⟩ run
  | undefine name =>
    obtain ⟨defines,_,run⟩ := bind_ok.mp run
    exact later ⟨[],rest,atEnd_at atEnd,unclosed⟩ run
  | if_ cond =>
    obtain ⟨holds,_,run⟩ := bind_ok.mp run
    obtain ⟨entered,isEntered,run⟩ := bind_ok.mp run
    have open_ : nesting (file.ifStack.length + 1) rest ≠ some 0 := by
      cases depth : file.ifStack.length <;> rw [depth] at unclosed <;> exact unclosed
    exact later (enter_unclosed atEnd open_ isEntered) run
  | endIf =>
    cases stack : file.ifStack with
    | nil =>
      rw [stack] at run
      cases run
    | cons status below =>
      rw [stack] at run unclosed
      apply later _ run
      refine ⟨[],rest,atEnd_at atEnd,?_⟩
      change nesting file.ifStack.tail.length rest ≠ some 0
      rw [stack]
      exact unclosed
  | elIf cond => exact next (Or.inr ⟨cond,rfl⟩)
  | else_ => exact next (Or.inl rfl)

theorem item_unclosed {item : LineItem} {items : List LineItem} {ls : List Line} {product : Product}
    {last : DrainingFile} {state' : PreProcessorState} {fuel : Nat} (position : At file (item :: items) ls)
    (unclosed : nesting file.ifStack.length ls ≠ some 0)
    (run : file.parse (fuel + 1) state = .ok (product,last,state')) : product ≠ .end_ ∧ Unclosed last := by
  obtain ⟨file',isItem,position',sameStack⟩ := DrainingFile.parseBody_item position
  rw [parse_body isItem] at run
  rw [← sameStack] at unclosed
  cases item with
  | token token =>
    cases run
    exact ⟨nofun,items,ls,position',unclosed⟩
  | expansion name =>
    cases run
    exact ⟨nofun,items,ls,position',unclosed⟩

-- What the file gives next is not its end: the induction on the lines passes the ones that have no item.
theorem drain_unclosed {product : Product} {last : DrainingFile} {state' : PreProcessorState} {fuel : Nat} :
    ∀ {file : DrainingFile} {state : PreProcessorState}, Unclosed file →
      file.parse fuel state = .ok (product,last,state') → product ≠ .end_ ∧ Unclosed last := by
  induction fuel with
  | zero =>
    intro file state _ run
    cases run
  | succ fuel ofFuel =>
    intro file state unclosed run
    obtain ⟨items,ls,position,unclosed⟩ := unclosed
    induction ls generalizing file items with
    | nil =>
      cases items with
      | nil =>
        obtain ⟨file',ended,sameStack⟩ := DrainingFile.parseBody_end position
        have isOpen : file.ifStack ≠ [] := by
          intro stack
          rw [stack] at unclosed
          exact unclosed rfl
        have extended : Extends .outOfFuel (file.parse (fuel + 1) state) (file.parse (fuel + 2) state) :=
          drain_extends (Nat.le_succ _)
        have known : file.parse (fuel + 1) state ≠ .error .outOfFuel := by
          rw [run]
          exact nofun
        rw [← extends_same extended known,parse_followed,ended] at run
        cases stack : file.ifStack with
        | nil => exact absurd stack isOpen
        | cons status below =>
          rw [stack] at run
          cases run
      | cons item items => exact item_unclosed position unclosed run
    | cons line rest ofRest =>
      cases items with
      | cons item items => exact item_unclosed position unclosed run
      | nil =>
        cases line with
        | tokens line =>
          obtain ⟨started,position',sameStack,starts⟩ := DrainingFile.parseBody_tokens position
          have extended := (@tokens_drains file started state sameStack starts).back (fuel + 1)
          have known : file.parse (fuel + 1) state ≠ .error .outOfFuel := by
            rw [run]
            exact nofun
          rw [← extends_same extended known] at run
          rw [← sameStack] at unclosed
          exact ofRest run _ position' unclosed
        | directive macroLine line =>
          obtain ⟨file',isDirective,atEnd,sameStack⟩ := DrainingFile.parseBody_directive position
          rw [parse_body isDirective,← sameStack] at run
          rw [← sameStack] at unclosed
          exact followed_unclosed atEnd unclosed ofFuel run

end Files

-- One of the sources that are left is such a file.
def Trapped (processor : FilePreProcessor) : Prop :=
  ∃ file, .file file ∈ processor.fileStack ∧ Unclosed file

section Processors

variable {readFile : Text → Option Text}

theorem parse_trapped {token : Option TokenType} {next : FilePreProcessor} {fuel : Nat} :
    ∀ {processor : FilePreProcessor}, Trapped processor →
      FilePreProcessor.parse readFile fuel processor = .ok (token,next) → token ≠ none ∧ Trapped next := by
  induction fuel with
  | zero =>
    intro processor _ run
    cases run
  | succ fuel ih =>
    intro processor trapped run
    rcases processor with ⟨fileStack,defines⟩
    obtain ⟨trap,member,unclosed⟩ := trapped
    cases fileStack with
    | nil => cases member
    | cons source below =>
      cases source with
      | macro_ data =>
        -- The file is below the macro.
        have member : DrainingSource.file trap ∈ below := by
          rcases List.mem_cons.mp member with isTop | member
          · cases isTop
          · exact member
        unfold FilePreProcessor.parse at run
        obtain ⟨parsed,_,run⟩ := bind_ok.mp run
        rcases parsed with ⟨found,rest⟩
        cases found with
        | some found =>
          cases run
          exact ⟨Option.some_ne_none _,trap,List.mem_cons_of_mem _ member,unclosed⟩
        | none => exact ih ⟨trap,member,unclosed⟩ run
      | file file =>
        rw [parse_file] at run
        obtain ⟨drained,isDrained,run⟩ := bind_ok.mp run
        rcases drained with ⟨product,file',defines'⟩
        -- The file is the last one, and goes on, or it is below the last one.
        have left : (DrainingSource.file trap ∈ below) ∨ product ≠ .end_ ∧ Unclosed file' := by
          rcases List.mem_cons.mp member with isTop | member
          · cases isTop
            exact Or.inr (drain_unclosed unclosed isDrained)
          · exact Or.inl member
        have goesOn : ∀ above defines, product ≠ .end_ → Trapped ⟨above ++ .file file' :: below,defines⟩ := by
          intro above defines _
          rcases left with member | ⟨_,unclosed'⟩
          · exact ⟨trap,List.mem_append_right _ (List.mem_cons_of_mem _ member),unclosed⟩
          · exact ⟨file',List.mem_append_right _ (List.mem_cons_self ..),unclosed'⟩
        cases product with
        | end_ =>
          rcases left with member | ⟨notEnd,_⟩
          · exact ih ⟨trap,member,unclosed⟩ run
          · exact absurd rfl notEnd
        | token found =>
          cases run
          refine ⟨Option.some_ne_none _,goesOn [] _ ?_⟩
          intro isEnd
          cases isEnd
        | file path =>
          obtain ⟨source,_,run⟩ := bind_ok.mp run
          refine ih (goesOn [source] _ ?_) run
          intro isEnd
          cases isEnd
        | expand name =>
          obtain ⟨source,_,run⟩ := bind_ok.mp run
          refine ih (goesOn [source] _ ?_) run
          intro isEnd
          cases isEnd

theorem collect_trapped {result : List TokenType × PreProcessorState} {fuel : Nat} :
    ∀ {processor : FilePreProcessor}, Trapped processor → FilePreProcessor.collect readFile fuel processor ≠ .ok result := by
  induction fuel generalizing result with
  | zero =>
    intro processor _ run
    cases run
  | succ fuel ih =>
    intro processor trapped run
    rw [collect_succ] at run
    obtain ⟨parsed,isParsed,run⟩ := bind_ok.mp run
    rcases parsed with ⟨token,next⟩
    obtain ⟨isToken,trapped'⟩ := parse_trapped trapped isParsed
    cases token with
    | none => exact absurd rfl isToken
    | some token =>
      change emit [token] (FilePreProcessor.collect readFile fuel next) = _ at run
      cases later : FilePreProcessor.collect readFile fuel next with
      | error failure =>
        rw [later] at run
        cases run
      | ok more => exact ih trapped' later

-- A processor goes on with its last source: it gives a token, or the source ends, or another one is opened.
inductive Steps (readFile : Text → Option Text) : FilePreProcessor → FilePreProcessor → Prop where
  | macroToken {data rest : Text} {token : TokenType} {below : List DrainingSource} {defines : PreProcessorState} :
      DrainingMacro.parse data = .ok (some token,rest) →
      Steps readFile ⟨.macro_ data :: below,defines⟩ ⟨.macro_ rest :: below,defines⟩
  | macroEnd {data rest : Text} {below : List DrainingSource} {defines : PreProcessorState} :
      DrainingMacro.parse data = .ok (none,rest) → Steps readFile ⟨.macro_ data :: below,defines⟩ ⟨below,defines⟩
  | fileToken {file file' : DrainingFile} {token : TokenType} {below : List DrainingSource}
      {defines defines' : PreProcessorState} (fuel : Nat) :
      file.parse fuel defines = .ok (.token token,file',defines') →
      Steps readFile ⟨.file file :: below,defines⟩ ⟨.file file' :: below,defines'⟩
  | fileEnd {file file' : DrainingFile} {below : List DrainingSource} {defines defines' : PreProcessorState}
      (fuel : Nat) : file.parse fuel defines = .ok (.end_,file',defines') →
      Steps readFile ⟨.file file :: below,defines⟩ ⟨below,defines'⟩
  | included {file file' : DrainingFile} {path : Text} {source : DrainingSource} {below : List DrainingSource}
      {defines defines' : PreProcessorState} (fuel : Nat) :
      file.parse fuel defines = .ok (.file path,file',defines') →
      FilePreProcessor.openFile readFile path = .ok source →
      Steps readFile ⟨.file file :: below,defines⟩ ⟨source :: .file file' :: below,defines'⟩
  | expanded {file file' : DrainingFile} {name : Text} {source : DrainingSource} {below : List DrainingSource}
      {defines defines' : PreProcessorState} (fuel : Nat) :
      file.parse fuel defines = .ok (.expand name,file',defines') →
      FilePreProcessor.openMacro defines' name = .ok source →
      Steps readFile ⟨.file file :: below,defines⟩ ⟨source :: .file file' :: below,defines'⟩

inductive Reaches (readFile : Text → Option Text) (processor : FilePreProcessor) : FilePreProcessor → Prop where
  | start : Reaches readFile processor processor
  | step {middle next : FilePreProcessor} : Reaches readFile processor middle → Steps readFile middle next →
      Reaches readFile processor next

section Steps

variable {processor next : FilePreProcessor} {result : List TokenType × PreProcessorState}

theorem resume_collect {later call : Nat} (less : call ≤ later + 1)
    (found : resume readFile later call processor = .ok result) :
    FilePreProcessor.collect readFile (later + 1) processor = .ok result := by
  have extended : Extends .outOfFuel (resume readFile later call processor) (resume readFile later (later + 1) processor) :=
    extends_bind (parse_extends less) fun _ => extends_refl _ _
  have known : resume readFile later call processor ≠ .error .outOfFuel := by
    rw [found]
    exact nofun
  rw [collect_succ]
  exact (extends_same extended known).trans found

theorem continue_token {fuel : Nat} {token : TokenType} (found : continue_ readFile fuel (some token,next) = .ok result) :
    ∃ result', FilePreProcessor.collect readFile fuel next = .ok result' := by
  change emit [token] (FilePreProcessor.collect readFile fuel next) = _ at found
  cases later : FilePreProcessor.collect readFile fuel next with
  | error failure =>
    rw [later] at found
    cases found
  | ok result' => exact ⟨result',rfl⟩

theorem drained_same {file file' : DrainingFile} {state state' : PreProcessorState} {product : Product} {fuel more : Nat}
    {drained : Product × DrainingFile × PreProcessorState} (run : file.parse fuel state = .ok (product,file',state'))
    (isDrained : file.parse more state = .ok drained) : drained = (product,file',state') := by
  have first := @drain_extends fuel (max fuel more) file state (Nat.le_max_left _ _)
  have second := @drain_extends more (max fuel more) file state (Nat.le_max_right _ _)
  rw [run] at first
  rw [isDrained] at second
  exact Except.ok.inj ((extends_same second nofun).symm.trans (extends_same first nofun))

theorem steps_collect (steps : Steps readFile processor next) {fuel : Nat}
    (found : FilePreProcessor.collect readFile fuel processor = .ok result) :
    ∃ fuel' result', FilePreProcessor.collect readFile fuel' next = .ok result' := by
  cases fuel with
  | zero => cases found
  | succ fuel =>
    rw [collect_succ] at found
    cases steps with
    | macroToken parsed =>
      simp only [FilePreProcessor.parse,parsed] at found
      exact ⟨fuel,continue_token found⟩
    | macroEnd parsed =>
      simp only [FilePreProcessor.parse,parsed] at found
      exact ⟨fuel + 1,result,resume_collect (Nat.le_succ _) found⟩
    | fileToken _ run =>
      rw [parse_file] at found
      obtain ⟨parsed,isParsed,found⟩ := bind_ok.mp found
      obtain ⟨drained,isDrained,isParsed⟩ := bind_ok.mp isParsed
      rw [drained_same run isDrained] at isParsed
      cases isParsed
      exact ⟨fuel,continue_token found⟩
    | fileEnd _ run =>
      rw [parse_file] at found
      obtain ⟨parsed,isParsed,found⟩ := bind_ok.mp found
      obtain ⟨drained,isDrained,isParsed⟩ := bind_ok.mp isParsed
      rw [drained_same run isDrained] at isParsed
      exact ⟨fuel + 1,result,resume_collect (Nat.le_succ _) (bind_ok.mpr ⟨parsed,isParsed,found⟩)⟩
    | included _ run opened =>
      rw [parse_file] at found
      obtain ⟨parsed,isParsed,found⟩ := bind_ok.mp found
      obtain ⟨drained,isDrained,isParsed⟩ := bind_ok.mp isParsed
      rw [drained_same run isDrained] at isParsed
      obtain ⟨source,isSource,isParsed⟩ := bind_ok.mp isParsed
      rw [opened] at isSource
      cases isSource
      exact ⟨fuel + 1,result,resume_collect (Nat.le_succ _) (bind_ok.mpr ⟨parsed,isParsed,found⟩)⟩
    | expanded _ run opened =>
      rw [parse_file] at found
      obtain ⟨parsed,isParsed,found⟩ := bind_ok.mp found
      obtain ⟨drained,isDrained,isParsed⟩ := bind_ok.mp isParsed
      rw [drained_same run isDrained] at isParsed
      obtain ⟨source,isSource,isParsed⟩ := bind_ok.mp isParsed
      rw [opened] at isSource
      cases isSource
      exact ⟨fuel + 1,result,resume_collect (Nat.le_succ _) (bind_ok.mpr ⟨parsed,isParsed,found⟩)⟩

theorem reaches_collect (reaches : Reaches readFile processor next) {fuel : Nat}
    (found : FilePreProcessor.collect readFile fuel processor = .ok result) :
    ∃ fuel' result', FilePreProcessor.collect readFile fuel' next = .ok result' := by
  induction reaches with
  | start => exact ⟨fuel,result,found⟩
  | step _ steps ih =>
    obtain ⟨fuel',result',found'⟩ := ih
    exact steps_collect steps found'

theorem unbalanced_refused {ls : List Line} (unbalanced : ¬ Balanced ls) (reaches : Reaches readFile processor next)
    (opened : .file (.new (chars ls)) ∈ next.fileStack) (fuel : Nat) :
    FilePreProcessor.collect readFile fuel processor ≠ .ok result := by
  intro found
  obtain ⟨fuel',result',found'⟩ := reaches_collect reaches found
  exact collect_trapped ⟨_,opened,[],ls,At.start rfl rfl,unbalanced⟩ found'

end Steps

end Processors

-- A group around a definition, and its end alone.
def ifNDefLine : DirectiveLine (.if_ (.notDefined "X".toList)) where
  text := "@ifndef X".toList
  ending := .lf
  unbroken := by decide
  parses := by
    intro next ends
    obtain ⟨c,more,rfl,isBreak⟩ := ends_head ends
    rcases isBreak with rfl | rfl <;> rfl

def defineLine : DirectiveLine (Command.define "X".toList none).macroLine where
  text := "@define X".toList
  ending := .lf
  unbroken := by decide
  parses := by
    intro next ends
    obtain ⟨c,more,rfl,isBreak⟩ := ends_head ends
    rcases isBreak with rfl | rfl <;> rfl

def endIfLine : DirectiveLine .endIf where
  text := "@endif".toList
  ending := .lf
  unbroken := by decide
  parses := by
    intro next ends
    obtain ⟨c,more,rfl,isBreak⟩ := ends_head ends
    rcases isBreak with rfl | rfl <;> rfl

def guarded : Items :=
  .group _ ifNDefLine (.command (.define "X".toList none) defineLine .nil) (.endIf endIfLine) .nil

end Rsleigh.Preprocessor
