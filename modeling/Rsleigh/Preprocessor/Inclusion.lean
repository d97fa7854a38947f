import Rsleigh.Preprocessor.Moves

namespace Rsleigh.Preprocessor

open Parsing Syntax Fallible

variable {readFile : Text → Option Text} {below : List DrainingSource}

-- What the reference says of some lines is what the processor does with them: it gives their tokens and stands in front
-- of the lines after them, or it fails as they do.
def Realizes (readFile : Text → Option Text) (processor : FilePreProcessor) (below : List DrainingSource)
    (stack : List IfStatus) (after : List Line) : Output → Prop
  | .ok (tokens, state) => ∃ file, At file [] after ∧ file.ifStack = stack ∧
      Moves readFile tokens processor ⟨.file file :: below,state⟩
  | .error failure => failure = .outOfFuel ∨ Fails readFile processor failure

section Realizing

variable {processor next : FilePreProcessor} {stack : List IfStatus} {after middle : List Line}

theorem realizes_error {output : Output} {failure : Failure} (failed : output = .error failure)
    (fails : failure = .outOfFuel ∨ Fails readFile processor failure) :
    Realizes readFile processor below stack after output := by
  rw [failed]
  exact fails

theorem realizes_moves (moves : Moves readFile [] processor next) {output : Output}
    (realizes : Realizes readFile next below stack after output) :
    Realizes readFile processor below stack after output := by
  cases output with
  | error failure =>
    by_cases isLost : failure = .outOfFuel
    · exact Or.inl isLost
    · exact Or.inr (moves_fails moves isLost (realizes.resolve_left isLost))
  | ok result =>
    rcases result with ⟨tokens,state⟩
    obtain ⟨file,position,sameStack,later⟩ := realizes
    exact ⟨file,position,sameStack,moves_trans moves later⟩

theorem realizes_emit {tokens : List TokenType} (moves : Moves readFile tokens processor next) {output : Output}
    (realizes : Realizes readFile next below stack after output) :
    Realizes readFile processor below stack after (emit tokens output) := by
  cases output with
  | error failure =>
    by_cases isLost : failure = .outOfFuel
    · exact Or.inl isLost
    · exact Or.inr (moves_fails moves isLost (realizes.resolve_left isLost))
  | ok result =>
    rcases result with ⟨later,state⟩
    obtain ⟨file,position,sameStack,moved⟩ := realizes
    exact ⟨file,position,sameStack,moves_trans moves moved⟩

theorem realizes_bind {stack' : List IfStatus} {output : Output} {then_ : PreProcessorState → Output}
    (realizes : Realizes readFile processor below stack middle output)
    (later : ∀ file state, At file [] middle → file.ifStack = stack →
      Realizes readFile ⟨.file file :: below,state⟩ below stack' after (then_ state)) :
    Realizes readFile processor below stack' after (output >>= fun (tokens, state) => emit tokens (then_ state)) := by
  cases output with
  | error failure => exact realizes
  | ok result =>
    rcases result with ⟨tokens,state⟩
    obtain ⟨file,position,sameStack,moves⟩ := realizes
    exact realizes_emit moves (later file state position sameStack)

theorem realizes_leave {stack' : List IfStatus} {output : Output}
    (realizes : Realizes readFile processor below stack middle output)
    (leaves : ∀ file state, At file [] middle → file.ifStack = stack → ∃ file', At file' [] after ∧
      file'.ifStack = stack' ∧ Moves readFile [] ⟨.file file :: below,state⟩ ⟨.file file' :: below,state⟩) :
    Realizes readFile processor below stack' after output := by
  cases output with
  | error failure => exact realizes
  | ok result =>
    rcases result with ⟨tokens,state⟩
    obtain ⟨file,position,sameStack,moves⟩ := realizes
    obtain ⟨file',position',sameStack',left⟩ := leaves file state position sameStack
    have moved := moves_trans moves left
    rw [List.append_nil] at moved
    exact ⟨file',position',sameStack',moved⟩

end Realizing

-- The tokens of a macro's value.
theorem macro_moves {fuel : Nat} :
    ∀ {data : Text} {state : PreProcessorState},
      match macroTokens fuel data with
      | .ok tokens => Moves readFile tokens ⟨.macro_ data :: below,state⟩ ⟨below,state⟩
      | .error failure => failure = .outOfFuel ∨ Fails readFile ⟨.macro_ data :: below,state⟩ failure := by
  induction fuel with
  | zero => exact Or.inl rfl
  | succ fuel ih =>
    intro data state
    unfold macroTokens
    cases parsed : DrainingMacro.parse data with
    | error failure =>
      apply Or.inr
      apply fails_call
      refine ⟨0,?_⟩
      simp only [FilePreProcessor.parse,parsed]
      rfl
    | ok result =>
      rcases result with ⟨token,rest⟩
      cases token with
      | none =>
        apply moves_jump
        intro call
        simp only [FilePreProcessor.parse,parsed]
        rfl
      | some token =>
        have moves : Moves readFile [token] ⟨.macro_ data :: below,state⟩ ⟨.macro_ rest :: below,state⟩ := by
          apply moves_token
          intro call
          simp only [FilePreProcessor.parse,parsed]
          rfl
        have later := @ih rest state
        change match macroTokens fuel rest >>= fun tokens => pure (token :: tokens) with
          | .ok tokens => Moves readFile tokens ⟨.macro_ data :: below,state⟩ ⟨below,state⟩
          | .error failure => failure = .outOfFuel ∨ Fails readFile ⟨.macro_ data :: below,state⟩ failure
        cases run : macroTokens fuel rest with
        | error failure =>
          rw [run] at later
          by_cases isLost : failure = .outOfFuel
          · exact Or.inl isLost
          · exact Or.inr (moves_fails moves isLost (later.resolve_left isLost))
        | ok tokens =>
          rw [run] at later
          exact moves_trans moves later

section Draining

variable {file file' : DrainingFile} {state : PreProcessorState}

theorem parse_body {body : Body} (run : ∀ fuel, file.parseBody (fuel + 1) = .ok (body,file')) (fuel : Nat) :
    file.parse (fuel + 1) state = followed fuel file.ifStack.head? state (body,file') := by
  rw [parse_followed,run]
  rfl

theorem parse_endIf {status : IfStatus} (isOpen : file.ifStack.head? = some status)
    (run : ∀ fuel, file.parseBody (fuel + 1) = .ok (.macro_ .endIf,file')) (fuel : Nat) :
    file.parse (fuel + 1) state = file'.pop.parse fuel state := by
  rw [parse_body run,isOpen]
  rfl

theorem parse_end (isClosed : file.ifStack.head? = none) (run : ∀ fuel, file.parseBody (fuel + 2) = .ok (.end_,file'))
    (fuel : Nat) : file.parse (fuel + 2) state = .ok (.end_,file',state) := by
  rw [parse_followed,run,isClosed]
  rfl

theorem parse_next {status : IfStatus} (isOpen : file.ifStack.head? = some status) (notElse : status ≠ .else_)
    {macroLine : MacroLine} (isNext : macroLine = .else_ ∨ ∃ cond, macroLine = .elIf cond)
    (run : ∀ fuel, file.parseBody (fuel + 1) = .ok (.macro_ macroLine,file')) (fuel : Nat) :
    file.parse (fuel + 1) state = file'.nextIfBlock (fun block => block = .endIf) >>= fun (_, file) =>
      file.nomIt MacroLine.parse >>= fun (macroLine, file) =>
        match macroLine with
        | .endIf => file.pop.parse fuel state
        | _ => .error .unreachable := by
  rw [parse_body run,isOpen]
  cases status with
  | else_ => exact absurd rfl notElse
  | if_ => rcases isNext with rfl | ⟨cond,rfl⟩ <;> rfl
  | ifElse => rcases isNext with rfl | ⟨cond,rfl⟩ <;> rfl

theorem tokens_drains (sameStack : file'.ifStack = file.ifStack)
    (starts : (∀ fuel, file.parseBody fuel = file'.parseBody fuel) ∨
      ∀ fuel, file.parseBody (fuel + 1) = file'.parseBody fuel) : Drains file state file' state := by
  rcases starts with starts | starts
  · have same : ∀ fuel, file.parse fuel state = file'.parse fuel state := by
      intro fuel
      cases fuel with
      | zero => rfl
      | succ fuel => rw [parse_followed,parse_followed,starts,sameStack]
    refine ⟨fun fuel => ⟨fuel,Nat.le_refl _,?_⟩,fun fuel => ?_⟩
    · rw [same]
      exact extends_refl _ _
    · rw [same]
      exact extends_refl _ _
  · refine ⟨fun fuel => ⟨fuel + 1,Nat.le_succ _,?_⟩,fun fuel => ?_⟩
    · cases fuel with
      | zero => exact Or.inl rfl
      | succ fuel =>
        rw [parse_followed,parse_followed,starts,sameStack]
        apply extends_bind (extends_refl _ _)
        exact followed_extends (Nat.le_succ _) (fun _ _ => drain_extends (Nat.le_succ _)) _ _
    · cases fuel with
      | zero => exact Or.inl rfl
      | succ fuel =>
        rw [parse_followed,parse_followed,starts,sameStack]
        exact extends_bind (parseBody_extends (Nat.le_succ _)) fun _ => extends_refl _ _

end Draining

section Items

variable {file file' : DrainingFile} {state : PreProcessorState} {name : Text}

theorem parse_expansion (run : ∀ fuel, file.parseBody (fuel + 1) = .ok (.expansion name,file')) (call : Nat) :
    FilePreProcessor.parse readFile (call + 1) ⟨.file file :: below,state⟩ =
      FilePreProcessor.openMacro state name >>= fun source =>
        FilePreProcessor.parse readFile call ⟨source :: .file file' :: below,state⟩ := by
  rw [parse_file,parse_body run]
  rfl

theorem expansion_moves (run : ∀ fuel, file.parseBody (fuel + 1) = .ok (.expansion name,file')) {value : Text}
    (defined : state name = some (some value)) :
    Moves readFile [] ⟨.file file :: below,state⟩ ⟨.macro_ value :: .file file' :: below,state⟩ := by
  apply moves_jump
  intro call
  rw [parse_expansion run,FilePreProcessor.openMacro,defined]
  rfl

-- One item of a line.
theorem item_moves {fuel : Nat} {item : LineItem} (run : ∀ fuel, file.parseBody (fuel + 1) = .ok (item.body,file')) :
    match itemTokens fuel state item with
    | .ok tokens => Moves readFile tokens ⟨.file file :: below,state⟩ ⟨.file file' :: below,state⟩
    | .error failure => failure = .outOfFuel ∨ Fails readFile ⟨.file file :: below,state⟩ failure := by
  cases item with
  | token token =>
    apply moves_token
    intro call
    rw [parse_file,parse_body run]
    rfl
  | expansion name =>
    unfold itemTokens
    dsimp only
    cases defined : state name with
    | none =>
      apply Or.inr
      apply fails_call
      refine ⟨0,?_⟩
      rw [parse_expansion run,FilePreProcessor.openMacro,defined]
      rfl
    | some value =>
      cases value with
      | none =>
        apply Or.inr
        apply fails_call
        refine ⟨0,?_⟩
        rw [parse_expansion run,FilePreProcessor.openMacro,defined]
        rfl
      | some value =>
        have opens := @expansion_moves readFile below file file' state name run value defined
        have expanded := @macro_moves readFile (.file file' :: below) fuel value state
        dsimp only
        cases run : macroTokens fuel value with
        | error failure =>
          rw [run] at expanded
          by_cases isLost : failure = .outOfFuel
          · exact Or.inl isLost
          · exact Or.inr (moves_fails opens isLost (expanded.resolve_left isLost))
        | ok tokens =>
          rw [run] at expanded
          exact moves_trans opens expanded

end Items

theorem line_realizes {fuel : Nat} {after : List Line} {items : List LineItem} :
    ∀ {file : DrainingFile} {state : PreProcessorState}, At file items after →
      Realizes readFile ⟨.file file :: below,state⟩ below file.ifStack after
        ((lineTokens fuel state items).map fun tokens => (tokens,state)) := by
  induction items with
  | nil =>
    intro file state position
    exact ⟨file,position,rfl,moves_refl _⟩
  | cons item items ih =>
    intro file state position
    obtain ⟨file',run,position',sameStack⟩ := DrainingFile.parseBody_item position
    have later := @ih file' state position'
    rw [sameStack] at later
    have split : ((lineTokens fuel state (item :: items)).map fun tokens => (tokens,state)) =
        (itemTokens fuel state item >>= fun tokens =>
          emit tokens ((lineTokens fuel state items).map fun tokens => (tokens,state))) := by
      rw [lineTokens]
      cases itemTokens fuel state item with
      | error failure => rfl
      | ok tokens => cases lineTokens fuel state items <;> rfl
    rw [split]
    have moves := @item_moves readFile below file file' state fuel item run
    cases found : itemTokens fuel state item with
    | error failure =>
      rw [found] at moves
      exact realizes_error rfl moves
    | ok tokens =>
      rw [found] at moves
      exact realizes_emit moves later

-- What the reference says of an included file is what the processor does with it.
def Includes (readFile : Text → Option Text) (included : Text → PreProcessorState → Output) : Prop :=
  ∀ path state below,
    match included path state with
    | .ok (tokens, state') => ∃ source, FilePreProcessor.openFile readFile path = .ok source ∧
        Moves readFile tokens ⟨source :: below,state⟩ ⟨below,state'⟩
    | .error failure => failure = .outOfFuel ∨ FilePreProcessor.openFile readFile path = .error failure ∨
        ∃ source, FilePreProcessor.openFile readFile path = .ok source ∧ Fails readFile ⟨source :: below,state⟩ failure

section Commands

variable {included : Text → PreProcessorState → Output} {file : DrainingFile} {state : PreProcessorState}
variable {after : List Line}

theorem drain_fails {failure : Failure} (fails : ∃ fuel, file.parse (fuel + 1) state = .error failure) :
    Fails readFile ⟨.file file :: below,state⟩ failure := by
  obtain ⟨fuel,fails⟩ := fails
  apply fails_call
  refine ⟨fuel,?_⟩
  rw [parse_file,fails]
  rfl

theorem state_realizes {file' : DrainingFile} {change : Except Failure PreProcessorState}
    (run : ∀ fuel, file.parse (fuel + 1) state = change >>= fun state => file'.parse fuel state)
    (position : At file' [] after) :
    Realizes readFile ⟨.file file :: below,state⟩ below file'.ifStack after (change >>= fun state => pure ([],state)) := by
  cases change with
  | error failure => exact Or.inr (drain_fails ⟨0,run 0⟩)
  | ok state' => exact ⟨file',position,rfl,drains_moves (drains_step run)⟩

theorem command_realizes (includes : Includes readFile included) {command : Command}
    {line : DirectiveLine command.macroLine} (position : At file [] (.directive _ line :: after)) :
    Realizes readFile ⟨.file file :: below,state⟩ below file.ifStack after (command.process included state) := by
  obtain ⟨file',run,atEnd,sameStack⟩ := DrainingFile.parseBody_directive position
  rw [← sameStack]
  cases command with
  | define name value => exact state_realizes (parse_body run) (atEnd_at atEnd)
  | undefine name => exact state_realizes (parse_body run) (atEnd_at atEnd)
  | include_ path =>
    have opens : ∀ call, FilePreProcessor.parse readFile (call + 1) ⟨.file file :: below,state⟩ =
        FilePreProcessor.openFile readFile path >>= fun source =>
          FilePreProcessor.parse readFile call ⟨source :: .file file' :: below,state⟩ := by
      intro call
      rw [parse_file,parse_body run]
      rfl
    have pushed : ∀ source, FilePreProcessor.openFile readFile path = .ok source →
        Moves readFile [] ⟨.file file :: below,state⟩ ⟨source :: .file file' :: below,state⟩ := by
      intro source opened
      apply moves_jump
      intro call
      rw [opens,opened]
      rfl
    have reads := includes path state (.file file' :: below)
    change Realizes readFile _ below _ after (included path state)
    cases found : included path state with
    | error failure =>
      rw [found] at reads
      apply realizes_error rfl
      rcases reads with isLost | missing | ⟨source,opened,fails⟩
      · exact Or.inl isLost
      · apply Or.inr
        apply fails_call
        refine ⟨0,?_⟩
        rw [opens,missing]
        rfl
      · by_cases isLost : failure = .outOfFuel
        · exact Or.inl isLost
        · exact Or.inr (moves_fails (pushed source opened) isLost fails)
    | ok result =>
      rw [found] at reads
      rcases result with ⟨tokens,state'⟩
      obtain ⟨source,opened,moves⟩ := reads
      exact ⟨file',atEnd_at atEnd,rfl,moves_trans (pushed source opened) moves⟩

end Commands

-- The end of a group whose branch was taken: the branches that are left are passed over.
section Leaving

variable {file : DrainingFile} {state : PreProcessorState} {after : List Line}

theorem nextIfBlock_found {f : IfBorders → Bool} {ls rest : List Line} {block : IfBorders} (atEnd : AtEnd file ls)
    (found : findBlock f 0 ls = some (block,rest)) :
    file.nextIfBlock f = .ok (block,file.moved (chars rest)) := by
  obtain ⟨ending,isData⟩ := atEnd
  have split : lines file.data = ([],file.data) :: lines (chars ls) := by
    rw [isData]
    have unbroken : Unbroken [] := by decide
    exact lines_line unbroken ending (chars ls)
  unfold DrainingFile.nextIfBlock
  have noBorder : border [] = none := border_refused nofun
  rw [split,findIfBlock,noBorder]
  simp only
  rw [findIfBlock_lines,found]
  rfl

theorem nomIt_directive {macroLine : MacroLine} {line : DirectiveLine macroLine} {rest : List Line}
    (isData : file.data = chars (.directive _ line :: rest)) :
    ∃ file', file.nomIt MacroLine.parse = .ok (macroLine,file') ∧ AtEnd file' rest ∧ file'.ifStack = file.ifStack := by
  have accepted := line.parses _ (ends_chars line.ending (chars rest))
  have shape : chars (.directive _ line :: rest) = line.text ++ (line.ending.chars ++ chars rest) := chars_cons _ _
  rw [← shape,← isData] at accepted
  exact ⟨file.moved _,DrainingFile.nomIt_some accepted,⟨line.ending,rfl⟩,rfl⟩

theorem leave_moves {status : IfStatus} {stack : List IfStatus} (isOpen : file.ifStack = status :: stack)
    (notElse : status ≠ .else_) (branches : Branches) (position : At file [] (branches.lines ++ after)) :
    ∃ file', At file' [] after ∧ file'.ifStack = stack ∧
      Moves readFile [] ⟨.file file :: below,state⟩ ⟨.file file' :: below,state⟩ := by
  have top : file.ifStack.head? = some status := by rw [isOpen]; rfl
  have next : ∀ {macroLine : MacroLine} {line : DirectiveLine macroLine} {rest : List Line},
      macroLine = .else_ ∨ (∃ cond, macroLine = .elIf cond) → At file [] (.directive _ line :: rest) →
      (∃ last : DirectiveLine .endIf, findBlock (fun block => block = .endIf) 0 rest =
        some (.endIf,.directive _ last :: after)) →
      ∃ file', At file' [] after ∧ file'.ifStack = stack ∧
        Moves readFile [] ⟨.file file :: below,state⟩ ⟨.file file' :: below,state⟩ := by
    intro macroLine line rest isNext position found
    obtain ⟨last,found⟩ := found
    obtain ⟨passed,run,atEnd,sameStack⟩ := DrainingFile.parseBody_directive position
    obtain ⟨file',parsed,atEnd',sameStack'⟩ :=
      @nomIt_directive (passed.moved (chars (.directive _ last :: after))) _ last after rfl
    refine ⟨file'.pop,?_,?_,?_⟩
    · exact atEnd_at atEnd'
    · change file'.ifStack.tail = stack
      rw [sameStack']
      change passed.ifStack.tail = stack
      rw [sameStack,isOpen]
      rfl
    · apply drains_moves
      apply drains_step
      intro fuel
      rw [parse_next top notElse isNext run,nextIfBlock_found atEnd found]
      change ((passed.moved _).nomIt MacroLine.parse >>= _) = _
      rw [parsed]
      rfl
  cases branches with
  | endIf line =>
    obtain ⟨file',run,atEnd,sameStack⟩ := DrainingFile.parseBody_directive position
    refine ⟨file'.pop,atEnd_at atEnd,?_,drains_moves (drains_step (parse_endIf top run))⟩
    change file'.ifStack.tail = stack
    rw [sameStack,isOpen]
    rfl
  | else_ line body last =>
    rw [Branches.lines,List.cons_append] at position
    apply next (Or.inl rfl) position
    obtain ⟨last',found⟩ := findBlock_endIf (.else_ line body last) after
    exact ⟨last',found⟩
  | elIf cond line body rest =>
    rw [Branches.lines,List.cons_append] at position
    apply next (Or.inr ⟨cond,rfl⟩) position
    obtain ⟨last',found⟩ := findBlock_endIf (.elIf cond line body rest) after
    exact ⟨last',found⟩

end Leaving

-- What the search for a branch comes to, whatever the fuel.
structure Settles (state : PreProcessorState) (file : DrainingFile) (result : Except Failure DrainingFile) : Prop where
  bounded : ∀ fuel, Extends .outOfFuel (file.searchIfBlock state fuel) result
  reached : ∃ fuel, file.searchIfBlock state fuel = result

theorem settles_step {state : PreProcessorState} {file file' : DrainingFile} {result : Except Failure DrainingFile}
    (steps : ∀ fuel, file.searchIfBlock state (fuel + 1) = file'.searchIfBlock state fuel)
    (settles : Settles state file' result) : Settles state file result where
  bounded := by
    intro fuel
    cases fuel with
    | zero => exact Or.inl rfl
    | succ fuel =>
      rw [steps]
      exact settles.bounded fuel
  reached := by
    obtain ⟨fuel,reached⟩ := settles.reached
    exact ⟨fuel + 1,(steps fuel).trans reached⟩

theorem settles_result {state : PreProcessorState} {file : DrainingFile} {result : Except Failure DrainingFile}
    (found : ∀ fuel, file.searchIfBlock state (fuel + 1) = result) : Settles state file result where
  bounded := by
    intro fuel
    cases fuel with
    | zero => exact Or.inl rfl
    | succ fuel => exact Or.inr (found fuel)
  reached := ⟨1,found 0⟩

theorem settles_drains {state : PreProcessorState} {file searched entered : DrainingFile}
    (run : ∀ fuel, file.parse (fuel + 1) state =
      searched.searchIfBlock state (fuel + 1) >>= fun file => file.parse fuel state)
    (settles : Settles state searched (.ok entered)) : Drains file state entered state where
  forth := by
    intro fuel
    obtain ⟨enough,reached⟩ := settles.reached
    refine ⟨max fuel enough + 1,by omega,?_⟩
    have found : searched.searchIfBlock state (max fuel enough + 1) = .ok entered := by
      have extended := @searchIfBlock_extends state enough (max fuel enough + 1) searched (by omega)
      rw [reached] at extended
      exact extends_same extended nofun
    rw [run,found]
    exact drain_extends (Nat.le_max_left _ _)
  back := by
    intro fuel
    cases fuel with
    | zero => exact Or.inl rfl
    | succ fuel =>
      rw [run]
      rcases settles.bounded (fuel + 1) with isLost | found
      · rw [isLost]
        exact Or.inl rfl
      · rw [found]
        exact drain_extends (Nat.le_succ _)

section Groups

variable {included : Text → PreProcessorState → Output} {fuel : Nat}

-- What the search does with the branch it has found.
def branched (state : PreProcessorState) (fuel : Nat) (file : DrainingFile) : MacroLine → Except Failure DrainingFile
  | .elIf cond => checkCond state cond >>= fun holds =>
      if holds then .ok (file.push .ifElse) else file.searchIfBlock state fuel
  | .else_ => .ok (file.push .else_)
  | .endIf => .ok file
  | .define _ _ | .undefine _ | .include_ _ | .if_ _ => .error .unreachable

theorem search_next {state : PreProcessorState} {file : DrainingFile} {ls : List Line} {macroLine : MacroLine}
    {line : DirectiveLine macroLine} {rest : List Line} {block : IfBorders} (atEnd : AtEnd file ls)
    (found : findBlock (fun _ => true) 0 ls = some (block,.directive _ line :: rest)) :
    ∃ file', AtEnd file' rest ∧ file'.ifStack = file.ifStack ∧
      ∀ fuel, file.searchIfBlock state (fuel + 1) = branched state fuel file' macroLine := by
  obtain ⟨file',parsed,atEnd',sameStack⟩ :=
    @nomIt_directive (file.moved (chars (.directive _ line :: rest))) _ line rest rfl
  refine ⟨file',atEnd',sameStack,?_⟩
  intro fuel
  rw [DrainingFile.searchIfBlock,nextIfBlock_found atEnd found]
  change ((file.moved _).nomIt MacroLine.parse >>= _) = _
  rw [parsed]
  cases macroLine <;> rfl

mutual

theorem items_realizes (includes : Includes readFile included) : (items : Items) → (file : DrainingFile) →
    (state : PreProcessorState) → (below : List DrainingSource) → (after : List Line) →
    At file [] (items.lines ++ after) →
    Realizes readFile ⟨.file file :: below,state⟩ below file.ifStack after (items.process included fuel state)
  | .nil, file, state, below, after, position => by
    rw [Items.lines,List.nil_append] at position
    rw [Items.process]
    exact ⟨file,position,rfl,moves_refl _⟩
  | .tokens line rest, file, state, below, after, position => by
    rw [Items.lines,List.cons_append] at position
    obtain ⟨started,position,sameStack,starts⟩ := DrainingFile.parseBody_tokens position
    have lexed := @line_realizes readFile below fuel _ _ started state position
    have processed : (Items.tokens line rest).process included fuel state =
        (((lineTokens fuel state line.items).map fun tokens => (tokens,state)) >>= fun (tokens, state) =>
          emit tokens (rest.process included fuel state)) := by
      rw [Items.process]
      cases lineTokens fuel state line.items <;> rfl
    rw [processed]
    apply realizes_moves (drains_moves (tokens_drains sameStack starts))
    apply realizes_bind lexed
    intro file' state' position' sameStack'
    have later := items_realizes includes rest file' state' below after position'
    rw [sameStack',sameStack] at later
    exact later
  | .command command line rest, file, state, below, after, position => by
    rw [Items.lines,List.cons_append] at position
    rw [Items.process]
    apply realizes_bind (command_realizes includes position)
    intro file' state' position' sameStack
    rw [← sameStack]
    exact items_realizes includes rest file' state' below after position'
  | .group cond line body branches rest, file, state, below, after, position => by
    rw [Items.lines,List.cons_append,List.append_assoc,List.append_assoc] at position
    rw [Items.process]
    obtain ⟨opened,run,atEnd,sameStack⟩ := DrainingFile.parseBody_directive position
    have parsed : ∀ fuel, file.parse (fuel + 1) state = checkCond state cond >>= fun cond =>
        opened.enterIfBlock (fuel + 1) cond state >>= fun file => file.parse fuel state := parse_body run
    have later : ∀ file' state', At file' [] (rest.lines ++ after) → file'.ifStack = file.ifStack →
        Realizes readFile ⟨.file file' :: below,state'⟩ below file.ifStack after (rest.process included fuel state') := by
      intro file' state' position' same
      rw [← same]
      exact items_realizes includes rest file' state' below after position'
    cases holds : checkCond state cond with
    | error failure =>
      apply realizes_error rfl
      apply Or.inr
      apply drain_fails
      refine ⟨0,?_⟩
      rw [parsed,holds]
      rfl
    | ok holds' =>
      cases holds' with
      | true =>
        have enters : Drains file state (opened.push .if_) state := by
          apply drains_step
          intro fuel
          rw [parsed,holds]
          rfl
        have inside := items_realizes includes body (opened.push .if_) state below
          (branches.lines ++ (rest.lines ++ after)) (atEnd_at atEnd)
        apply realizes_moves (drains_moves enters)
        apply realizes_bind (realizes_leave inside ?_) later
        intro file' state' position' same
        rw [← sameStack]
        exact leave_moves same nofun branches position'
      | false =>
        have searches : ∀ fuel, file.parse (fuel + 1) state =
            opened.searchIfBlock state (fuel + 1) >>= fun file => file.parse fuel state := by
          intro fuel
          rw [parsed,holds]
          rfl
        obtain ⟨result,settles,realizes⟩ := branches_realizes includes branches opened state below
          (body.lines ++ (branches.lines ++ (rest.lines ++ after))) (rest.lines ++ after) atEnd
          (fun f => findBlock_items f body 0 _)
        change Realizes readFile _ below _ after
          (branches.process included fuel state >>= fun (tokens, state) => emit tokens (rest.process included fuel state))
        cases result with
        | error failure =>
          rw [realizes]
          apply realizes_error rfl
          by_cases isLost : failure = .outOfFuel
          · exact Or.inl isLost
          · obtain ⟨enough,reached⟩ := settles.reached
            apply Or.inr
            apply drain_fails
            refine ⟨enough,?_⟩
            have extended := @searchIfBlock_extends state enough (enough + 1) opened (Nat.le_succ _)
            rw [reached] at extended
            rw [searches,extends_same extended fun same => isLost (Except.error.inj same)]
            rfl
        | ok entered =>
          rw [sameStack] at realizes
          apply realizes_moves (drains_moves (settles_drains searches settles))
          exact realizes_bind realizes later

theorem branches_realizes (includes : Includes readFile included) : (branches : Branches) → (file : DrainingFile) →
    (state : PreProcessorState) → (below : List DrainingSource) → (ls after : List Line) → AtEnd file ls →
    (∀ f : IfBorders → Bool, findBlock f 0 ls = findBlock f 0 (branches.lines ++ after)) →
    ∃ result, Settles state file result ∧
      match result with
      | .error failure => branches.process included fuel state = .error failure
      | .ok entered => Realizes readFile ⟨.file entered :: below,state⟩ below file.ifStack after
          (branches.process included fuel state)
  | .endIf line, file, state, below, ls, after, atEnd, skips => by
    obtain ⟨file',atEnd',sameStack,run⟩ := @search_next state file ls _ line after _ atEnd (skips _)
    refine ⟨.ok file',settles_result run,?_⟩
    rw [Branches.process]
    exact ⟨file',atEnd_at atEnd',sameStack,moves_refl _⟩
  | .else_ line body last, file, state, below, ls, after, atEnd, skips => by
    obtain ⟨file',atEnd',sameStack,run⟩ :=
      @search_next state file ls _ line (body.lines ++ [.directive _ last] ++ after) _ atEnd (skips _)
    rw [List.append_assoc] at atEnd'
    refine ⟨.ok (file'.push .else_),settles_result run,?_⟩
    rw [Branches.process,← sameStack]
    have started : At (file'.push .else_) [] (body.lines ++ ([Line.directive .endIf last] ++ after)) :=
      atEnd_at atEnd'
    have inside := items_realizes includes body (file'.push .else_) state below _ started
    apply realizes_leave inside
    intro inner state' position same
    obtain ⟨ended,run,atEnd,sameStack⟩ := DrainingFile.parseBody_directive position
    have isOpen : inner.ifStack.head? = some .else_ := by rw [same]; rfl
    refine ⟨ended.pop,atEnd_at atEnd,?_,drains_moves (drains_step (parse_endIf isOpen run))⟩
    change ended.ifStack.tail = _
    rw [sameStack,same]
    rfl
  | .elIf cond line body rest, file, state, below, ls, after, atEnd, skips => by
    obtain ⟨file',atEnd',sameStack,run⟩ :=
      @search_next state file ls _ line (body.lines ++ rest.lines ++ after) _ atEnd (skips _)
    rw [List.append_assoc] at atEnd'
    rw [Branches.process]
    cases holds : checkCond state cond with
    | error failure =>
      refine ⟨.error failure,settles_result ?_,rfl⟩
      intro fuel
      rw [run,branched,holds]
      rfl
    | ok holds' =>
      cases holds' with
      | true =>
        refine ⟨.ok (file'.push .ifElse),settles_result ?_,?_⟩
        · intro fuel
          rw [run,branched,holds]
          rfl
        · have inside := items_realizes includes body (file'.push .ifElse) state below (rest.lines ++ after)
            (atEnd_at atEnd')
          rw [← sameStack]
          apply realizes_leave inside
          intro inner state' position same
          exact leave_moves same nofun rest position
      | false =>
        obtain ⟨result,settles,realizes⟩ := branches_realizes includes rest file' state below
          (body.lines ++ (rest.lines ++ after)) after atEnd' (fun f => findBlock_items f body 0 _)
        refine ⟨result,settles_step ?_ settles,?_⟩
        · intro fuel
          rw [run,branched,holds]
          rfl
        · rw [sameStack] at realizes
          exact realizes

end

end Groups

end Rsleigh.Preprocessor
