import Rsleigh.Preprocessor.Inclusion

namespace Rsleigh.Preprocessor

open Parsing Syntax Fallible

variable {readFile : Text → Option Text} {trees : Text → Option Items}

-- More fuel means the same to the reference.
section Fuel

variable {fuel more : Nat}

theorem macroTokens_extends : ∀ {fuel more : Nat} {data : Text}, fuel ≤ more →
    Extends .outOfFuel (macroTokens fuel data) (macroTokens more data) := by
  intro fuel
  induction fuel with
  | zero => exact fun _ => Or.inl rfl
  | succ fuel ih =>
    intro more data enough
    cases more with
    | zero => exact absurd enough (Nat.not_succ_le_zero _)
    | succ more =>
      apply extends_bind (extends_refl _ _)
      intro parsed
      rcases parsed with ⟨token,rest⟩
      cases token with
      | none => exact extends_refl _ _
      | some token =>
        exact extends_bind (ih (Nat.le_of_succ_le_succ enough)) fun _ => extends_refl _ _

theorem itemTokens_extends (enough : fuel ≤ more) (state : PreProcessorState) (item : LineItem) :
    Extends .outOfFuel (itemTokens fuel state item) (itemTokens more state item) := by
  cases item with
  | token token => exact extends_refl _ _
  | expansion name =>
    unfold itemTokens
    dsimp only
    split
    · exact extends_refl _ _
    · exact extends_refl _ _
    · exact macroTokens_extends enough

theorem lineTokens_extends (enough : fuel ≤ more) (state : PreProcessorState) (items : List LineItem) :
    Extends .outOfFuel (lineTokens fuel state items) (lineTokens more state items) := by
  induction items with
  | nil => exact extends_refl _ _
  | cons item items ih =>
    apply extends_bind (itemTokens_extends enough state item)
    exact fun _ => extends_bind ih fun _ => extends_refl _ _

variable {included included' : Text → PreProcessorState → Output}

mutual

theorem items_extends (enough : fuel ≤ more)
    (extended : ∀ path state, Extends .outOfFuel (included path state) (included' path state)) :
    (items : Items) → (state : PreProcessorState) →
    Extends .outOfFuel (items.process included fuel state) (items.process included' more state)
  | .nil, state => extends_refl _ _
  | .tokens line rest, state => by
    rw [Items.process,Items.process]
    apply extends_bind (lineTokens_extends enough state line.items)
    exact fun tokens => emit_extends tokens (items_extends enough extended rest state)
  | .command command line rest, state => by
    rw [Items.process,Items.process]
    apply extends_bind
    · cases command with
      | include_ path => exact extended path state
      | _ => exact extends_refl _ _
    · exact fun result => emit_extends result.1 (items_extends enough extended rest result.2)
  | .group cond line body branches rest, state => by
    rw [Items.process,Items.process]
    have later : ∀ result : List TokenType × PreProcessorState, Extends .outOfFuel
        (emit result.1 (rest.process included fuel result.2)) (emit result.1 (rest.process included' more result.2)) :=
      fun result => emit_extends result.1 (items_extends enough extended rest result.2)
    apply extends_bind (extends_refl _ _)
    intro holds
    cases holds with
    | true => exact extends_bind (items_extends enough extended body state) later
    | false => exact extends_bind (branches_extends enough extended branches state) later

theorem branches_extends (enough : fuel ≤ more)
    (extended : ∀ path state, Extends .outOfFuel (included path state) (included' path state)) :
    (branches : Branches) → (state : PreProcessorState) →
    Extends .outOfFuel (branches.process included fuel state) (branches.process included' more state)
  | .endIf line, state => extends_refl _ _
  | .else_ line body last, state => by
    rw [Branches.process,Branches.process]
    exact items_extends enough extended body state
  | .elIf cond line body rest, state => by
    rw [Branches.process,Branches.process]
    apply extends_bind (extends_refl _ _)
    intro holds
    cases holds with
    | true => exact items_extends enough extended body state
    | false => exact branches_extends enough extended rest state

end

theorem processFile_extends : ∀ {fuel more : Nat}, fuel ≤ more → ∀ path state,
    Extends .outOfFuel (processFile trees fuel path state) (processFile trees more path state) := by
  intro fuel
  induction fuel with
  | zero => exact fun _ _ _ => Or.inl rfl
  | succ fuel ih =>
    intro more enough path state
    cases more with
    | zero => exact absurd enough (Nat.not_succ_le_zero _)
    | succ more =>
      have less := Nat.le_of_succ_le_succ enough
      unfold processFile
      split
      · exact extends_refl _ _
      · exact items_extends less (ih less) _ state

end Fuel

-- The files are made of properly nested items.
def Structured (readFile : Text → Option Text) (trees : Text → Option Items) : Prop :=
  ∀ path, readFile path = (trees path).map fun items => chars items.lines

theorem end_moves {file : DrainingFile} {state : PreProcessorState} {below : List DrainingSource}
    (atEnd : At file [] []) (isClosed : file.ifStack = []) :
    Moves readFile [] ⟨.file file :: below,state⟩ ⟨below,state⟩ := by
  obtain ⟨file',run,_⟩ := DrainingFile.parseBody_end atEnd
  have closed : file.ifStack.head? = none := by rw [isClosed]; rfl
  have ended := fun fuel => @parse_end file file' state closed run fuel
  apply moves_jump
  intro call
  rw [parse_file]
  cases call with
  | zero =>
    have extended := @drain_extends 1 2 file state (by decide)
    rw [ended] at extended
    rcases extended with isLost | same
    · rw [isLost]
      rfl
    · rw [same]
      rfl
  | succ call =>
    rw [ended]
    rfl

theorem file_realizes {included : Text → PreProcessorState → Output} (includes : Includes readFile included)
    {fuel : Nat} (items : Items) (state : PreProcessorState) (below : List DrainingSource) :
    match items.process included fuel state with
    | .ok (tokens, state') =>
        Moves readFile tokens ⟨.file (.new (chars items.lines)) :: below,state⟩ ⟨below,state'⟩
    | .error failure => failure = .outOfFuel ∨
        Fails readFile ⟨.file (.new (chars items.lines)) :: below,state⟩ failure := by
  have position : At (.new (chars items.lines)) [] (items.lines ++ []) := by
    rw [List.append_nil]
    exact At.start rfl rfl
  have realizes := @items_realizes readFile included fuel includes items _ state below [] position
  cases found : items.process included fuel state with
  | error failure =>
    rw [found] at realizes
    exact realizes
  | ok result =>
    rw [found] at realizes
    rcases result with ⟨tokens,state'⟩
    obtain ⟨file,atEnd,sameStack,moves⟩ := realizes
    have moved := moves_trans moves (end_moves atEnd sameStack)
    rw [List.append_nil] at moved
    exact moved

-- The reference of included files, however deep.
theorem processFile_includes (structured : Structured readFile trees) :
    ∀ fuel, Includes readFile (processFile trees fuel) := by
  intro fuel
  induction fuel with
  | zero => exact fun _ _ _ => Or.inl rfl
  | succ fuel ih =>
    intro path state below
    unfold processFile
    have reads := structured path
    cases found : trees path with
    | none =>
      rw [found] at reads
      apply Or.inr
      apply Or.inl
      unfold FilePreProcessor.openFile
      rw [reads]
      rfl
    | some items =>
      rw [found] at reads
      have opened : FilePreProcessor.openFile readFile path = .ok (.file (.new (chars items.lines))) := by
        unfold FilePreProcessor.openFile
        rw [reads]
        rfl
      have realizes := @file_realizes readFile _ ih fuel items state below
      dsimp only
      cases run : items.process (processFile trees fuel) fuel state with
      | error failure =>
        rw [run] at realizes
        rcases realizes with isLost | fails
        · exact Or.inl isLost
        · exact Or.inr (Or.inr ⟨_,opened,fails⟩)
      | ok result =>
        rw [run] at realizes
        exact ⟨_,opened,realizes⟩

-- What finishes in the processor finishes in the reference.
section Finishing

variable {below : List DrainingSource} {state : PreProcessorState}

theorem macro_step {later call : Nat} {data : Text}
    (found : resume readFile later call ⟨.macro_ data :: below,state⟩ ≠ .error .outOfFuel) :
    (∃ fuel, macroTokens fuel data ≠ .error .outOfFuel) ∨ ∃ later' token rest, later = later' + 1 ∧
      DrainingMacro.parse data = .ok (some token,rest) ∧
      resume readFile later' (later' + 1) ⟨.macro_ rest :: below,state⟩ ≠ .error .outOfFuel := by
  cases call with
  | zero => exact absurd rfl found
  | succ call =>
    unfold resume at found
    simp only [FilePreProcessor.parse] at found
    cases parsed : DrainingMacro.parse data with
    | error failure =>
      refine Or.inl ⟨1,?_⟩
      rw [parsed] at found
      unfold macroTokens
      rw [parsed]
      exact error_known found
    | ok result =>
      rw [parsed] at found
      rcases result with ⟨token,rest⟩
      cases token with
      | none =>
        refine Or.inl ⟨1,?_⟩
        unfold macroTokens
        rw [parsed]
        intro isError
        cases isError
      | some token =>
        cases later with
        | zero => exact absurd rfl found
        | succ later =>
          have left := @emit_lost [token] _ found
          rw [collect_succ] at left
          exact Or.inr ⟨later,token,rest,rfl,rfl,left⟩

theorem macro_finishes : ∀ {later call : Nat} {data : Text},
    resume readFile later call ⟨.macro_ data :: below,state⟩ ≠ .error .outOfFuel →
      ∃ fuel, macroTokens fuel data ≠ .error .outOfFuel := by
  intro later
  induction later with
  | zero =>
    intro call data found
    rcases macro_step found with finishes | ⟨_,_,_,none,_⟩
    · exact finishes
    · cases none
  | succ later ih =>
    intro call data found
    rcases macro_step found with finishes | ⟨later',token,rest,same,parsed,left⟩
    · exact finishes
    · cases same
      obtain ⟨fuel,finishes⟩ := ih left
      refine ⟨fuel + 1,?_⟩
      unfold macroTokens
      rw [parsed]
      change (macroTokens fuel rest >>= fun tokens => pure (token :: tokens)) ≠ _
      cases run : macroTokens fuel rest with
      | error failure =>
        rw [run] at finishes
        exact error_known finishes
      | ok tokens =>
        intro isError
        cases isError

theorem realizes_resume {processor : FilePreProcessor} {stack : List IfStatus} {after : List Line}
    {tokens : List TokenType} {state' : PreProcessorState}
    (realizes : Realizes readFile processor below stack after (.ok (tokens,state'))) {later call : Nat}
    (found : resume readFile later call processor ≠ .error .outOfFuel) :
    ∃ file later' call', At file [] after ∧ file.ifStack = stack ∧
      (later' < later ∨ later' = later ∧ call' ≤ call) ∧
      resume readFile later' call' ⟨.file file :: below,state'⟩ ≠ .error .outOfFuel := by
  obtain ⟨file,position,sameStack,moves⟩ := realizes
  obtain ⟨later',call',less,left⟩ := moves.back later call found
  exact ⟨file,later',call',position,sameStack,less,left⟩

theorem item_finishes {file file' : DrainingFile} {item : LineItem} {later call : Nat}
    (run : ∀ fuel, file.parseBody (fuel + 1) = .ok (item.body,file'))
    (found : resume readFile later call ⟨.file file :: below,state⟩ ≠ .error .outOfFuel) :
    ∃ fuel, itemTokens fuel state item ≠ .error .outOfFuel := by
  cases item with
  | token token => exact ⟨0,nofun⟩
  | expansion name =>
    unfold itemTokens
    dsimp only
    cases defined : state name with
    | none => exact ⟨0,nofun⟩
    | some value =>
      cases value with
      | none => exact ⟨0,nofun⟩
      | some value =>
        obtain ⟨later',call',_,left⟩ := (expansion_moves run defined).back later call found
        exact macro_finishes left

theorem line_finishes {after : List Line} {items : List LineItem} :
    ∀ {file : DrainingFile} {later call : Nat}, At file items after →
      resume readFile later call ⟨.file file :: below,state⟩ ≠ .error .outOfFuel →
      ∃ fuel, lineTokens fuel state items ≠ .error .outOfFuel := by
  induction items with
  | nil =>
    intro file later call _ _
    exact ⟨0,nofun⟩
  | cons item items ih =>
    intro file later call position found
    obtain ⟨file',run,position',sameStack⟩ := DrainingFile.parseBody_item position
    apply finishes_bind (fun enough => itemTokens_extends enough state item)
      (fun _ _ _ enough => extends_bind (lineTokens_extends enough state items) fun _ => extends_refl _ _)
      (item_finishes run found)
    intro fuel tokens first
    have moves := @item_moves readFile below file file' state fuel item run
    rw [first] at moves
    obtain ⟨later',call',_,left⟩ := moves.back later call found
    obtain ⟨enough,ends⟩ := ih position' left
    refine ⟨enough,?_⟩
    cases rest : lineTokens enough state items with
    | error failure =>
      rw [rest] at ends
      exact error_known ends
    | ok tokens => exact fun same => by cases same

theorem checkCond_known (state : PreProcessorState) (cond : IfCheck) : checkCond state cond ≠ .error .outOfFuel := by
  induction cond with
  | defined name => exact fun same => by cases same
  | notDefined name => exact fun same => by cases same
  | cmp name op value =>
    unfold checkCond
    split <;> exact fun same => by cases same
  | op left op right ofLeft ofRight =>
    unfold checkCond
    cases isLeft : checkCond state left with
    | error failure =>
      rw [isLeft] at ofLeft
      exact error_known ofLeft
    | ok first =>
      cases isRight : checkCond state right with
      | error failure =>
        rw [isRight] at ofRight
        exact error_known ofRight
      | ok second => exact fun same => by cases same

-- Less fuel for the iteration.
def Below (later' call' later call : Nat) : Prop :=
  later' < later ∨ later' = later ∧ call' < call

def AtMost (later' call' later call : Nat) : Prop :=
  later' < later ∨ later' = later ∧ call' ≤ call

theorem atMost_trans {first firstCall second secondCall third thirdCall : Nat}
    (one : AtMost first firstCall second secondCall) (two : AtMost second secondCall third thirdCall) :
    AtMost first firstCall third thirdCall := by
  unfold AtMost at *
  omega

theorem finishes_emit {tokens : List TokenType} {output : Output} (finishes : output ≠ .error .outOfFuel) :
    emit tokens output ≠ .error .outOfFuel := by
  cases output with
  | error failure => exact error_known finishes
  | ok result => exact fun same => by cases same

-- The files that are included from some lines finish, when there is less fuel for them.
def IncludesFinish (readFile : Text → Option Text) (trees : Text → Option Items) (later call : Nat) : Prop :=
  ∀ later' call', Below later' call' later call → ∀ (items : Items) (state : PreProcessorState)
    (below : List DrainingSource),
    resume readFile later' call' ⟨.file (.new (chars items.lines)) :: below,state⟩ ≠ .error .outOfFuel →
      ∃ fuel, items.process (processFile trees fuel) fuel state ≠ .error .outOfFuel

section Parts

variable {later call : Nat} {trees : Text → Option Items}

theorem command_finishes (structured : Structured readFile trees) (inner : IncludesFinish readFile trees later call)
    {command : Command} {line : DirectiveLine command.macroLine} {after : List Line} {file : DrainingFile}
    (position : At file [] (.directive _ line :: after)) {later' call' : Nat} (less : AtMost later' call' later call)
    (found : resume readFile later' call' ⟨.file file :: below,state⟩ ≠ .error .outOfFuel) :
    ∃ fuel, command.process (processFile trees fuel) state ≠ .error .outOfFuel := by
  have known : ∀ change : Except Failure PreProcessorState, change ≠ .error .outOfFuel →
      (change >>= fun state => (pure ([],state) : Output)) ≠ .error .outOfFuel := by
    intro change finishes
    cases change with
    | error failure => exact error_known finishes
    | ok state => exact fun same => by cases same
  cases command with
  | define name value =>
    refine ⟨0,known _ ?_⟩
    unfold PreProcessorState.setDefine
    split
    · exact fun same => by cases same
    · exact fun same => by cases same
    · split <;> exact fun same => by cases same
  | undefine name =>
    refine ⟨0,known _ ?_⟩
    unfold PreProcessorState.delValue
    split <;> exact fun same => by cases same
  | include_ path =>
    obtain ⟨file',run,_,_⟩ := DrainingFile.parseBody_directive position
    have reads := structured path
    cases isFile : trees path with
    | none =>
      refine ⟨1,?_⟩
      change processFile trees 1 path state ≠ _
      unfold processFile
      rw [isFile]
      exact fun same => by cases same
    | some items =>
      rw [isFile] at reads
      have pushed : ∀ call, FilePreProcessor.parse readFile (call + 1) ⟨.file file :: below,state⟩ =
          FilePreProcessor.parse readFile call ⟨.file (.new (chars items.lines)) :: .file file' :: below,state⟩ := by
        intro call
        rw [parse_file,parse_body run]
        change (FilePreProcessor.openFile readFile path >>= _) = _
        unfold FilePreProcessor.openFile
        rw [reads]
        rfl
      cases call' with
      | zero => exact absurd rfl found
      | succ call' =>
        unfold resume at found
        rw [pushed] at found
        have strict : Below later' call' later call := by
          unfold AtMost at less
          unfold Below
          omega
        obtain ⟨fuel,finishes⟩ := inner later' call' strict items state _ found
        refine ⟨fuel + 1,?_⟩
        change processFile trees (fuel + 1) path state ≠ _
        unfold processFile
        rw [isFile]
        exact finishes

theorem realizes_at {stack : List IfStatus} {after : List Line} {processor : FilePreProcessor} {output : Output}
    {tokens : List TokenType} {state' : PreProcessorState} (found : output = .ok (tokens,state'))
    (realizes : Realizes readFile processor below stack after output) {later' call' : Nat}
    (less : AtMost later' call' later call) (goes : resume readFile later' call' processor ≠ .error .outOfFuel) :
    ∃ file later'' call'', At file [] after ∧ file.ifStack = stack ∧ AtMost later'' call'' later call ∧
      resume readFile later'' call'' ⟨.file file :: below,state'⟩ ≠ .error .outOfFuel := by
  rw [found] at realizes
  obtain ⟨file,later'',call'',position,sameStack,lesser,left⟩ := realizes_resume realizes goes
  exact ⟨file,later'',call'',position,sameStack,atMost_trans lesser less,left⟩

mutual

theorem items_finish (structured : Structured readFile trees) (inner : IncludesFinish readFile trees later call) :
    (items : Items) → (file : DrainingFile) → (state : PreProcessorState) → (below : List DrainingSource) →
    (after : List Line) → (later' call' : Nat) → At file [] (items.lines ++ after) → AtMost later' call' later call →
    resume readFile later' call' ⟨.file file :: below,state⟩ ≠ .error .outOfFuel →
    ∃ fuel, items.process (processFile trees fuel) fuel state ≠ .error .outOfFuel
  | .nil, file, state, below, after, later', call', position, less, found => ⟨0,nofun⟩
  | .tokens line rest, file, state, below, after, later', call', position, less, found => by
    rw [Items.lines,List.cons_append] at position
    obtain ⟨started,position,sameStack,starts⟩ := DrainingFile.parseBody_tokens position
    have goes := drains_resume (tokens_drains sameStack starts) found
    apply finishes_bind (fun enough => lineTokens_extends enough state line.items)
      (fun tokens _ _ enough => emit_extends tokens (items_extends enough (processFile_extends enough) rest state))
      (line_finishes position goes)
    intro fuel tokens first
    have lexed := @line_realizes readFile below fuel _ _ started state position
    rw [first] at lexed
    obtain ⟨file',later'',call'',position',_,less',left⟩ := realizes_at rfl lexed less goes
    obtain ⟨enough,ends⟩ := items_finish structured inner rest file' state below after later'' call'' position' less' left
    exact ⟨enough,finishes_emit ends⟩
  | .command command line rest, file, state, below, after, later', call', position, less, found => by
    rw [Items.lines,List.cons_append] at position
    have more : ∀ {fuel more}, fuel ≤ more → Extends .outOfFuel (command.process (processFile trees fuel) state)
        (command.process (processFile trees more) state) := by
      intro fuel more enough
      cases command with
      | include_ path => exact processFile_extends enough path state
      | _ => exact extends_refl _ _
    apply finishes_bind more
      (fun result _ _ enough =>
        emit_extends result.1 (items_extends enough (processFile_extends enough) rest result.2))
      (command_finishes structured inner position less found)
    intro fuel result first
    have realizes := @command_realizes readFile below _ file state _ (processFile_includes structured fuel) command line
      position
    obtain ⟨file',later'',call'',position',_,less',left⟩ := realizes_at first realizes less found
    obtain ⟨enough,ends⟩ :=
      items_finish structured inner rest file' result.2 below after later'' call'' position' less' left
    exact ⟨enough,finishes_emit ends⟩
  | .group cond line body branches rest, file, state, below, after, later', call', position, less, found => by
    rw [Items.lines,List.cons_append,List.append_assoc,List.append_assoc] at position
    obtain ⟨opened,run,atEnd,sameStack⟩ := DrainingFile.parseBody_directive position
    have parsed : ∀ fuel, file.parse (fuel + 1) state = checkCond state cond >>= fun cond =>
        opened.enterIfBlock (fuel + 1) cond state >>= fun file => file.parse fuel state := parse_body run
    have restMore : ∀ (result : List TokenType × PreProcessorState) {fuel more}, fuel ≤ more →
        Extends .outOfFuel (emit result.1 (rest.process (processFile trees fuel) fuel result.2))
          (emit result.1 (rest.process (processFile trees more) more result.2)) :=
      fun result _ _ enough =>
        emit_extends result.1 (items_extends enough (processFile_extends enough) rest result.2)
    have goesOn : ∀ file' (result : List TokenType × PreProcessorState) later'' call'',
        At file' [] (rest.lines ++ after) → AtMost later'' call'' later call →
        resume readFile later'' call'' ⟨.file file' :: below,result.2⟩ ≠ .error .outOfFuel →
        ∃ fuel, emit result.1 (rest.process (processFile trees fuel) fuel result.2) ≠ .error .outOfFuel := by
      intro file' result later'' call'' position' less' left
      obtain ⟨enough,ends⟩ :=
        items_finish structured inner rest file' result.2 below after later'' call'' position' less' left
      exact ⟨enough,finishes_emit ends⟩
    simp only [Items.process]
    cases holds : checkCond state cond with
    | error failure =>
      have known := checkCond_known state cond
      rw [holds] at known
      exact ⟨0,error_known known⟩
    | ok holds' =>
      cases holds' with
      | true =>
        have enters : Drains file state (opened.push .if_) state := by
          apply drains_step
          intro fuel
          rw [parsed,holds]
          rfl
        have goes := drains_resume enters found
        have started : At (opened.push .if_) [] (body.lines ++ (branches.lines ++ (rest.lines ++ after))) :=
          atEnd_at atEnd
        apply finishes_bind (fun enough => items_extends enough (processFile_extends enough) body state) restMore
          (items_finish structured inner body _ state below _ later' call' started less goes)
        intro fuel result first
        have realizes := @items_realizes readFile _ fuel (processFile_includes structured fuel) body _ state below _ started
        have left := realizes_leave realizes fun file' state' position' same =>
          leave_moves same nofun branches position'
        obtain ⟨file',later'',call'',position',_,less',goes'⟩ := realizes_at first left less goes
        exact goesOn file' result later'' call'' position' less' goes'
      | false =>
        have searches : ∀ fuel, file.parse (fuel + 1) state =
            opened.searchIfBlock state (fuel + 1) >>= fun file => file.parse fuel state := by
          intro fuel
          rw [parsed,holds]
          rfl
        have entering : ∀ entered, Settles state opened (.ok entered) →
            resume readFile later' call' ⟨.file entered :: below,state⟩ ≠ .error .outOfFuel :=
          fun entered settles => drains_resume (settles_drains searches settles) found
        apply finishes_bind (fun enough => branches_extends enough (processFile_extends enough) branches state) restMore
          (branches_finish structured inner branches opened state below _ (rest.lines ++ after) later' call' atEnd
            (fun f => findBlock_items f body 0 _) less entering)
        intro fuel result first
        obtain ⟨searched,settles,realizes⟩ := @branches_realizes readFile _ fuel (processFile_includes structured fuel)
          branches opened state below _ (rest.lines ++ after) atEnd (fun f => findBlock_items f body 0 _)
        cases searched with
        | error failure =>
          rw [first] at realizes
          cases realizes
        | ok entered =>
          obtain ⟨file',later'',call'',position',_,less',goes'⟩ :=
            realizes_at first realizes less (entering entered settles)
          exact goesOn file' result later'' call'' position' less' goes'

theorem branches_finish (structured : Structured readFile trees) (inner : IncludesFinish readFile trees later call) :
    (branches : Branches) → (file : DrainingFile) → (state : PreProcessorState) → (below : List DrainingSource) →
    (ls after : List Line) → (later' call' : Nat) → AtEnd file ls →
    (∀ f : IfBorders → Bool, findBlock f 0 ls = findBlock f 0 (branches.lines ++ after)) →
    AtMost later' call' later call →
    (∀ entered, Settles state file (.ok entered) →
      resume readFile later' call' ⟨.file entered :: below,state⟩ ≠ .error .outOfFuel) →
    ∃ fuel, branches.process (processFile trees fuel) fuel state ≠ .error .outOfFuel
  | .endIf line, file, state, below, ls, after, later', call', atEnd, skips, less, entering => ⟨0,nofun⟩
  | .else_ line body last, file, state, below, ls, after, later', call', atEnd, skips, less, entering => by
    obtain ⟨file',atEnd',_,run⟩ :=
      @search_next state file ls _ line (body.lines ++ [.directive _ last] ++ after) _ atEnd (skips _)
    rw [List.append_assoc] at atEnd'
    have started : At (file'.push .else_) [] (body.lines ++ ([Line.directive .endIf last] ++ after)) :=
      atEnd_at atEnd'
    exact items_finish structured inner body _ state below _ later' call' started less
      (entering _ (settles_result run))
  | .elIf cond line body rest, file, state, below, ls, after, later', call', atEnd, skips, less, entering => by
    obtain ⟨file',atEnd',_,run⟩ :=
      @search_next state file ls _ line (body.lines ++ rest.lines ++ after) _ atEnd (skips _)
    rw [List.append_assoc] at atEnd'
    simp only [Branches.process]
    cases holds : checkCond state cond with
    | error failure =>
      have known := checkCond_known state cond
      rw [holds] at known
      exact ⟨0,error_known known⟩
    | ok holds' =>
      cases holds' with
      | true =>
        have started : At (file'.push .ifElse) [] (body.lines ++ (rest.lines ++ after)) := atEnd_at atEnd'
        apply items_finish structured inner body _ state below _ later' call' started less
        apply entering
        apply settles_result
        intro fuel
        rw [run,branched,holds]
        rfl
      | false =>
        apply branches_finish structured inner rest file' state below (body.lines ++ (rest.lines ++ after)) after
          later' call' atEnd' (fun f => findBlock_items f body 0 _) less
        intro entered settles
        apply entering
        apply settles_step _ settles
        intro fuel
        rw [run,branched,holds]
        rfl

end

end Parts

theorem includes_finish (structured : Structured readFile trees) :
    ∀ later call, IncludesFinish readFile trees later call := by
  intro later
  induction later using Nat.strongRecOn with
  | ind later ofLater =>
    intro call
    induction call using Nat.strongRecOn with
    | ind call ofCall =>
      intro later' call' less items state below found
      have inner : IncludesFinish readFile trees later' call' := by
        rcases less with less | ⟨same,less⟩
        · exact ofLater later' less call'
        · rw [same]
          exact ofCall call' less
      have position : At (.new (chars items.lines)) [] (items.lines ++ []) := by
        rw [List.append_nil]
        exact At.start rfl rfl
      exact items_finish structured inner items _ state below [] later' call' position (Or.inr ⟨rfl,Nat.le_refl _⟩) found

end Finishing

theorem collect_reference (structured : Structured readFile trees) (items : Items) (state : PreProcessorState) {fuel : Nat}
    (finished : items.process (processFile trees fuel) fuel state ≠ .error .outOfFuel) :
    ∃ enough, FilePreProcessor.collect readFile enough ⟨[.file (.new (chars items.lines))],state⟩ =
      items.process (processFile trees fuel) fuel state := by
  have realizes := @file_realizes readFile _ (processFile_includes structured fuel) fuel items state []
  cases run : items.process (processFile trees fuel) fuel state with
  | error failure =>
    rw [run] at realizes finished
    rcases realizes with isLost | fails
    · exact absurd (congrArg Except.error isLost) finished
    · exact fails
  | ok result =>
    rw [run] at realizes
    rcases result with ⟨tokens,state'⟩
    obtain ⟨enough,extended⟩ := realizes.forth 1
    refine ⟨enough,?_⟩
    have ended : emit tokens (FilePreProcessor.collect readFile 1 ⟨[],state'⟩) = .ok (tokens,state') := by
      change Except.ok (tokens ++ [],state') = _
      rw [List.append_nil]
    rw [ended] at extended
    exact extends_same extended nofun

theorem process_items (structured : Structured readFile trees) {path : Text} {items : Items}
    (isFile : trees path = some items) (fuel : Nat) :
    FilePreProcessor.process readFile fuel path =
      FilePreProcessor.collect readFile fuel ⟨[.file (.new (chars items.lines))],fun _ => none⟩ := by
  have reads := structured path
  rw [isFile] at reads
  unfold FilePreProcessor.process FilePreProcessor.new FilePreProcessor.openFile
  rw [reads]
  rfl

theorem process_missing (structured : Structured readFile trees) {path : Text} (isFile : trees path = none) (fuel : Nat) :
    FilePreProcessor.process readFile fuel path = .error (.error .file) := by
  have reads := structured path
  rw [isFile] at reads
  unfold FilePreProcessor.process FilePreProcessor.new FilePreProcessor.openFile
  rw [reads]
  rfl

-- The tokens and the definitions of the processor are those of the reference.
theorem process_means (structured : Structured readFile trees) (path : Text) {output : Output}
    (finished : output ≠ .error .outOfFuel) :
    (∃ fuel, FilePreProcessor.process readFile fuel path = output) ↔
      ∃ fuel, processFile trees fuel path (fun _ => none) = output := by
  cases isFile : trees path with
  | none =>
    have reference : ∀ fuel, processFile trees (fuel + 1) path (fun _ => none) = .error (.error .file) := by
      intro fuel
      rw [processFile,isFile]
    constructor
    · intro found
      obtain ⟨fuel,found⟩ := found
      rw [process_missing structured isFile] at found
      exact ⟨1,(reference 0).trans found⟩
    · intro found
      obtain ⟨fuel,found⟩ := found
      cases fuel with
      | zero => exact absurd found.symm finished
      | succ fuel =>
        rw [reference] at found
        exact ⟨0,(process_missing structured isFile 0).trans found⟩
  | some items =>
    have reference : ∀ fuel, processFile trees (fuel + 1) path (fun _ => none) =
        items.process (processFile trees fuel) fuel (fun _ => none) := by
      intro fuel
      rw [processFile,isFile]
    constructor
    · intro found
      obtain ⟨fuel,found⟩ := found
      rw [process_items structured isFile] at found
      cases fuel with
      | zero => exact absurd found.symm finished
      | succ fuel =>
        have goes : resume readFile fuel (fuel + 1) ⟨[.file (.new (chars items.lines))],fun _ => none⟩ ≠
            .error .outOfFuel := by
          unfold resume
          rw [← collect_succ,found]
          exact finished
        obtain ⟨enough,ends⟩ := includes_finish structured (fuel + 1) 0 fuel (fuel + 1) (Or.inl (Nat.lt_succ_self _))
          items (fun _ => none) [] goes
        obtain ⟨more,same⟩ := collect_reference structured items (fun _ => none) ends
        refine ⟨enough + 1,?_⟩
        rw [reference,← same]
        -- Both iterations finish, so a longer one gives what each of them gives.
        have first :=
          @collect_extends readFile _ _ ⟨[.file (.new (chars items.lines))],fun _ => none⟩ (Nat.le_max_left (fuel + 1) more)
        have second :=
          @collect_extends readFile _ _ ⟨[.file (.new (chars items.lines))],fun _ => none⟩ (Nat.le_max_right (fuel + 1) more)
        rw [found] at first
        rw [same] at second
        rw [same]
        exact (extends_same second ends).symm.trans (extends_same first finished)
    · intro found
      obtain ⟨fuel,found⟩ := found
      cases fuel with
      | zero => exact absurd found.symm finished
      | succ fuel =>
        rw [reference] at found
        rw [← found] at finished
        obtain ⟨enough,same⟩ := collect_reference structured items (fun _ => none) finished
        refine ⟨enough,?_⟩
        rw [process_items structured isFile,same,found]

end Rsleigh.Preprocessor
