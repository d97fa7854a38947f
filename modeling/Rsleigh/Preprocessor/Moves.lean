import Rsleigh.Preprocessor.Reference

namespace Rsleigh.Preprocessor

open Parsing Syntax Fallible

-- More fuel finds the same.
section Fuel

variable {state : PreProcessorState} {readFile : Text → Option Text}

theorem searchIfBlock_extends {fuel more : Nat} :
    ∀ {file : DrainingFile}, fuel ≤ more →
      Extends .outOfFuel (file.searchIfBlock state fuel) (file.searchIfBlock state more) := by
  induction fuel generalizing more with
  | zero => exact fun _ => Or.inl rfl
  | succ fuel ih =>
    intro file enough
    cases more with
    | zero => exact absurd enough (Nat.not_succ_le_zero _)
    | succ more =>
      apply extends_bind (extends_refl _ _)
      intro found
      apply extends_bind (extends_refl _ _)
      intro parsed
      rcases parsed with ⟨macroLine,next⟩
      cases macroLine with
      | elIf cond =>
        apply extends_bind (extends_refl _ _)
        intro holds
        cases holds with
        | true => exact extends_refl _ _
        | false => exact ih (Nat.le_of_succ_le_succ enough)
      | _ => exact extends_refl _ _

theorem parseBodyLoop_extends {fuel more : Nat} :
    ∀ {file : DrainingFile}, fuel ≤ more →
      Extends .outOfFuel (DrainingFile.parseBodyLoop fuel file) (DrainingFile.parseBodyLoop more file) := by
  induction fuel generalizing more with
  | zero => exact fun _ => Or.inl rfl
  | succ fuel ih =>
    intro file enough
    cases more with
    | zero => exact absurd enough (Nat.not_succ_le_zero _)
    | succ more =>
      unfold DrainingFile.parseBodyLoop
      split
      · exact extends_refl _ _
      · split
        · split
          · exact extends_refl _ _
          · exact ih (Nat.le_of_succ_le_succ enough)
        · exact extends_refl _ _

theorem parseBody_extends {fuel more : Nat} {file : DrainingFile} (enough : fuel ≤ more) :
    Extends .outOfFuel (file.parseBody fuel) (file.parseBody more) := by
  unfold DrainingFile.parseBody
  split
  · split
    · exact extends_refl _ _
    · exact parseBodyLoop_extends enough
  · exact parseBodyLoop_extends enough

-- What a file makes of the next part of its body.
def followed (fuel : Nat) (status : Option IfStatus) (state : PreProcessorState) (parsed : Body × DrainingFile) :
    Except Failure (Product × DrainingFile × PreProcessorState) :=
  let passed : Except Failure (Product × DrainingFile × PreProcessorState) := do
    let (_, file) ← parsed.2.nextIfBlock fun block => block = .endIf
    let (macroLine, file) ← file.nomIt MacroLine.parse
    match macroLine with
    | .endIf => file.pop.parse fuel state
    | _ => .error .unreachable
  match parsed.1 with
  | .end_ => if status.isSome then .error (.error .notFoundEndIf) else .ok (.end_,parsed.2,state)
  | .token token => .ok (.token token,parsed.2,state)
  | .expansion name => .ok (.expand name,parsed.2,state)
  | .macro_ (.include_ path) => .ok (.file path,parsed.2,state)
  | .macro_ (.define name value) => state.setDefine name value >>= fun state => parsed.2.parse fuel state
  | .macro_ (.undefine name) => state.delValue name >>= fun state => parsed.2.parse fuel state
  | .macro_ (.if_ cond) => checkCond state cond >>= fun cond =>
      parsed.2.enterIfBlock (fuel + 1) cond state >>= fun file => file.parse fuel state
  | .macro_ .endIf => if status.isSome then parsed.2.pop.parse fuel state else .error (.error .invalidEndIf)
  | .macro_ (.elIf _) | .macro_ .else_ =>
    if status = none ∨ status = some .else_ then .error (.error .invalidEndIf) else passed

theorem parse_followed (fuel : Nat) (file : DrainingFile) (state : PreProcessorState) :
    file.parse (fuel + 1) state = file.parseBody (fuel + 1) >>= followed fuel file.ifStack.head? state := by
  rw [DrainingFile.parse]
  cases file.parseBody (fuel + 1) with
  | error failure => rfl
  | ok parsed =>
    rcases parsed with ⟨body,next⟩
    -- The status matters for the directives of a conditional only.
    rcases file.ifStack.head? with _ | status
    · cases body with
      | macro_ macroLine => cases macroLine <;> rfl
      | _ => rfl
    · cases body with
      | macro_ macroLine => cases macroLine <;> cases status <;> rfl
      | _ => rfl

theorem followed_extends {fuel more : Nat} (enough : fuel ≤ more)
    (later : ∀ (file : DrainingFile) (state : PreProcessorState),
      Extends .outOfFuel (file.parse fuel state) (file.parse more state))
    (status : Option IfStatus) (state : PreProcessorState) (parsed : Body × DrainingFile) :
    Extends .outOfFuel (followed fuel status state parsed) (followed more status state parsed) := by
  rcases parsed with ⟨body,next⟩
  have next_ : ∀ macroLine, macroLine = .else_ ∨ (∃ cond, macroLine = .elIf cond) →
      Extends .outOfFuel (followed fuel status state (.macro_ macroLine,next))
        (followed more status state (.macro_ macroLine,next)) := by
    intro macroLine isNext
    rcases isNext with rfl | ⟨cond,rfl⟩
    all_goals
      unfold followed
      dsimp only
      split
      · exact extends_refl _ _
      · apply extends_bind (extends_refl _ _)
        intro found
        apply extends_bind (extends_refl _ _)
        intro parsed
        rcases parsed with ⟨macroLine,file⟩
        cases macroLine with
        | endIf => exact later _ _
        | _ => exact extends_refl _ _
  cases body with
  | end_ => exact extends_refl _ _
  | token token => exact extends_refl _ _
  | expansion name => exact extends_refl _ _
  | macro_ macroLine =>
    cases macroLine with
    | include_ path => exact extends_refl _ _
    | define name value => exact extends_bind (extends_refl _ _) fun _ => later _ _
    | undefine name => exact extends_bind (extends_refl _ _) fun _ => later _ _
    | if_ cond =>
      apply extends_bind (extends_refl _ _)
      intro holds
      apply extends_bind
      · unfold DrainingFile.enterIfBlock
        split
        · exact extends_refl _ _
        · exact searchIfBlock_extends (Nat.succ_le_succ enough)
      · exact fun _ => later _ _
    | endIf =>
      cases status with
      | none => exact extends_refl _ _
      | some status => exact later _ _
    | elIf cond => exact next_ _ (Or.inr ⟨cond,rfl⟩)
    | else_ => exact next_ _ (Or.inl rfl)

theorem drain_extends {fuel more : Nat} :
    ∀ {file : DrainingFile} {state : PreProcessorState}, fuel ≤ more →
      Extends .outOfFuel (file.parse fuel state) (file.parse more state) := by
  induction fuel generalizing more with
  | zero => exact fun _ => Or.inl rfl
  | succ fuel ih =>
    intro file state enough
    cases more with
    | zero => exact absurd enough (Nat.not_succ_le_zero _)
    | succ more =>
      rw [parse_followed,parse_followed]
      apply extends_bind (parseBody_extends enough)
      apply followed_extends (Nat.le_of_succ_le_succ enough)
      exact fun _ _ => ih (Nat.le_of_succ_le_succ enough)

theorem parse_extends {fuel more : Nat} :
    ∀ {processor : FilePreProcessor}, fuel ≤ more →
      Extends .outOfFuel (FilePreProcessor.parse readFile fuel processor) (FilePreProcessor.parse readFile more processor) := by
  induction fuel generalizing more with
  | zero => exact fun _ => Or.inl rfl
  | succ fuel ih =>
    intro processor enough
    cases more with
    | zero => exact absurd enough (Nat.not_succ_le_zero _)
    | succ more =>
      have later : ∀ processor, Extends .outOfFuel (FilePreProcessor.parse readFile fuel processor)
          (FilePreProcessor.parse readFile more processor) :=
        fun processor => ih (Nat.le_of_succ_le_succ enough)
      unfold FilePreProcessor.parse
      split
      · exact extends_refl _ _
      · apply extends_bind (extends_refl _ _)
        intro parsed
        rcases parsed with ⟨token,data⟩
        cases token with
        | some token => exact extends_refl _ _
        | none => exact later _
      · apply extends_bind (drain_extends enough)
        intro parsed
        rcases parsed with ⟨product,file,defines⟩
        cases product with
        | end_ => exact later _
        | token token => exact extends_refl _ _
        | file path => exact extends_bind (extends_refl _ _) fun _ => later _
        | expand name => exact extends_bind (extends_refl _ _) fun _ => later _

-- What is left of an iteration after its next token.
def continue_ (readFile : Text → Option Text) (fuel : Nat) (parsed : Option TokenType × FilePreProcessor) : Output :=
  match parsed.1 with
  | none => .ok ([],parsed.2.defines)
  | some token => emit [token] (FilePreProcessor.collect readFile fuel parsed.2)

theorem collect_succ (fuel : Nat) (processor : FilePreProcessor) :
    FilePreProcessor.collect readFile (fuel + 1) processor =
      FilePreProcessor.parse readFile (fuel + 1) processor >>= continue_ readFile fuel := by
  unfold FilePreProcessor.collect
  cases FilePreProcessor.parse readFile (fuel + 1) processor with
  | error failure => rfl
  | ok parsed =>
    rcases parsed with ⟨token,next⟩
    cases token with
    | none => rfl
    | some token =>
      change (FilePreProcessor.collect readFile fuel next >>= _) = emit [token] (FilePreProcessor.collect readFile fuel next)
      cases FilePreProcessor.collect readFile fuel next <;> rfl

theorem emit_extends {less more : Output} (tokens : List TokenType) (extended : Extends .outOfFuel less more) :
    Extends .outOfFuel (emit tokens less) (emit tokens more) := by
  rcases extended with isLost | same
  · rw [isLost]
    exact Or.inl rfl
  · rw [same]
    exact extends_refl _ _

theorem collect_extends {fuel more : Nat} :
    ∀ {processor : FilePreProcessor}, fuel ≤ more →
      Extends .outOfFuel (FilePreProcessor.collect readFile fuel processor)
        (FilePreProcessor.collect readFile more processor) := by
  induction fuel generalizing more with
  | zero => exact fun _ => Or.inl rfl
  | succ fuel ih =>
    intro processor enough
    cases more with
    | zero => exact absurd enough (Nat.not_succ_le_zero _)
    | succ more =>
      rw [collect_succ,collect_succ]
      apply extends_bind (parse_extends enough)
      intro parsed
      rcases parsed with ⟨token,next⟩
      cases token with
      | none => exact extends_refl _ _
      | some token => exact emit_extends [token] (ih (Nat.le_of_succ_le_succ enough))

theorem continue_extends {fuel more : Nat} (enough : fuel ≤ more) (parsed : Option TokenType × FilePreProcessor) :
    Extends .outOfFuel (continue_ readFile fuel parsed) (continue_ readFile more parsed) := by
  rcases parsed with ⟨token,next⟩
  cases token with
  | none => exact extends_refl _ _
  | some token => exact emit_extends [token] (collect_extends enough)

end Fuel

theorem emit_nil (output : Output) : emit [] output = output := by
  cases output <;> rfl

theorem emit_append (first second : List TokenType) (output : Output) :
    emit first (emit second output) = emit (first ++ second) output := by
  cases output with
  | error failure => rfl
  | ok result =>
    rcases result with ⟨tokens,state⟩
    change Except.ok (first ++ (second ++ tokens),state) = Except.ok ((first ++ second) ++ tokens,state)
    rw [List.append_assoc]

theorem emit_lost {tokens : List TokenType} {output : Output} (found : emit tokens output ≠ .error .outOfFuel) :
    output ≠ .error .outOfFuel := by
  intro isLost
  rw [isLost] at found
  exact found rfl

-- The iteration from the middle of one of its calls: `call` is the fuel that is left of the call, `later` the fuel
-- for the calls after it.
def resume (readFile : Text → Option Text) (later call : Nat) (processor : FilePreProcessor) : Output :=
  FilePreProcessor.parse readFile call processor >>= continue_ readFile later

-- A processor gives some tokens and goes on as another one, which needs no more fuel.
structure Moves (readFile : Text → Option Text) (tokens : List TokenType) (processor next : FilePreProcessor) : Prop where
  forth : ∀ fuel, ∃ more, Extends .outOfFuel (emit tokens (FilePreProcessor.collect readFile fuel next))
    (FilePreProcessor.collect readFile more processor)
  back : ∀ later call, resume readFile later call processor ≠ .error .outOfFuel →
    ∃ later' call', (later' < later ∨ later' = later ∧ call' ≤ call) ∧
      resume readFile later' call' next ≠ .error .outOfFuel

def Fails (readFile : Text → Option Text) (processor : FilePreProcessor) (failure : Failure) : Prop :=
  ∃ fuel, FilePreProcessor.collect readFile fuel processor = .error failure

section Moving

variable {readFile : Text → Option Text} {tokens later : List TokenType} {processor next last : FilePreProcessor}

theorem moves_refl (processor : FilePreProcessor) : Moves readFile [] processor processor where
  forth := by
    intro fuel
    refine ⟨fuel,?_⟩
    rw [emit_nil]
    exact extends_refl _ _
  back := fun later call found => ⟨later,call,Or.inr ⟨rfl,Nat.le_refl _⟩,found⟩

theorem extends_trans {first second third : Output} (extended : Extends .outOfFuel first second)
    (after : Extends .outOfFuel second third) : Extends .outOfFuel first third := by
  rcases extended with isLost | same
  · exact Or.inl isLost
  · rw [same]
    exact after

theorem moves_trans (moves : Moves readFile tokens processor next) (after : Moves readFile later next last) :
    Moves readFile (tokens ++ later) processor last where
  forth := by
    intro fuel
    obtain ⟨middle,second⟩ := after.forth fuel
    obtain ⟨more,first⟩ := moves.forth middle
    refine ⟨more,?_⟩
    rw [← emit_append]
    exact extends_trans (emit_extends tokens second) first
  back := by
    intro laterFuel call found
    obtain ⟨middleFuel,middleCall,less,middle⟩ := moves.back laterFuel call found
    obtain ⟨lastFuel,lastCall,lesser,found⟩ := after.back middleFuel middleCall middle
    refine ⟨lastFuel,lastCall,?_,found⟩
    omega

theorem moves_fails (moves : Moves readFile tokens processor next) {failure : Failure} (known : failure ≠ .outOfFuel)
    (fails : Fails readFile next failure) : Fails readFile processor failure := by
  obtain ⟨fuel,failed⟩ := fails
  obtain ⟨more,extended⟩ := moves.forth fuel
  refine ⟨more,?_⟩
  rw [failed] at extended
  exact extends_same extended fun isLost => known (Except.error.inj isLost)

theorem moves_jump (jumps : ∀ call, FilePreProcessor.parse readFile (call + 1) processor = FilePreProcessor.parse readFile call next) :
    Moves readFile [] processor next where
  forth := by
    intro fuel
    refine ⟨fuel + 1,?_⟩
    rw [emit_nil]
    cases fuel with
    | zero => exact Or.inl rfl
    | succ fuel =>
      rw [collect_succ,collect_succ,jumps]
      exact extends_bind (extends_refl _ _) fun parsed => continue_extends (Nat.le_succ _) parsed
  back := by
    intro later call found
    cases call with
    | zero => exact absurd rfl found
    | succ call =>
      unfold resume at found
      rw [jumps] at found
      exact ⟨later,call,Or.inr ⟨rfl,Nat.le_succ _⟩,found⟩

theorem moves_token {token : TokenType}
    (returns : ∀ call, FilePreProcessor.parse readFile (call + 1) processor = .ok (some token,next)) :
    Moves readFile [token] processor next where
  forth := by
    intro fuel
    refine ⟨fuel + 1,?_⟩
    rw [collect_succ,returns]
    exact extends_refl _ _
  back := by
    intro later call found
    cases call with
    | zero => exact absurd rfl found
    | succ call =>
      unfold resume at found
      rw [returns] at found
      cases later with
      | zero => exact absurd rfl found
      | succ later =>
        have left := @emit_lost [token] _ found
        rw [collect_succ] at left
        exact ⟨later,later + 1,Or.inl (Nat.lt_succ_self _),left⟩

theorem fails_call {failure : Failure} (failed : ∃ call, FilePreProcessor.parse readFile (call + 1) processor = .error failure) :
    Fails readFile processor failure := by
  obtain ⟨call,failed⟩ := failed
  refine ⟨call + 1,?_⟩
  rw [collect_succ,failed]
  rfl

-- A file that goes on as another one.
structure Drains (file : DrainingFile) (state : PreProcessorState) (file' : DrainingFile) (state' : PreProcessorState) :
    Prop where
  forth : ∀ fuel, ∃ more, fuel ≤ more ∧ Extends .outOfFuel (file'.parse fuel state') (file.parse more state)
  back : ∀ fuel, Extends .outOfFuel (file.parse fuel state) (file'.parse fuel state')

theorem drains_step {file file' : DrainingFile} {state state' : PreProcessorState}
    (steps : ∀ fuel, file.parse (fuel + 1) state = file'.parse fuel state') : Drains file state file' state' where
  forth := fun fuel => ⟨fuel + 1,Nat.le_succ _,by
    rw [steps]
    exact extends_refl _ _⟩
  back := by
    intro fuel
    cases fuel with
    | zero => exact Or.inl rfl
    | succ fuel =>
      rw [steps]
      exact drain_extends (Nat.le_succ _)

-- What a processor makes of the product of its file.
def produced (readFile : Text → Option Text) (fuel : Nat) (below : List DrainingSource)
    (drained : Product × DrainingFile × PreProcessorState) : Except Failure (Option TokenType × FilePreProcessor) :=
  match drained.1 with
  | .end_ => FilePreProcessor.parse readFile fuel { fileStack := below, defines := drained.2.2 }
  | .token token => .ok (some token,{ fileStack := .file drained.2.1 :: below, defines := drained.2.2 })
  | .file path => do
    let source ← FilePreProcessor.openFile readFile path
    FilePreProcessor.parse readFile fuel { fileStack := source :: .file drained.2.1 :: below, defines := drained.2.2 }
  | .expand name => do
    let source ← FilePreProcessor.openMacro drained.2.2 name
    FilePreProcessor.parse readFile fuel { fileStack := source :: .file drained.2.1 :: below, defines := drained.2.2 }

theorem parse_file (fuel : Nat) (file : DrainingFile) (below : List DrainingSource) (state : PreProcessorState) :
    FilePreProcessor.parse readFile (fuel + 1) { fileStack := .file file :: below, defines := state } =
      file.parse (fuel + 1) state >>= produced readFile fuel below := by
  rw [FilePreProcessor.parse]
  dsimp only
  cases file.parse (fuel + 1) state with
  | error failure => rfl
  | ok drained =>
    rcases drained with ⟨product,file',state'⟩
    cases product <;> rfl

theorem produced_extends {fuel more : Nat} (enough : fuel ≤ more) (below : List DrainingSource)
    (drained : Product × DrainingFile × PreProcessorState) :
    Extends .outOfFuel (produced readFile fuel below drained) (produced readFile more below drained) := by
  rcases drained with ⟨product,file,state⟩
  cases product with
  | end_ => exact parse_extends enough
  | token token => exact extends_refl _ _
  | file path => exact extends_bind (extends_refl _ _) fun _ => parse_extends enough
  | expand name => exact extends_bind (extends_refl _ _) fun _ => parse_extends enough

theorem drains_resume {file file' : DrainingFile} {state state' : PreProcessorState} {below : List DrainingSource}
    (drains : Drains file state file' state') {later call : Nat}
    (found : resume readFile later call ⟨.file file :: below,state⟩ ≠ .error .outOfFuel) :
    resume readFile later call ⟨.file file' :: below,state'⟩ ≠ .error .outOfFuel := by
  cases call with
  | zero => exact absurd rfl found
  | succ call =>
    have extended : Extends .outOfFuel (resume readFile later (call + 1) ⟨.file file :: below,state⟩)
        (resume readFile later (call + 1) ⟨.file file' :: below,state'⟩) := by
      unfold resume
      rw [parse_file,parse_file]
      apply extends_bind
      · exact extends_bind (drains.back (call + 1)) fun _ => extends_refl _ _
      · exact fun _ => extends_refl _ _
    rw [extends_same extended found]
    exact found

theorem drains_moves {file file' : DrainingFile} {state state' : PreProcessorState} {below : List DrainingSource}
    (drains : Drains file state file' state') :
    Moves readFile [] ⟨.file file :: below,state⟩ ⟨.file file' :: below,state'⟩ where
  forth := by
    intro fuel
    cases fuel with
    | zero => exact ⟨0,Or.inl rfl⟩
    | succ fuel =>
      obtain ⟨more,longer,extended⟩ := drains.forth (fuel + 1)
      cases more with
      | zero => exact absurd longer (Nat.not_succ_le_zero _)
      | succ more =>
        have enough := Nat.le_of_succ_le_succ longer
        refine ⟨more + 1,?_⟩
        rw [emit_nil,collect_succ,collect_succ,parse_file,parse_file]
        apply extends_bind
        · exact extends_bind extended fun drained => produced_extends enough below drained
        · exact fun parsed => continue_extends enough parsed
  back := fun later call found => ⟨later,call,Or.inr ⟨rfl,Nat.le_refl _⟩,drains_resume drains found⟩

end Moving

end Rsleigh.Preprocessor
