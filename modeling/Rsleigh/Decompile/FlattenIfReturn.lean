import Rsleigh.Decompile.Structured

namespace Rsleigh.Decompile

-- rsleigh-decompile/src/structure.rs. The statements that control does not pass.
def StructuredStmt.leaves : StructuredStmt → Bool
  | .ret _ | .break_ | .continue_ | .goto _ => true
  | _ => false

def endsWithExit (body : List StructuredStmt) : Bool :=
  match body.getLast? with
  | some last => last.leaves
  | none => false

-- The bodies of a statement come first.
def flattenNested (flatten : List StructuredStmt → Option (List StructuredStmt)) : StructuredStmt → Option StructuredStmt
  | .ifElse cond thenBody elseBody => do
    let thenBody ← flatten thenBody
    let elseBody ← flatten elseBody
    some (.ifElse cond thenBody elseBody)
  | .while_ cond negate body => (flatten body).map (.while_ cond negate)
  | .doWhile cond negate body => (flatten body).map (.doWhile cond negate)
  | .switch expr cases default => do
    let cases ← cases.mapM fun case_ => (flatten case_.2).map fun body => (case_.1, body)
    let default ← flatten default
    some (.switch expr cases default)
  | stmt => some stmt

-- A statement, and what is inserted after it.
def moveElse : StructuredStmt → StructuredStmt × List StructuredStmt
  | .ifElse cond thenBody elseBody =>
    if endsWithExit thenBody && !elseBody.isEmpty then (.ifElse cond thenBody [], elseBody)
    else (.ifElse cond thenBody elseBody, [])
  | stmt => (stmt, [])

-- What was inserted is visited again, as it stands at the next indices.
def flattenIfReturn : Nat → List StructuredStmt → Option (List StructuredStmt)
  | 0, _ => none
  | _ + 1, [] => some []
  | fuel + 1, stmt :: rest => do
    let stmt ← flattenNested (flattenIfReturn fuel) stmt
    let rest ← flattenIfReturn fuel ((moveElse stmt).2 ++ rest)
    some ((moveElse stmt).1 :: rest)

namespace Ran

theorem bind_next {ran : Ran State Event Value} {next : State → Ran State Event Value} (passes : ran.outcome = .next) :
    ran.bind next = ran.after next := by
  unfold bind
  rw [passes]

theorem bind_left {ran : Ran State Event Value} {next : State → Ran State Event Value} (leaves : ran.outcome ≠ .next) :
    ran.bind next = ran := by
  unfold bind
  split
  · exact absurd (by assumption) leaves
  · rfl

theorem bind_assoc (ran : Ran State Event Value) (first second : State → Ran State Event Value) :
    (ran.bind first).bind second = ran.bind fun state => (first state).bind second := by
  by_cases passes : ran.outcome = .next
  · rw [bind_next passes,bind_next passes]
    by_cases again : (first ran.state).outcome = .next
    · rw [bind_next (show (ran.after first).outcome = .next from again)]
      simp [after,bind_next again]
    · rw [bind_left (show (ran.after first).outcome ≠ .next from again)]
      simp [after,bind_left again]
  · rw [bind_left passes,bind_left passes,bind_left passes]

theorem bind_skip (ran : Ran State Event Value) : (ran.bind fun state => .skip state) = ran := by
  by_cases passes : ran.outcome = .next
  · rw [bind_next passes]
    simp [after,skip,← passes]
  · exact bind_left passes

@[simp] theorem skip_bind (state : State) (next : State → Ran State Event Value) : (skip state).bind next = next state := by
  simp [bind,after,skip]

end Ran

section Meaning

variable {machine : Machine State Event Value}

theorem meanings_append (first second : List StructuredStmt) (rounds : Nat) (state : State) :
    meanings machine (first ++ second) rounds state =
      (meanings machine first rounds state).bind (meanings machine second rounds) := by
  induction first generalizing state with
  | nil => simp [meanings]
  | cons stmt rest ih =>
    simp only [List.cons_append,meanings,Ran.bind_assoc]
    congr 1
    funext state
    exact ih state

theorem meanings_single (stmt : StructuredStmt) : meanings machine [stmt] = stmt.meaning machine := by
  funext rounds state
  simp only [meanings]
  exact Ran.bind_skip _

theorem endsWithExit_leaves {body : List StructuredStmt} (ends : endsWithExit body = true) (rounds : Nat) (state : State) :
    (meanings machine body rounds state).outcome ≠ .next := by
  unfold endsWithExit at ends
  rcases List.eq_nil_or_concat body with rfl | ⟨before,last,rfl⟩
  · cases ends
  · rw [List.concat_eq_append,List.getLast?_append] at ends
    rw [List.concat_eq_append,meanings_append,meanings_single]
    by_cases passes : (meanings machine before rounds state).outcome = .next
    · rw [Ran.bind_next passes]
      cases last <;> first | (cases ends; done) | (simp [StructuredStmt.meaning,Ran.after,Ran.leave])
    · rw [Ran.bind_left passes]
      exact passes

theorem moveElse_meaning (stmt : StructuredStmt) (rest : List StructuredStmt) :
    meanings machine ((moveElse stmt).1 :: ((moveElse stmt).2 ++ rest)) = meanings machine (stmt :: rest) := by
  unfold moveElse
  split
  · rename_i cond thenBody elseBody
    split
    · rename_i moves
      rw [Bool.and_eq_true] at moves
      funext rounds state
      simp only [meanings,StructuredStmt.meaning]
      by_cases holds : machine.test cond state = true
      · have leaves := @endsWithExit_leaves _ _ _ machine _ moves.1 rounds state
        simp only [if_pos holds]
        rw [Ran.bind_left leaves,Ran.bind_left leaves]
      · simp [holds,meanings_append]
    · rfl
  · rfl

theorem caseMeaning_mapM {flatten : List StructuredStmt → Option (List StructuredStmt)}
    (same : ∀ body flat, flatten body = some flat → meanings machine flat = meanings machine body) :
    ∀ {cases_ flat : List (List Int × List StructuredStmt)},
    cases_.mapM (fun case_ => (flatten case_.2).map fun body => (case_.1,body)) = some flat →
    caseMeaning machine flat = caseMeaning machine cases_ := by
  intro cases_
  induction cases_ with
  | nil =>
    intro flat isFlat
    rw [List.mapM_nil] at isFlat
    cases isFlat
    rfl
  | cons case_ rest ih =>
    intro flat isFlat
    rw [List.mapM_cons] at isFlat
    cases isBody : flatten case_.2 with
    | none => simp [isBody] at isFlat
    | some body =>
      cases isRest : rest.mapM (fun case_ => (flatten case_.2).map fun body => (case_.1,body)) with
      | none => simp [isBody,isRest] at isFlat
      | some flatRest =>
        simp only [isBody,isRest,Option.map_some,Option.bind_eq_bind,Option.bind_some] at isFlat
        cases isFlat
        obtain ⟨values,old⟩ := case_
        funext default value
        simp only [caseMeaning]
        rw [ih isRest,same old body isBody]

theorem flattenNested_meaning {flatten : List StructuredStmt → Option (List StructuredStmt)}
    (same : ∀ body flat, flatten body = some flat → meanings machine flat = meanings machine body)
    {stmt flat : StructuredStmt} (isFlat : flattenNested flatten stmt = some flat) :
    flat.meaning machine = stmt.meaning machine := by
  cases stmt with
  | ifElse cond thenBody elseBody =>
    simp only [flattenNested] at isFlat
    obtain ⟨newThen,isThen,isFlat⟩ := Option.bind_eq_some_iff.mp isFlat
    obtain ⟨newElse,isElse,isFlat⟩ := Option.bind_eq_some_iff.mp isFlat
    cases isFlat
    simp only [StructuredStmt.meaning,same thenBody newThen isThen,same elseBody newElse isElse]
  | while_ cond negate body =>
    obtain ⟨newBody,isBody,isFlat⟩ := Option.map_eq_some_iff.mp isFlat
    cases isFlat
    simp only [StructuredStmt.meaning,same body newBody isBody]
  | doWhile cond negate body =>
    obtain ⟨newBody,isBody,isFlat⟩ := Option.map_eq_some_iff.mp isFlat
    cases isFlat
    simp only [StructuredStmt.meaning,same body newBody isBody]
  | switch expr cases_ default =>
    simp only [flattenNested] at isFlat
    obtain ⟨newCases,isCases,isFlat⟩ := Option.bind_eq_some_iff.mp isFlat
    obtain ⟨newDefault,isDefault,isFlat⟩ := Option.bind_eq_some_iff.mp isFlat
    cases isFlat
    simp only [StructuredStmt.meaning,caseMeaning_mapM same isCases,same default newDefault isDefault]
  | _ =>
    cases isFlat
    rfl

theorem flattenIfReturn_meaning : ∀ {fuel : Nat} (stmts flat : List StructuredStmt),
    flattenIfReturn fuel stmts = some flat → meanings machine flat = meanings machine stmts := by
  intro fuel
  induction fuel with
  | zero => exact fun _ _ isFlat => nomatch isFlat
  | succ fuel ih =>
    intro stmts flat isFlat
    cases stmts with
    | nil =>
      cases isFlat
      rfl
    | cons stmt rest =>
      simp only [flattenIfReturn] at isFlat
      obtain ⟨nested,isNested,isFlat⟩ := Option.bind_eq_some_iff.mp isFlat
      obtain ⟨flatRest,isRest,isFlat⟩ := Option.bind_eq_some_iff.mp isFlat
      cases isFlat
      have sameRest := ih _ _ isRest
      have sameStmt := flattenNested_meaning ih isNested
      have moved := @moveElse_meaning _ _ _ machine nested rest
      calc
        meanings machine ((moveElse nested).1 :: flatRest) =
            meanings machine ((moveElse nested).1 :: ((moveElse nested).2 ++ rest)) := by simp only [meanings,sameRest]
        _ = meanings machine (nested :: rest) := moved
        _ = meanings machine (stmt :: rest) := by simp only [meanings,sameStmt]

end Meaning

-- The number of statements at all levels, which the pass moves but does not change.
mutual

def StructuredStmt.size : StructuredStmt → Nat
  | .ifElse _ thenBody elseBody => 1 + sizes thenBody + sizes elseBody
  | .while_ _ _ body | .doWhile _ _ body => 1 + sizes body
  | .switch _ cases default => 1 + caseSizes cases + sizes default
  | _ => 1

def sizes : List StructuredStmt → Nat
  | [] => 0
  | stmt :: rest => stmt.size + sizes rest

def caseSizes : List (List Int × List StructuredStmt) → Nat
  | [] => 0
  | (_, body) :: rest => sizes body + caseSizes rest

end

-- No branch that leaves has an alternative.
mutual

def StructuredStmt.Flat : StructuredStmt → Prop
  | .ifElse _ thenBody elseBody =>
    (endsWithExit thenBody = true → elseBody = []) ∧ AllFlat thenBody ∧ AllFlat elseBody
  | .while_ _ _ body | .doWhile _ _ body => AllFlat body
  | .switch _ cases default => CasesFlat cases ∧ AllFlat default
  | _ => True

def AllFlat : List StructuredStmt → Prop
  | [] => True
  | stmt :: rest => stmt.Flat ∧ AllFlat rest

def CasesFlat : List (List Int × List StructuredStmt) → Prop
  | [] => True
  | (_, body) :: rest => AllFlat body ∧ CasesFlat rest

end

section Flat

theorem sizes_append (first second : List StructuredStmt) : sizes (first ++ second) = sizes first + sizes second := by
  induction first with
  | nil => simp [sizes]
  | cons stmt rest ih => simp [sizes,ih,Nat.add_assoc]

theorem size_positive (stmt : StructuredStmt) : 0 < stmt.size := by
  cases stmt <;> simp only [StructuredStmt.size] <;> omega

theorem moveElse_size (stmt : StructuredStmt) : (moveElse stmt).1.size + sizes (moveElse stmt).2 = stmt.size := by
  unfold moveElse
  split
  · split
    · simp [StructuredStmt.size,sizes]
    · simp [sizes]
  · simp [sizes]

-- What the pass leaves to be done at a statement, once its bodies are flat.
def BodiesFlat : StructuredStmt → Prop
  | .ifElse _ thenBody elseBody => AllFlat thenBody ∧ AllFlat elseBody
  | stmt => stmt.Flat

theorem moveElse_flat {stmt : StructuredStmt} (bodiesFlat : BodiesFlat stmt) :
    (moveElse stmt).1.Flat ∧ AllFlat (moveElse stmt).2 := by
  unfold moveElse
  split
  · obtain ⟨thenFlat,elseFlat⟩ := bodiesFlat
    split
    · simp [StructuredStmt.Flat,AllFlat,thenFlat,elseFlat]
    · rename_i stays
      simp only [Bool.and_eq_true,not_and,Bool.not_eq_true,Bool.not_eq_false',List.isEmpty_iff] at stays
      exact ⟨⟨stays,thenFlat,elseFlat⟩,trivial⟩
  · rename_i notIf
    refine ⟨?_,trivial⟩
    cases stmt with
    | ifElse cond thenBody elseBody => exact absurd rfl (notIf cond thenBody elseBody)
    | _ => exact bodiesFlat

theorem moveElse_same {stmt : StructuredStmt} (isFlat : stmt.Flat) : moveElse stmt = (stmt,[]) := by
  unfold moveElse
  split
  · rw [if_neg]
    intro moves
    rw [Bool.and_eq_true] at moves
    simp [isFlat.1 moves.1] at moves
  · rfl

-- A pass over a list that ends, with as many statements and no more to move.
def Flattens (flatten : List StructuredStmt → Option (List StructuredStmt)) (stmts : List StructuredStmt) : Prop :=
  ∃ flat, flatten stmts = some flat ∧ sizes flat = sizes stmts ∧ AllFlat flat

theorem cases_flatten {flatten : List StructuredStmt → Option (List StructuredStmt)} {bound : Nat}
    (flattens : ∀ body, sizes body < bound → Flattens flatten body) :
    ∀ {cases_ : List (List Int × List StructuredStmt)}, caseSizes cases_ < bound →
    ∃ flat, cases_.mapM (fun case_ => (flatten case_.2).map fun body => (case_.1,body)) = some flat ∧
      caseSizes flat = caseSizes cases_ ∧ CasesFlat flat := by
  intro cases_
  induction cases_ with
  | nil => exact fun _ => ⟨[],rfl,rfl,trivial⟩
  | cons case_ rest ih =>
    intro small
    obtain ⟨values,body⟩ := case_
    simp only [caseSizes] at small
    obtain ⟨newBody,isBody,sameSize,bodyFlat⟩ := flattens body (by omega)
    obtain ⟨newRest,isRest,sameRest,restFlat⟩ := ih (by omega)
    refine ⟨(values,newBody) :: newRest,?_,by simp [caseSizes,sameSize,sameRest],bodyFlat,restFlat⟩
    rw [List.mapM_cons,isRest]
    simp [isBody]

theorem nested_flatten {flatten : List StructuredStmt → Option (List StructuredStmt)} {stmt : StructuredStmt}
    (flattens : ∀ body, sizes body < stmt.size → Flattens flatten body) :
    ∃ nested, flattenNested flatten stmt = some nested ∧ nested.size = stmt.size ∧ BodiesFlat nested := by
  cases stmt with
  | ifElse cond thenBody elseBody =>
    simp only [StructuredStmt.size] at flattens
    obtain ⟨newThen,isThen,thenSize,thenFlat⟩ := flattens thenBody (by omega)
    obtain ⟨newElse,isElse,elseSize,elseFlat⟩ := flattens elseBody (by omega)
    refine ⟨.ifElse cond newThen newElse,by simp [flattenNested,isThen,isElse],?_,thenFlat,elseFlat⟩
    simp only [StructuredStmt.size,thenSize,elseSize]
  | while_ cond negate body =>
    simp only [StructuredStmt.size] at flattens
    obtain ⟨newBody,isBody,sameSize,bodyFlat⟩ := flattens body (by omega)
    exact ⟨.while_ cond negate newBody,by simp [flattenNested,isBody],by simp only [StructuredStmt.size,sameSize],bodyFlat⟩
  | doWhile cond negate body =>
    simp only [StructuredStmt.size] at flattens
    obtain ⟨newBody,isBody,sameSize,bodyFlat⟩ := flattens body (by omega)
    exact ⟨.doWhile cond negate newBody,by simp [flattenNested,isBody],by simp only [StructuredStmt.size,sameSize],bodyFlat⟩
  | switch expr cases_ default =>
    simp only [StructuredStmt.size] at flattens
    obtain ⟨newCases,isCases,caseSize,casesFlat⟩ := @cases_flatten flatten _ flattens cases_ (by omega)
    obtain ⟨newDefault,isDefault,defaultSize,defaultFlat⟩ := flattens default (by omega)
    refine ⟨.switch expr newCases newDefault,?_,?_,casesFlat,defaultFlat⟩
    · simp only [flattenNested,isCases,isDefault]
      rfl
    · simp only [StructuredStmt.size,caseSize,defaultSize]
  | _ => exact ⟨_,rfl,rfl,trivial⟩

theorem flattenIfReturn_flattens : ∀ {fuel : Nat} (stmts : List StructuredStmt), sizes stmts < fuel →
    Flattens (flattenIfReturn fuel) stmts := by
  intro fuel
  induction fuel with
  | zero => exact fun _ small => absurd small (Nat.not_lt_zero _)
  | succ fuel ih =>
    intro stmts small
    cases stmts with
    | nil => exact ⟨[],rfl,rfl,trivial⟩
    | cons stmt rest =>
      simp only [sizes] at small
      obtain ⟨nested,isNested,sameSize,bodiesFlat⟩ := @nested_flatten (flattenIfReturn fuel) stmt
        (fun body smaller => ih body (by omega))
      have moved := moveElse_size nested
      have positive := size_positive (moveElse nested).1
      obtain ⟨flatRest,isRest,restSize,restFlat⟩ := ih ((moveElse nested).2 ++ rest) (by
        rw [sizes_append]
        omega)
      refine ⟨(moveElse nested).1 :: flatRest,?_,?_,(moveElse_flat bodiesFlat).1,restFlat⟩
      · simp [flattenIfReturn,isNested,isRest]
      · simp only [sizes,restSize,sizes_append]
        omega

theorem cases_stay {flatten : List StructuredStmt → Option (List StructuredStmt)} {bound : Nat}
    (stays : ∀ body, sizes body < bound → AllFlat body → flatten body = some body) :
    ∀ {cases_ : List (List Int × List StructuredStmt)}, caseSizes cases_ < bound → CasesFlat cases_ →
    cases_.mapM (fun case_ => (flatten case_.2).map fun body => (case_.1,body)) = some cases_ := by
  intro cases_
  induction cases_ with
  | nil => exact fun _ _ => rfl
  | cons case_ rest ih =>
    intro small isFlat
    obtain ⟨values,body⟩ := case_
    simp only [caseSizes] at small
    rw [List.mapM_cons,ih (by omega) isFlat.2]
    simp [stays body (by omega) isFlat.1]

theorem nested_stays {flatten : List StructuredStmt → Option (List StructuredStmt)} {stmt : StructuredStmt}
    (stays : ∀ body, sizes body < stmt.size → AllFlat body → flatten body = some body) (isFlat : stmt.Flat) :
    flattenNested flatten stmt = some stmt := by
  cases stmt with
  | ifElse cond thenBody elseBody =>
    simp only [StructuredStmt.size] at stays
    simp [flattenNested,stays thenBody (by omega) isFlat.2.1,stays elseBody (by omega) isFlat.2.2]
  | while_ cond negate body | doWhile cond negate body =>
    simp only [StructuredStmt.size] at stays
    simp [flattenNested,stays body (by omega) isFlat]
  | switch expr cases_ default =>
    simp only [StructuredStmt.size] at stays
    have sameCases := @cases_stay flatten _ stays cases_ (by omega) isFlat.1
    simp only [flattenNested,sameCases,stays default (by omega) isFlat.2]
    rfl
  | _ => rfl

theorem flattenIfReturn_stays : ∀ {fuel : Nat} (stmts : List StructuredStmt), sizes stmts < fuel → AllFlat stmts →
    flattenIfReturn fuel stmts = some stmts := by
  intro fuel
  induction fuel with
  | zero => exact fun _ small => absurd small (Nat.not_lt_zero _)
  | succ fuel ih =>
    intro stmts small isFlat
    cases stmts with
    | nil => rfl
    | cons stmt rest =>
      simp only [sizes] at small
      have positive := size_positive stmt
      have isNested := @nested_stays (flattenIfReturn fuel) stmt
        (fun body smaller bodyFlat => ih body (by omega) bodyFlat) isFlat.1
      have isRest := ih rest (by omega) isFlat.2
      simp [flattenIfReturn,isNested,moveElse_same isFlat.1,isRest]

end Flat

-- The pass ends, keeps what the statements do, leaves nothing to be moved, and changes nothing when it runs again.
theorem flattenIfReturn_correct (stmts : List StructuredStmt) :
    ∃ bound, ∀ fuel ≥ bound, ∃ flat, flattenIfReturn fuel stmts = some flat ∧ AllFlat flat ∧
      (∀ (State Event Value : Type) (machine : Machine State Event Value) (rounds : Nat) (state : State),
        meanings machine flat rounds state = meanings machine stmts rounds state) ∧
      ∀ again ≥ bound, flattenIfReturn again flat = some flat := by
  refine ⟨sizes stmts + 1,fun fuel enough => ?_⟩
  obtain ⟨flat,isResult,sameSize,isFlat⟩ := flattenIfReturn_flattens stmts enough
  refine ⟨flat,isResult,isFlat,?_,fun again enoughAgain => flattenIfReturn_stays flat (by omega) isFlat⟩
  intro State Event Value machine rounds state
  rw [flattenIfReturn_meaning stmts flat isResult]

end Rsleigh.Decompile
