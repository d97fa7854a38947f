import Rsleigh.Semantic.Blocks

namespace Rsleigh.Semantic

variable {P C σ : Type}

-- The statement that follows begins another block.
def endsBlock : List (RawStatement P C) → Bool
  | [] | .label _ :: _ => true
  | _ => false

-- What is emitted for the rest of a body: labels leave nothing, and neither does
-- an unconditional goto at the end of its block.
def emitRest (names : List String) : List (RawStatement P C) → List (Op P C)
  | [] => []
  | .label _ :: rest => emitRest names rest
  | .branch none kind (.label name) :: rest =>
    if endsBlock rest then emitRest names rest
    else genStatement (convert names (.branch none kind (.label name))) :: emitRest names rest
  | statement :: rest => genStatement (convert names statement) :: emitRest names rest

def afterLabel (name : String) : List (RawStatement P C) → Option (List (RawStatement P C))
  | [] => none
  | .label other :: rest => if other = name then some rest else afterLabel name rest
  | _ :: rest => afterLabel name rest

section Emit

variable {names : List String} {done : List (Statement P C)}

def isGoto : Statement P C → Bool
  | .localGoto none _ => true
  | _ => false

theorem closeBlock_append (statement : Statement P C) :
    (closeBlock ⟨name,next,done ++ [statement]⟩).statements =
      if isGoto statement then done else done ++ [statement] := by
  cases statement with
  | localGoto cond dst => cases cond <;> simp [closeBlock,isGoto]
  | cpuBranch cond kind dst => cases cond <;> simp [closeBlock,isGoto]
  | _ => simp [closeBlock,isGoto]

theorem emitRest_cons {statement : RawStatement P C} (inside : ∀ name, statement ≠ .label name)
    (kept : (isGoto (convert names statement) && endsBlock rest) = false) :
    emitRest names (statement :: rest) = genStatement (convert names statement) :: emitRest names rest := by
  cases statement with
  | label name => exact absurd rfl (inside name)
  | branch cond kind dst =>
    cases dst with
    | cpu dst => cases cond <;> rfl
    | label name =>
      cases cond with
      | none =>
        have running : endsBlock rest = false := by simpa [isGoto,convert] using kept
        simp [emitRest,running]
      | some cond => rfl
  | _ => rfl

theorem emitRest_lost {statement : RawStatement P C} (inside : ∀ name, statement ≠ .label name)
    (lost : (isGoto (convert names statement) && endsBlock rest) = true) :
    emitRest names (statement :: rest) = emitRest names rest := by
  obtain ⟨goto,ends⟩ := Bool.and_eq_true_iff.mp lost
  cases statement with
  | label name => exact absurd rfl (inside name)
  | branch cond kind dst =>
    cases dst with
    | cpu dst => cases cond <;> cases goto
    | label name =>
      cases cond with
      | none => simp [emitRest,ends]
      | some cond => cases goto
  | _ => cases goto

-- The statements of the open block that survive its end.
def survivors (done : List (Statement P C)) (rest : List (RawStatement P C)) : List (Statement P C) :=
  if endsBlock rest then (closeBlock ⟨none,none,done⟩).statements else done

theorem closeBlock_name (name : Option String) (next : Option Nat) (done : List (Statement P C)) :
    (closeBlock ⟨name,next,done⟩).statements = (closeBlock ⟨none,none,done⟩).statements := by
  simp only [closeBlock]
  split <;> rfl

theorem survivors_append {statement : RawStatement P C} (inside : ∀ name, statement ≠ .label name) :
    (survivors (done ++ [convert names statement]) rest).map genStatement ++ emitRest names rest =
      done.map genStatement ++ emitRest names (statement :: rest) := by
  cases lost : isGoto (convert names statement) && endsBlock rest with
  | true =>
    obtain ⟨goto,ends⟩ := Bool.and_eq_true_iff.mp lost
    rw [survivors,if_pos ends,closeBlock_append,if_pos goto,emitRest_lost inside lost]
  | false =>
    rw [emitRest_cons inside lost]
    unfold survivors
    split
    · rename_i ends
      have other : isGoto (convert names statement) = false := by simpa [ends] using lost
      simp [closeBlock_append,other]
    · simp

theorem genBlocks_build (names : List String) (current : Nat) (name : Option String)
    (done : List (Statement P C)) (body : List (RawStatement P C)) :
    genBlocks ((buildBlocks names current name done body).map closeBlock) =
      (survivors done body).map genStatement ++ emitRest names body := by
  induction body generalizing current name done with
  | nil => simp [buildBlocks,genBlocks,genBlock,survivors,endsBlock,emitRest,closeBlock_name name]
  | cons statement rest ih =>
    by_cases label : ∃ next, statement = .label next
    · obtain ⟨next,rfl⟩ := label
      have fresh := ih (current + 1) (some next) []
      have empty : survivors ([] : List (Statement P C)) rest = [] := by simp [survivors,closeBlock]
      rw [empty,List.map_nil,List.nil_append] at fresh
      rw [buildBlocks,List.map_cons,genBlocks,List.flatMap_cons,← genBlocks,fresh]
      simp [genBlock,survivors,endsBlock,emitRest,closeBlock_name name]
    · have inside : ∀ next, statement ≠ .label next := fun next equal => label ⟨next,equal⟩
      have built : buildBlocks names current name done (statement :: rest) =
          buildBlocks names current name (done ++ [convert names statement]) rest := by
        cases statement <;> first | rfl | exact absurd rfl (inside _)
      have running : survivors done (statement :: rest) = done := by
        cases statement <;> first | rfl | exact absurd rfl (inside _)
      rw [built,ih,survivors_append inside,running]

theorem drop_build (found : afterLabel name body = some rest) (names : List String) (current : Nat)
    (start : Option String) (done : List (Statement P C)) :
    ∃ current', (buildBlocks names current start done body).drop ((labels body).idxOf name + 1) =
      buildBlocks names current' (some name) [] rest := by
  induction body generalizing current start done with
  | nil => cases found
  | cons statement tail ih =>
    by_cases label : ∃ other, statement = .label other
    · obtain ⟨other,rfl⟩ := label
      simp only [afterLabel] at found
      split at found
      · rename_i same
        obtain rfl := Option.some.inj found
        exact ⟨current + 1,by simp [labels,same,buildBlocks]⟩
      · rename_i differs
        obtain ⟨current',dropped⟩ := ih found (current + 1) (some other) []
        refine ⟨current',?_⟩
        rw [← dropped,labels,List.idxOf_cons_ne _ differs,buildBlocks,Nat.succ_eq_add_one,List.drop_succ_cons]
    · have inside : ∀ next, statement ≠ .label next := fun next equal => label ⟨next,equal⟩
      have same : labels (statement :: tail) = labels tail := by
        cases statement <;> first | rfl | exact absurd rfl (inside _)
      have skipped : afterLabel name (statement :: tail) = afterLabel name tail := by
        cases statement <;> first | rfl | exact absurd rfl (inside _)
      have built : buildBlocks names current start done (statement :: tail) =
          buildBlocks names current start (done ++ [convert names statement]) tail := by
        cases statement <;> first | rfl | exact absurd rfl (inside _)
      rw [same,built]
      exact ih (skipped ▸ found) current start _

theorem afterLabel_of_member (member : name ∈ labels body) :
    ∃ rest, afterLabel (P := P) (C := C) name body = some rest := by
  induction body with
  | nil => cases member
  | cons statement tail ih =>
    cases statement with
    | label other =>
      by_cases same : other = name
      · exact ⟨tail,by simp [afterLabel,same]⟩
      · obtain ⟨rest,found⟩ := ih ((List.mem_cons.mp member).resolve_left fun equal => same equal.symm)
        exact ⟨rest,by simp [afterLabel,same,found]⟩
    | _ => exact ih member

-- What `extend` makes of a body it accepts.
structure Laid (body : List (RawStatement P C)) (blocks : List (Block P C)) : Prop where
  distinct : (labels body).Nodup
  resolved : Resolved (labels body) body
  entry : genBlocks blocks = emitRest (labels body) body
  target : ∀ name rest, afterLabel name body = some rest →
    genBlocks (blocks.drop (blockId (labels body) name)) = emitRest (labels body) rest

-- Exactly the bodies with distinct labels and resolved local gotos are accepted;
-- `set_current_block` never finds a successor already set.
theorem extend_iff : extend newEmpty body = .ok exec ↔ (labels body).Nodup ∧ Resolved (labels body) body ∧
    exec = (⟨(buildBlocks (labels body) 0 none [] body).map closeBlock,(labels body).length⟩ : Execution P C) := by
  have start : (⟨[⟨none,none,[]⟩] ++ (labels body).map (fun name => ⟨some name,none,[]⟩),0⟩ :
      Execution P C) = ⟨[] ++ ⟨none,none,[]⟩ :: (labels body).map (fun name => ⟨some name,none,[]⟩),
        ([] : List (Block P C)).length⟩ := rfl
  unfold extend newEmpty
  rw [bind_ok_iff]
  simp only [createBlocks_iff,bind_ok_iff]
  constructor
  · rintro ⟨_,⟨distinct,-,rfl⟩,filled,filling,ok⟩
    rw [start,fill_iff distinct rfl] at filling
    obtain ⟨resolved,rfl⟩ := filling
    exact ⟨distinct,resolved,by simpa using (Except.ok.inj ok).symm⟩
  · rintro ⟨distinct,resolved,rfl⟩
    refine ⟨_,⟨distinct,by simp,rfl⟩,?_⟩
    rw [start]
    exact ⟨_,(fill_iff distinct rfl).mpr ⟨resolved,rfl⟩,by simp [pure,Except.pure]⟩

theorem extend_laid (ok : extend newEmpty body = .ok exec) : Laid (P := P) (C := C) body exec.blocks := by
  obtain ⟨distinct,resolved,rfl⟩ := extend_iff.mp ok
  have empty (rest : List (RawStatement P C)) : survivors ([] : List (Statement P C)) rest = [] := by
    simp [survivors,closeBlock]
  refine ⟨distinct,resolved,?_,fun name rest found => ?_⟩
  · rw [genBlocks_build,empty,List.map_nil,List.nil_append]
  · obtain ⟨current',dropped⟩ := drop_build found (labels body) 0 none []
    rw [blockId,← List.map_drop,dropped,genBlocks_build,empty,List.map_nil,List.nil_append]

end Emit

-- A reading of statements and conditions on some machine.
structure Meaning (P C σ : Type) where
  run : P → σ → σ
  holds : C → σ → Bool

def Meaning.taken (m : Meaning P C σ) (cond : Option C) (s : σ) : Bool := cond.all (m.holds · s)

-- The body as written. A transfer out of the instruction leaves nothing to run.
def sourceStep (m : Meaning P C σ) (body : List (RawStatement P C)) :
    List (RawStatement P C) × σ → Option (List P × (List (RawStatement P C) × σ))
  | ([],_) => none
  | (.label _ :: rest,s) => some ([],rest,s)
  | (.plain p :: rest,s) | (.exported p :: rest,s) => some ([p],rest,m.run p s)
  | (.branch cond _ (.label name) :: rest,s) =>
    if m.taken cond s then (afterLabel name body).map fun target => ([],target,s) else some ([],rest,s)
  | (.branch cond _ (.cpu dst) :: rest,s) =>
    if m.taken cond s then some ([dst],[],m.run dst s) else some ([],rest,s)

-- The emitted ops, a local destination being the first op of its block.
def opStep (m : Meaning P C σ) (blocks : List (Block P C)) :
    List (Op P C) × σ → Option (List P × (List (Op P C) × σ))
  | ([],_) => none
  | (.run p :: rest,s) => some ([p],rest,m.run p s)
  | (.branch block :: _,s) => some ([],genBlocks (blocks.drop block),s)
  | (.cbranch block cond :: rest,s) =>
    if m.holds cond s then some ([],genBlocks (blocks.drop block),s) else some ([],rest,s)
  | (.leave dst :: _,s) => some ([dst],[],m.run dst s)
  | (.cleave dst cond :: rest,s) =>
    if m.holds cond s then some ([dst],[],m.run dst s) else some ([],rest,s)

-- Falling through the emitted ops reaches the label before any op.
def fallsTo (name : String) : List (RawStatement P C) → Bool
  | .label other :: rest => other = name || fallsTo name rest
  | .branch none _ (.label _) :: rest => endsBlock rest && fallsTo name rest
  | _ => false

-- Where the emitted list does something else: an unconditional goto at the end of
-- its block whose target does not come next, or a conditional call or return
-- whose condition fails.
def Astray (m : Meaning P C σ) : List (RawStatement P C) × σ → Prop
  | (.branch none _ (.label name) :: rest,_) => endsBlock rest = true ∧ fallsTo name rest = false
  | (.branch (some cond) kind (.cpu _) :: _,s) => kind ≠ .goto ∧ m.holds cond s = false
  | _ => False

-- No run from here comes to such a place.
def OnCourse (m : Meaning P C σ) (body : List (RawStatement P C)) (c : List (RawStatement P C) × σ) : Prop :=
  ∀ es c', Trace.Runs (sourceStep m body) c es c' → ¬ Astray m c'

-- The source stands before the statements the emitted ops are for.
structure Aligned (m : Meaning P C σ) (body : List (RawStatement P C)) (c : List (RawStatement P C) × σ)
    (d : List (Op P C) × σ) : Prop where
  suffix : c.1 <:+ body
  ops : d.1 = emitRest (labels body) c.1
  state : d.2 = c.2
  course : OnCourse m body c

theorem OnCourse.next {m : Meaning P C σ} (course : OnCourse m body c) (step : sourceStep m body c = some (es,c')) :
    OnCourse m body c' := fun _ _ runs => course _ _ (.cons step runs)

theorem afterLabel_suffix (found : afterLabel name body = some rest) : rest <:+ (body : List (RawStatement P C)) := by
  induction body with
  | nil => cases found
  | cons statement tail ih =>
    cases statement with
    | label other =>
      simp only [afterLabel] at found
      split at found
      · obtain rfl := Option.some.inj found
        exact List.suffix_cons _ _
      · exact (ih found).trans (List.suffix_cons _ _)
    | _ => exact (ih found).trans (List.suffix_cons _ _)

theorem labels_append (before rest : List (RawStatement P C)) : labels (before ++ rest) = labels before ++ labels rest := by
  induction before with
  | nil => rfl
  | cons statement tail ih => cases statement <;> simp [labels,ih]

theorem member_of_afterLabel (found : afterLabel name body = some rest) :
    name ∈ labels (body : List (RawStatement P C)) := by
  induction body with
  | nil => cases found
  | cons statement tail ih =>
    cases statement with
    | label other =>
      simp only [afterLabel] at found
      split at found
      · rename_i same
        simp [labels,same]
      · exact List.mem_cons_of_mem _ (ih found)
    | _ => exact ih found

theorem afterLabel_append (before rest : List (RawStatement P C)) (unused : name ∉ labels before) :
    afterLabel name (before ++ rest) = afterLabel name rest := by
  induction before with
  | nil => rfl
  | cons statement tail ih =>
    cases statement with
    | label other =>
      obtain ⟨differs,unused⟩ := not_or.mp (mt List.mem_cons.mpr unused)
      rw [List.cons_append,afterLabel,if_neg fun equal => differs equal.symm,ih unused]
    | _ => exact ih unused

theorem afterLabel_of_suffix {body rest : List (RawStatement P C)} (distinct : (labels body).Nodup)
    (suffix : rest <:+ body) (found : afterLabel name rest = some target) : afterLabel name body = some target := by
  obtain ⟨before,rfl⟩ := suffix
  rw [labels_append] at distinct
  have unused : name ∉ labels before := fun member =>
    (List.nodup_append.mp distinct).2.2 name member name (member_of_afterLabel found) rfl
  rw [afterLabel_append before rest unused,found]

theorem fallsTo_emits {rest : List (RawStatement P C)} (names : List String) (falls : fallsTo name rest = true) :
    ∃ target, afterLabel name rest = some target ∧ emitRest names rest = emitRest names target ∧
      target.length < rest.length := by
  induction rest with
  | nil => cases falls
  | cons statement tail ih =>
    cases statement with
    | label other =>
      by_cases same : other = name
      · exact ⟨tail,by simp [afterLabel,same],rfl,Nat.lt_succ_self _⟩
      · have falls : fallsTo name tail = true := by simpa [fallsTo,same] using falls
        obtain ⟨target,found,emits,shorter⟩ := ih falls
        exact ⟨target,by simp [afterLabel,same,found],emits,Nat.lt_succ_of_lt shorter⟩
    | branch cond kind dst =>
      cases cond with
      | some cond => cases falls
      | none =>
        cases dst with
        | cpu dst => cases falls
        | label other =>
          obtain ⟨ends,falls⟩ := Bool.and_eq_true_iff.mp falls
          obtain ⟨target,found,emits,shorter⟩ := ih falls
          refine ⟨target,found,?_,Nat.lt_succ_of_lt shorter⟩
          rw [emitRest,if_pos ends,emits]
    | _ => cases falls

-- Transfers out of the instruction.
theorem cpuBranch_matched (m : Meaning P C σ) {cond : Option C} {kind : BranchCall} {dst : P}
    {rest : List (RawStatement P C)} (aligned : Aligned m body (.branch cond kind (.cpu dst) :: rest,s) d)
    (step : sourceStep m body (.branch cond kind (.cpu dst) :: rest,s) = some (es,c')) (blocks : List (Block P C)) :
    ∃ d', opStep m blocks d = some (es,d') ∧ Aligned m body c' d' := by
  obtain ⟨ks,s'⟩ := d
  have course' := aligned.course.next step
  have straight := aligned.course [] _ .refl
  have tail : rest <:+ body := (List.suffix_cons _ _).trans aligned.suffix
  obtain rfl : s' = s := aligned.state
  obtain rfl : ks = genBranch cond kind dst :: emitRest (labels body) rest := by
    have ops := aligned.ops
    cases cond <;> exact ops
  simp only [sourceStep] at step
  split at step
  · rename_i taken
    obtain ⟨rfl,rfl⟩ := Prod.mk.inj (Option.some.inj step)
    refine ⟨([],m.run dst s'),?_,⟨List.nil_suffix,rfl,rfl,course'⟩⟩
    cases cond with
    | none => rfl
    | some cond =>
      have holds : m.holds cond s' = true := taken
      cases kind <;> simp [genBranch,opStep,holds]
  · rename_i untaken
    obtain ⟨rfl,rfl⟩ := Prod.mk.inj (Option.some.inj step)
    refine ⟨(emitRest (labels body) rest,s'),?_,⟨tail,rfl,rfl,course'⟩⟩
    cases cond with
    | none => exact absurd rfl untaken
    | some cond =>
      have fails : m.holds cond s' = false := Bool.eq_false_iff.mpr untaken
      have goto : kind = .goto := by
        by_contra other
        exact straight ⟨other,fails⟩
      simp [goto,genBranch,opStep,fails]

-- Local gotos, kept or lost.
theorem localGoto_matched (m : Meaning P C σ) (laid : Laid body blocks) {cond : Option C} {kind : BranchCall}
    {rest : List (RawStatement P C)} (aligned : Aligned m body (.branch cond kind (.label name) :: rest,s) d)
    (step : sourceStep m body (.branch cond kind (.label name) :: rest,s) = some (es,c')) :
    (es = [] ∧ Aligned m body c' d ∧ c'.1.length < rest.length + 1) ∨
      ∃ d', opStep m blocks d = some (es,d') ∧ Aligned m body c' d' := by
  obtain ⟨ks,s'⟩ := d
  have course' := aligned.course.next step
  have straight := aligned.course [] _ .refl
  have tail : rest <:+ body := (List.suffix_cons _ _).trans aligned.suffix
  obtain rfl : s' = s := aligned.state
  obtain rfl : ks = emitRest (labels body) (.branch cond kind (.label name) :: rest) := aligned.ops
  cases cond with
  | none =>
    simp only [sourceStep,Meaning.taken,Option.all_none,if_true,Option.map_eq_some_iff] at step
    obtain ⟨target,found,equal⟩ := step
    obtain ⟨rfl,rfl⟩ := Prod.mk.inj equal
    cases ends : endsBlock rest with
    | true =>
      have falls : fallsTo name rest = true := by
        by_contra other
        exact straight ⟨ends,Bool.eq_false_iff.mpr other⟩
      obtain ⟨target',found',emits,shorter⟩ := fallsTo_emits (labels body) falls
      obtain rfl : target = target' :=
        Option.some.inj (found.symm.trans (afterLabel_of_suffix laid.distinct tail found'))
      refine .inl ⟨rfl,⟨afterLabel_suffix found,?_,rfl,course'⟩,Nat.lt_succ_of_lt shorter⟩
      rw [emitRest,if_pos ends,emits]
    | false =>
      refine .inr ⟨(emitRest (labels body) target,s'),?_,⟨afterLabel_suffix found,rfl,rfl,course'⟩⟩
      simp [emitRest,ends,convert,genStatement,opStep,laid.target name target found]
  | some cond =>
    simp only [sourceStep,Meaning.taken,Option.all_some] at step
    cases holds : m.holds cond s' with
    | true =>
      simp only [holds,if_true,Option.map_eq_some_iff] at step
      obtain ⟨target,found,equal⟩ := step
      obtain ⟨rfl,rfl⟩ := Prod.mk.inj equal
      refine .inr ⟨(emitRest (labels body) target,s'),?_,⟨afterLabel_suffix found,rfl,rfl,course'⟩⟩
      simp [emitRest,convert,genStatement,opStep,holds,laid.target name target found]
    | false =>
      simp only [holds,Bool.false_eq_true,if_false] at step
      obtain ⟨rfl,rfl⟩ := Prod.mk.inj (Option.some.inj step)
      refine .inr ⟨(emitRest (labels body) rest,s'),?_,⟨tail,rfl,rfl,course'⟩⟩
      simp [emitRest,convert,genStatement,opStep,holds]

-- One statement of the source against the emitted ops.
theorem sourceStep_matched (m : Meaning P C σ) (laid : Laid body blocks) (aligned : Aligned m body c d)
    (step : sourceStep m body c = some (es,c')) :
    (es = [] ∧ Aligned m body c' d ∧ c'.1.length < c.1.length) ∨
      ∃ d', opStep m blocks d = some (es,d') ∧ Aligned m body c' d' := by
  obtain ⟨xs,s⟩ := c
  cases xs with
  | nil => cases step
  | cons statement rest =>
    cases statement with
    | branch cond kind dst =>
      cases dst with
      | cpu dst => exact .inr (cpuBranch_matched m aligned step blocks)
      | label name => exact localGoto_matched m laid aligned step
    | label name =>
      obtain ⟨suffix,ops,state,course⟩ := aligned
      have course' := course.next step
      obtain ⟨rfl,rfl⟩ := Prod.mk.inj (Option.some.inj step)
      exact .inl ⟨rfl,⟨(List.suffix_cons _ _).trans suffix,ops,state,course'⟩,Nat.lt_succ_self _⟩
    | plain p =>
      obtain ⟨suffix,ops,state,course⟩ := aligned
      have course' := course.next step
      obtain ⟨rfl,rfl⟩ := Prod.mk.inj (Option.some.inj step)
      obtain ⟨ks,s'⟩ := d
      obtain rfl : s' = s := state
      obtain rfl : ks = _ := ops
      exact .inr ⟨_,rfl,⟨(List.suffix_cons _ _).trans suffix,rfl,rfl,course'⟩⟩
    | exported p =>
      obtain ⟨suffix,ops,state,course⟩ := aligned
      have course' := course.next step
      obtain ⟨rfl,rfl⟩ := Prod.mk.inj (Option.some.inj step)
      obtain ⟨ks,s'⟩ := d
      obtain rfl : s' = s := state
      obtain rfl : ks = _ := ops
      exact .inr ⟨_,rfl,⟨(List.suffix_cons _ _).trans suffix,rfl,rfl,course'⟩⟩

theorem sourceStep_stops (m : Meaning P C σ) (laid : Laid body blocks) {c : List (RawStatement P C) × σ}
    (suffix : c.1 <:+ body) (stopped : sourceStep m body c = none) : c.1 = [] := by
  obtain ⟨xs,s⟩ := c
  cases xs with
  | nil => rfl
  | cons statement rest =>
    cases statement with
    | branch cond kind dst =>
      cases dst with
      | cpu dst =>
        simp only [sourceStep] at stopped
        split at stopped <;> cases stopped
      | label name =>
        have member := laid.resolved cond kind name (suffix.subset List.mem_cons_self)
        obtain ⟨target,found⟩ := afterLabel_of_member member.2
        simp only [sourceStep,found] at stopped
        split at stopped <;> cases stopped
    | _ => cases stopped

theorem source_stutters (m : Meaning P C σ) (laid : Laid body blocks) :
    Trace.Stutters (sourceStep m body) (opStep m blocks) (Aligned m body) fun c => c.1.length where
  matched _ _ _ _ aligned step := sourceStep_matched m laid aligned step
  stops c d aligned stopped := by
    have done := sourceStep_stops m laid aligned.suffix stopped
    obtain ⟨ks,s⟩ := d
    obtain rfl : ks = [] := by
      have ops := aligned.ops
      rw [done] at ops
      exact ops
    rfl

-- Same statements in the same order with the same states, and the same rests.
structure SameBehaviour (step : α → Option (List P × α)) (step' : β → Option (List P × β)) (state : α → σ)
    (state' : β → σ) (c : α) (d : β) : Prop where
  forward : Trace.Runs step c es c' → ∃ d', Trace.Runs step' d es d' ∧ state' d' = state c' ∧
    (step c' = none → step' d' = none)
  backward : Trace.Runs step' d es d' → ∃ c', Trace.Runs step c es c' ∧ state' d' = state c' ∧
    (step' d' = none → step c' = none)

-- A body that has no such place at all.
def tidy : List (RawStatement P C) → Bool
  | [] => true
  | .branch none _ (.label name) :: rest => (!endsBlock rest || fallsTo name rest) && tidy rest
  | .branch (some _) kind (.cpu _) :: rest => kind == .goto && tidy rest
  | _ :: rest => tidy rest

theorem tidy_suffix {rest body : List (RawStatement P C)} (neat : tidy body = true) (suffix : rest <:+ body) :
    tidy rest = true := by
  obtain ⟨before,rfl⟩ := suffix
  induction before with
  | nil => exact neat
  | cons statement tail ih =>
    refine ih ?_
    rw [List.cons_append] at neat
    unfold tidy at neat
    split at neat <;> simp_all

theorem tidy_straight (m : Meaning P C σ) {xs : List (RawStatement P C)} (neat : tidy xs = true) (s : σ) :
    ¬ Astray m (xs,s) := by
  intro astray
  unfold tidy at neat
  split at neat
  · exact astray
  · obtain ⟨ends,misses⟩ := astray
    simp [ends,misses] at neat
  · obtain ⟨other,-⟩ := astray
    simp [other] at neat
  · rename_i statement rest _ _
    unfold Astray at astray
    split at astray <;> simp_all

theorem sourceStep_suffix (m : Meaning P C σ) {c : List (RawStatement P C) × σ} (suffix : c.1 <:+ body)
    (step : sourceStep m body c = some (es,c')) : c'.1 <:+ body := by
  obtain ⟨xs,s⟩ := c
  cases xs with
  | nil => cases step
  | cons statement rest =>
    have tail : rest <:+ body := (List.suffix_cons _ _).trans suffix
    cases statement with
    | branch cond kind dst =>
      cases dst with
      | cpu dst =>
        simp only [sourceStep] at step
        split at step
        · obtain ⟨rfl,rfl⟩ := Prod.mk.inj (Option.some.inj step)
          exact List.nil_suffix
        · obtain ⟨rfl,rfl⟩ := Prod.mk.inj (Option.some.inj step)
          exact tail
      | label name =>
        simp only [sourceStep] at step
        split at step
        · obtain ⟨target,found,equal⟩ := Option.map_eq_some_iff.mp step
          obtain ⟨rfl,rfl⟩ := Prod.mk.inj equal
          exact afterLabel_suffix found
        · obtain ⟨rfl,rfl⟩ := Prod.mk.inj (Option.some.inj step)
          exact tail
    | _ =>
      obtain ⟨rfl,rfl⟩ := Prod.mk.inj (Option.some.inj step)
      exact tail

theorem tidy_onCourse (m : Meaning P C σ) (neat : tidy body = true) (s : σ) : OnCourse m body (body,s) := by
  intro es c' runs
  have keeps : ∀ c es c', (fun c : List (RawStatement P C) × σ => c.1 <:+ body) c →
      sourceStep m body c = some (es,c') → c'.1 <:+ body := fun _ _ _ => sourceStep_suffix m
  have suffix := runs.invariant keeps List.suffix_rfl
  exact tidy_straight m (tidy_suffix neat suffix) _

-- Statements by number, conditions fixed.
def numbered : Meaning Nat Bool Unit := ⟨fun _ _ => (),fun cond _ => cond⟩

-- A statement that is skipped when a condition holds.
def skipOne : List (RawStatement Nat Bool) :=
  [.branch (some true) .goto (.label "end"),.plain 1,.label "end",.plain 2]

-- The usual form of an alternative. The goto over the second branch is dropped.
def ifElse : List (RawStatement Nat Bool) :=
  [.branch (some false) .goto (.label "else"),.plain 1,.branch none .goto (.label "end"),.label "else",.plain 2,
    .label "end",.plain 3]

def ifElseBlocks : Execution Nat Bool :=
  ⟨[⟨none,some 2,[.localGoto (some false) 1,.plain 1]⟩,⟨some "else",some 2,[.plain 2]⟩,⟨some "end",none,[.plain 3]⟩],2⟩

end Rsleigh.Semantic
