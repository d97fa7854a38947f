import Rsleigh.Decode.Actions

namespace Rsleigh.Decode

open Fallible

variable {χ τ : Type} {sleigh : Sleigh χ} {parseTable : Nat → List UInt8 → χ → Except Failure (Nat × τ × χ)}
variable {instStart instNext : Nat} {kept : Nat → Prop}

-- The context fields that matter have the same values in both contexts.
def Keeps (sleigh : Sleigh χ) (kept : Nat → Prop) (context after : χ) : Prop :=
  ∀ id, kept id → sleigh.readContext id after = sleigh.readContext id context

theorem keeps_refl (context : χ) : Keeps sleigh kept context context :=
  fun _ _ => rfl

theorem keeps_trans {first second third : χ} (keeps : Keeps sleigh kept first second)
    (after : Keeps sleigh kept second third) : Keeps sleigh kept first third :=
  fun id isKept => (after id isKept).trans (keeps id isKept)

-- Raw values that fit their fields.
def Typed (sleigh : Sleigh χ) (fields : Nat → Option Nat) : Prop :=
  ∀ id raw, fields id = some raw → raw < 2 ^ (sleigh.tokenField id).len

theorem typed_or {fields old : Nat → Option Nat} (typed : Typed sleigh fields) (oldTyped : Typed sleigh old) :
    Typed sleigh fun id => (fields id).or (old id) := by
  intro id raw isSome
  cases produced : fields id with
  | none =>
    simp only [produced,Option.none_or] at isSome
    exact oldTyped id raw isSome
  | some value =>
    simp only [produced,Option.some_or] at isSome
    cases isSome
    exact typed id _ produced

namespace Closure

def Produces (closure : Closure χ) (id : Nat) : Prop :=
  ∃ tokens context len after fields, closure tokens context = .ok (len, after, fields) ∧ fields id ≠ none

-- The field is the one at the first token of the closure.
def ReadsAtStart (sleigh : Sleigh χ) (closure : Closure χ) (id : Nat) : Prop :=
  ∀ tokens context len after fields, closure tokens context = .ok (len, after, fields) →
    ∃ raw, (sleigh.tokenField id).read tokens = .ok raw ∧ fields id = some raw

def Steady (sleigh : Sleigh χ) (kept : Nat → Prop) (closure : Closure χ) : Prop :=
  ∀ tokens context len after fields, closure tokens context = .ok (len, after, fields) →
    Keeps sleigh kept context after ∧ Typed sleigh fields

end Closure

def Verification.Produces (id : Nat) : Verification χ → Prop
  | .subPattern closure => closure.Produces id
  | .contextCheck _ _ _ | .tokenFieldCheck _ _ _ | .tableBuild _ => False

-- The tables and sub-patterns of a block leave the context fields that matter alone.
def Verification.Steady (sleigh : Sleigh χ) (parseTable : Nat → List UInt8 → χ → Except Failure (Nat × τ × χ))
    (kept : Nat → Prop) : Verification χ → Prop
  | .subPattern closure => closure.Steady sleigh kept
  | .tableBuild table => ∀ tokens context len parsed after,
      parseTable table tokens context = .ok (len, parsed, after) → Keeps sleigh kept context after
  | .contextCheck _ _ _ | .tokenFieldCheck _ _ _ => True

namespace Block

def Produces (id : Nat) : Block χ → Prop
  | .and block => id ∈ block.tokenFields ∨ ∃ verification ∈ block.verifications, verification.Produces id
  | .or block => block.branches.Produces id

-- A field that the block produces from the tokens it starts at.
def Owns (sleigh : Sleigh χ) (id : Nat) (block : Block χ) : Prop :=
  block.Produces id ∧
    match block with
    | .and block => id ∈ block.tokenFields ∨ ∃ before closure after,
        block.verifications = before ++ .subPattern closure :: after ∧ closure.ReadsAtStart sleigh id ∧
          ∀ verification ∈ after, ¬ verification.Produces id
    | .or block => block.branches.ReadsAtStart sleigh id

def Steady (sleigh : Sleigh χ) (parseTable : Nat → List UInt8 → χ → Except Failure (Nat × τ × χ))
    (kept : Nat → Prop) : Block χ → Prop
  | .and block => ∀ verification ∈ block.verifications, verification.Steady sleigh parseTable kept
  | .or block => block.branches.Steady sleigh kept

end Block

-- An evaluation that stands where the parser does.
def Follows (sleigh : Sleigh χ) (kept : Nat → Prop) (matching : Matching χ τ) (evaluation : Evaluation χ) : Prop :=
  matching.locals = evaluation.locals ∧ matching.written = evaluation.written ∧
    Keeps sleigh kept evaluation.context matching.context

-- The actions of a list: the context fields they read matter, and no write changes one that does.
structure Quiet (sleigh : Sleigh χ) (kept : Nat → Prop) (actions : List Assertation) : Prop where
  reads : ∀ left right, .assignment left right ∈ actions → ∀ id, .context id ∈ right.reads → kept id
  writes : ∀ id right, .assignment (.context id) right ∈ actions →
    ∀ value context, Keeps sleigh kept context (sleigh.writeContext id value context)

theorem quiet_tail {action : Assertation} {rest : List Assertation} (quiet : Quiet sleigh kept (action :: rest)) :
    Quiet sleigh kept rest where
  reads := fun left right member => quiet.reads left right (List.mem_cons_of_mem _ member)
  writes := fun id right member => quiet.writes id right (List.mem_cons_of_mem _ member)

theorem evaluate_append {fields : Nat → Option Nat} (first second : List Assertation) :
    ∀ evaluation : Evaluation χ, evaluate sleigh fields instStart instNext (first ++ second) evaluation =
      evaluate sleigh fields instStart instNext first evaluation >>=
        evaluate sleigh fields instStart instNext second := by
  induction first with
  | nil =>
    intro evaluation
    rfl
  | cons action rest ih =>
    intro evaluation
    cases action with
    | globalSet address context => exact ih evaluation
    | assignment left right =>
      simp only [List.cons_append,evaluate]
      cases right.eval (evaluation.read sleigh fields instStart instNext) with
      | error failure => rfl
      | ok value => exact ih _

theorem follows_write {matching : Matching χ τ} {evaluation : Evaluation χ}
    (follows : Follows sleigh kept matching evaluation) (left : WriteScope) (value : Word)
    (keeps : ∀ id, left = .context id → ∀ context, Keeps sleigh kept context (sleigh.writeContext id value context)) :
    Follows sleigh kept (matching.write sleigh left value) (evaluation.write sleigh left value) := by
  obtain ⟨sameLocals,sameWritten,sameContext⟩ := follows
  cases left with
  | var id =>
    refine ⟨?_,sameWritten,sameContext⟩
    exact congrArg (Function.update · id value) sameLocals
  | context id =>
    refine ⟨sameLocals,congrArg (· ++ [(id,value)]) sameWritten,?_⟩
    intro other isKept
    change sleigh.readContext other (sleigh.writeContext id value matching.context) =
      sleigh.readContext other (sleigh.writeContext id value evaluation.context)
    rw [keeps id rfl matching.context other isKept,keeps id rfl evaluation.context other isKept]
    exact sameContext other isKept

-- One block position of the parser: the actions read the fields at its tokens.
theorem disassembly_evaluate {fields : Nat → Option Nat} {actions : List Assertation}
    (quiet : Quiet sleigh kept actions)
    (unfinished : ∀ left right, .assignment left right ∈ actions → right.usesInstNext = false) :
    ∀ (matching matching' : Matching χ τ) (evaluation : Evaluation χ),
      (∀ left right, .assignment left right ∈ actions → ∀ id, .tokenField id ∈ right.reads →
        ∃ raw, (sleigh.tokenField id).read matching.tokens = .ok raw ∧ fields id = some raw) →
      disassembly sleigh instStart actions matching = .ok matching' → Follows sleigh kept matching evaluation →
      ∃ evaluation', evaluate sleigh fields instStart instNext actions evaluation = .ok evaluation' ∧
        Follows sleigh kept matching' evaluation' := by
  induction actions with
  | nil =>
    intro matching matching' evaluation _ run follows
    cases run
    exact ⟨evaluation,rfl,follows⟩
  | cons action rest ih =>
    intro matching matching' evaluation owned run follows
    have later := ih (quiet_tail quiet)
      fun left right member => unfinished left right (List.mem_cons_of_mem _ member)
    cases action with
    | globalSet address context =>
      exact later _ _ _ (fun left right member => owned left right (List.mem_cons_of_mem _ member)) run follows
    | assignment left right =>
      have here : Assertation.assignment left right ∈ Assertation.assignment left right :: rest :=
        List.mem_cons_self ..
      have early := unfinished left right here
      simp only [disassembly,early] at run
      obtain ⟨value,evaluated,run⟩ := bind_ok.mp run
      have same : right.eval (evaluation.read sleigh fields instStart instNext) =
          right.eval (patternRead sleigh instStart matching) := by
        apply Expr.eval_congr
        intro scope member
        cases scope with
        | integer number => rfl
        | context id => exact congrArg Except.ok (follows.2.2 id (quiet.reads left right here id member)).symm
        | tokenField id =>
          obtain ⟨raw,read,produced⟩ := owned left right here id member
          have fits := TokenField.read_fits _ read
          unfold Evaluation.read patternRead
          simp only [produced,read]
          exact congrArg Except.ok (TokenField.patternValue_eq _ fits).symm
        | instStart => rfl
        | instNext =>
          have uses := (Expr.usesInstNext_reads right).mpr member
          rw [early] at uses
          cases uses
        | var id => exact congrArg Except.ok (congrFun follows.1 id).symm
      have sameTokens := (@write_frame _ _ sleigh matching left value).tokens
      have written := follows_write follows left value fun id isContext =>
        quiet.writes id right (isContext ▸ here) value
      obtain ⟨evaluation',evaluatedRest,follows'⟩ := later _ _ _
        (fun left right member => by
          rw [sameTokens]
          exact owned left right (List.mem_cons_of_mem _ member)) run written
      refine ⟨evaluation',?_,follows'⟩
      simp only [evaluate]
      rw [same,evaluated]
      exact evaluatedRest

-- What the tables and sub-patterns of a block leave as it was.
theorem build_frame {verifications : List (Verification χ)}
    (steady : ∀ verification ∈ verifications, verification.Steady sleigh parseTable kept) :
    ∀ (blockLen len : Nat) (tables parsed : List τ) (matching matching' : Matching χ τ),
      build parseTable blockLen tables matching verifications = .ok (len, parsed, matching') →
      matching'.tokens = matching.tokens ∧ matching'.locals = matching.locals ∧
        matching'.written = matching.written ∧ Keeps sleigh kept matching.context matching'.context ∧
        (Typed sleigh matching.fields → Typed sleigh matching'.fields) ∧
        ∀ id, (∀ verification ∈ verifications, ¬ verification.Produces id) → matching'.fields id = matching.fields id := by
  induction verifications with
  | nil =>
    intro blockLen len tables parsed matching matching' run
    cases run
    exact ⟨rfl,rfl,rfl,keeps_refl _,id,fun _ _ => rfl⟩
  | cons verification rest ih =>
    intro blockLen len tables parsed matching matching' run
    have later := ih fun other member => steady other (List.mem_cons_of_mem _ member)
    have here := steady verification (List.mem_cons_self ..)
    cases verification with
    | contextCheck id op value =>
      obtain ⟨tokens',locals',written',keeps,typed,fields'⟩ := later _ _ _ _ _ _ run
      exact ⟨tokens',locals',written',keeps,typed,
        fun id none => fields' id fun other member => none other (List.mem_cons_of_mem _ member)⟩
    | tokenFieldCheck id op value =>
      obtain ⟨tokens',locals',written',keeps,typed,fields'⟩ := later _ _ _ _ _ _ run
      exact ⟨tokens',locals',written',keeps,typed,
        fun id none => fields' id fun other member => none other (List.mem_cons_of_mem _ member)⟩
    | tableBuild table =>
      obtain ⟨⟨tableLen,parsedTable,context⟩,found,run⟩ := bind_ok.mp run
      obtain ⟨tokens',locals',written',keeps,typed,fields'⟩ := later _ _ _ _ _ _ run
      exact ⟨tokens',locals',written',keeps_trans (here _ _ _ _ _ found) keeps,typed,
        fun id none => fields' id fun other member => none other (List.mem_cons_of_mem _ member)⟩
    | subPattern closure =>
      obtain ⟨⟨subLen,context,fields⟩,found,run⟩ := bind_ok.mp run
      obtain ⟨tokens',locals',written',keeps,typed,fields'⟩ := later _ _ _ _ _ _ run
      obtain ⟨subKeeps,subTyped⟩ := here _ _ _ _ _ found
      refine ⟨tokens',locals',written',keeps_trans subKeeps keeps,?_,?_⟩
      · intro before
        apply typed
        exact typed_or subTyped before
      · intro id none
        rw [fields' id fun other member => none other (List.mem_cons_of_mem _ member)]
        have notHere := none _ (List.mem_cons_self ..)
        have missing : fields id = Option.none := by
          by_contra produced
          exact notHere ⟨_,_,_,_,fields,found,produced⟩
        change (fields id).or (matching.fields id) = matching.fields id
        rw [missing]
        rfl

-- A sub-pattern that reads the field at its start leaves it behind when no later one produces it.
theorem build_owns {id : Nat} {closure : Closure χ} {after : List (Verification χ)}
    (atStart : closure.ReadsAtStart sleigh id) (last : ∀ verification ∈ after, ¬ verification.Produces id) :
    ∀ (before : List (Verification χ)),
      (∀ verification ∈ before ++ .subPattern closure :: after, verification.Steady sleigh parseTable kept) →
      ∀ (blockLen len : Nat) (tables parsed : List τ) (matching matching' : Matching χ τ),
        build parseTable blockLen tables matching (before ++ .subPattern closure :: after) =
          .ok (len, parsed, matching') →
        ∃ raw, (sleigh.tokenField id).read matching.tokens = .ok raw ∧ matching'.fields id = some raw := by
  intro before
  induction before with
  | nil =>
    intro steady blockLen len tables parsed matching matching' run
    obtain ⟨⟨subLen,context,fields⟩,found,run⟩ := bind_ok.mp run
    obtain ⟨raw,read,produced⟩ := atStart _ _ _ _ _ found
    obtain ⟨_,_,_,_,_,fields'⟩ :=
      build_frame (fun other member => steady other (List.mem_cons_of_mem _ member)) _ _ _ _ _ _ run
    refine ⟨raw,read,?_⟩
    rw [fields' id last]
    change (fields id).or (matching.fields id) = some raw
    rw [produced]
    rfl
  | cons verification rest ih =>
    intro steady blockLen len tables parsed matching matching' run
    have later := ih fun other member => steady other (List.mem_cons_of_mem _ member)
    cases verification with
    | contextCheck id op value => exact later _ _ _ _ _ _ run
    | tokenFieldCheck id op value => exact later _ _ _ _ _ _ run
    | tableBuild table =>
      obtain ⟨⟨tableLen,parsedTable,context⟩,_,run⟩ := bind_ok.mp run
      obtain found := later _ _ _ _ _ _ run
      exact found
    | subPattern other =>
      obtain ⟨⟨subLen,context,fields⟩,_,run⟩ := bind_ok.mp run
      obtain found := later _ _ _ _ _ _ run
      exact found

theorem readFields_typed {tokens : List UInt8} {ids : List Nat} :
    ∀ {fields : Nat → Option Nat}, readFields sleigh tokens ids = .ok fields → Typed sleigh fields := by
  intro fields run id raw isSome
  obtain ⟨produced,missing⟩ := readFields_ok run
  by_cases member : id ∈ ids
  · obtain ⟨value,read,isValue⟩ := produced id member
    rw [isValue] at isSome
    cases isSome
    exact TokenField.read_fits _ read
  · rw [missing id member] at isSome
    cases isSome

-- The fields of a matched block: it leaves the fields of others alone, and a field it owns is the
-- one at its tokens.
structure BlockFields (sleigh : Sleigh χ) (block : Block χ) (matching matching' : Matching χ τ) : Prop where
  typed : Typed sleigh matching.fields → Typed sleigh matching'.fields
  others : ∀ id, ¬ block.Produces id → matching'.fields id = matching.fields id
  owned : ∀ id, block.Owns sleigh id →
    ∃ raw, (sleigh.tokenField id).read matching.tokens = .ok raw ∧ matching'.fields id = some raw

theorem and_fields {block : AndBlock χ} {partOfFlat : Bool} {matching matching' : Matching χ τ}
    (steady : (Block.and block).Steady sleigh parseTable kept)
    (run : block.parse sleigh parseTable instStart partOfFlat matching = .ok matching') :
    BlockFields sleigh (.and block) matching matching' := by
  obtain ⟨started,built,fields,finished,blockLen,tables,ranPre,ranBuild,ranFields,ranPos,run⟩ := and_parts run
  have started := disassembly_frame ranPre
  have startTokens := started.tokens
  have startFields := started.fields
  obtain ⟨buildTokens,_,_,_,buildTyped,buildOthers⟩ := build_frame steady _ _ _ _ _ _ ranBuild
  obtain ⟨produced,missing⟩ := readFields_ok ranFields
  have typed := readFields_typed ranFields
  have finishFields := (disassembly_frame ranPos).fields
  obtain ⟨_,rfl⟩ := advance_ok run
  have sameTokens : built.tokens = matching.tokens := buildTokens.trans startTokens
  have final : finished.fields = fun id => (fields id).or (built.fields id) := finishFields
  constructor
  · intro before
    rw [← startFields] at before
    simp only [final]
    exact typed_or typed (buildTyped before)
  · intro id notProduced
    have notField : id ∉ block.tokenFields := fun member => notProduced (Or.inl member)
    have notSub : ∀ verification ∈ block.verifications, ¬ verification.Produces id :=
      fun verification member produces => notProduced (Or.inr ⟨verification,member,produces⟩)
    simp only [final,missing id notField,Option.none_or,buildOthers id notSub,startFields]
  · intro id owns
    by_cases isField : id ∈ block.tokenFields
    · obtain ⟨raw,read,isSome⟩ := produced id isField
      rw [sameTokens] at read
      refine ⟨raw,read,?_⟩
      simp only [final,isSome,Option.some_or]
    · rcases owns.2 with member | ⟨before,closure,after,shape,atStart,last⟩
      · exact absurd member isField
      · rw [shape] at ranBuild
        obtain ⟨raw,read,isSome⟩ := build_owns atStart last before (fun verification member =>
          steady verification (shape ▸ member)) _ _ _ _ _ _ ranBuild
        rw [startTokens] at read
        refine ⟨raw,read,?_⟩
        simp only [final,missing id isField,Option.none_or,isSome]

theorem or_fields {block : OrBlock χ} {matching matching' : Matching χ τ}
    (steady : (Block.or block).Steady sleigh parseTable kept)
    (run : block.parse sleigh instStart matching = .ok matching') :
    BlockFields sleigh (.or block) matching matching' := by
  obtain ⟨⟨blockLen,context,fields⟩,found,run⟩ := bind_ok.mp run
  obtain ⟨finished,ranPos,run⟩ := bind_ok.mp run
  have finishFields := (disassembly_frame ranPos).fields
  obtain ⟨_,rfl⟩ := advance_ok run
  obtain ⟨_,typed⟩ := steady _ _ _ _ _ found
  have final : finished.fields = fun id => (fields id).or (matching.fields id) := finishFields
  constructor
  · intro before
    simp only [final]
    exact typed_or typed before
  · intro id notProduced
    have missing : fields id = none := by
      by_contra isSome
      exact notProduced ⟨_,_,_,_,fields,found,isSome⟩
    simp only [final,missing,Option.none_or]
  · intro id owns
    obtain ⟨raw,read,isSome⟩ := owns.2 _ _ _ _ _ found
    refine ⟨raw,read,?_⟩
    simp only [final,isSome,Option.some_or]

theorem block_fields {block : Block χ} {partOfFlat : Bool} {matching matching' : Matching χ τ}
    (steady : block.Steady sleigh parseTable kept)
    (run : block.parse sleigh parseTable instStart partOfFlat matching = .ok matching') :
    BlockFields sleigh block matching matching' := by
  cases block with
  | and block => exact and_fields steady run
  | or block => exact or_fields steady run

-- What the actions of a block are asked for: no `inst_next`, and no fields that the block does not own.
structure Owning (sleigh : Sleigh χ) (kept : Nat → Prop) (block : Block χ) : Prop where
  quiet : Quiet sleigh kept (block.pre ++ block.pos)
  unfinished : ∀ left right, .assignment left right ∈ block.pre ++ block.pos → right.usesInstNext = false
  owned : ∀ left right, .assignment left right ∈ block.pre ++ block.pos →
    ∀ id, .tokenField id ∈ right.reads → block.Owns sleigh id

theorem quiet_append {first second : List Assertation} (quiet : Quiet sleigh kept (first ++ second)) :
    Quiet sleigh kept first ∧ Quiet sleigh kept second := by
  refine ⟨⟨?_,?_⟩,⟨?_,?_⟩⟩
  · exact fun left right member => quiet.reads left right (List.mem_append_left _ member)
  · exact fun id right member => quiet.writes id right (List.mem_append_left _ member)
  · exact fun left right member => quiet.reads left right (List.mem_append_right _ member)
  · exact fun id right member => quiet.writes id right (List.mem_append_right _ member)

theorem follows_context {matching : Matching χ τ} {evaluation : Evaluation χ} {context : χ}
    {fields : Nat → Option Nat} (follows : Follows sleigh kept matching evaluation)
    (keeps : Keeps sleigh kept matching.context context) :
    Follows sleigh kept (produce { matching with context := context } fields) evaluation :=
  ⟨follows.1,follows.2.1,keeps_trans follows.2.2 keeps⟩

theorem and_evaluate {block : AndBlock χ} {partOfFlat : Bool} {matching matching' : Matching χ τ}
    {fields : Nat → Option Nat} {evaluation : Evaluation χ} (steady : (Block.and block).Steady sleigh parseTable kept)
    (owning : Owning sleigh kept (.and block))
    (run : block.parse sleigh parseTable instStart partOfFlat matching = .ok matching')
    (final : ∀ id, (Block.and block).Produces id → fields id = matching'.fields id)
    (follows : Follows sleigh kept matching evaluation) :
    ∃ evaluation', evaluate sleigh fields instStart instNext (block.pre ++ block.pos) evaluation = .ok evaluation' ∧
      Follows sleigh kept matching' evaluation' := by
  have fieldsOf := and_fields steady run
  have reads : ∀ left right, .assignment left right ∈ block.pre ++ block.pos → ∀ id, .tokenField id ∈ right.reads →
      ∃ raw, (sleigh.tokenField id).read matching.tokens = .ok raw ∧ fields id = some raw := by
    intro left right member id isRead
    have owns := owning.owned left right member id isRead
    obtain ⟨raw,read,isSome⟩ := fieldsOf.owned id owns
    exact ⟨raw,read,(final id owns.1).trans isSome⟩
  obtain ⟨started,built,produced,finished,blockLen,tables,ranPre,ranBuild,_,ranPos,run⟩ := and_parts run
  have startTokens := (disassembly_frame ranPre).tokens
  obtain ⟨buildTokens,buildLocals,buildWritten,buildKeeps,_⟩ := build_frame steady _ _ _ _ _ _ ranBuild
  have quiet : Quiet sleigh kept (block.pre ++ block.pos) := owning.quiet
  obtain ⟨quietPre,quietPos⟩ := quiet_append quiet
  obtain ⟨middle,evaluatedPre,followsPre⟩ := @disassembly_evaluate _ _ _ _ instNext _ _ _ quietPre
    (fun left right member => owning.unfinished left right (List.mem_append_left _ member)) _ _ _
    (fun left right member => reads left right (List.mem_append_left _ member)) ranPre follows
  have followsBuilt : Follows sleigh kept (produce built produced) middle :=
    ⟨buildLocals.trans followsPre.1,buildWritten.trans followsPre.2.1,keeps_trans followsPre.2.2 buildKeeps⟩
  obtain ⟨evaluation',evaluatedPos,followsPos⟩ := @disassembly_evaluate _ _ _ _ instNext _ _ _ quietPos
    (fun left right member => owning.unfinished left right (List.mem_append_right _ member)) _ _ _
    (fun left right member => by
      change ∀ id, _ → ∃ raw, (sleigh.tokenField id).read built.tokens = .ok raw ∧ _
      rw [buildTokens,startTokens]
      exact reads left right (List.mem_append_right _ member)) ranPos followsBuilt
  obtain ⟨_,rfl⟩ := advance_ok run
  refine ⟨evaluation',?_,followsPos⟩
  rw [evaluate_append,evaluatedPre]
  exact evaluatedPos

theorem or_evaluate {block : OrBlock χ} {matching matching' : Matching χ τ}
    {fields : Nat → Option Nat} {evaluation : Evaluation χ} (steady : (Block.or block).Steady sleigh parseTable kept)
    (owning : Owning sleigh kept (.or block))
    (run : block.parse sleigh instStart matching = .ok matching')
    (final : ∀ id, (Block.or block).Produces id → fields id = matching'.fields id)
    (follows : Follows sleigh kept matching evaluation) :
    ∃ evaluation', evaluate sleigh fields instStart instNext block.pos evaluation = .ok evaluation' ∧
      Follows sleigh kept matching' evaluation' := by
  have fieldsOf := or_fields steady run
  obtain ⟨⟨blockLen,context,produced⟩,found,run⟩ := bind_ok.mp run
  obtain ⟨finished,ranPos,run⟩ := bind_ok.mp run
  have reads : ∀ left right, .assignment left right ∈ block.pos → ∀ id, .tokenField id ∈ right.reads →
      ∃ raw, (sleigh.tokenField id).read matching.tokens = .ok raw ∧ fields id = some raw := by
    intro left right member id isRead
    have owns := owning.owned left right member id isRead
    obtain ⟨raw,read,isSome⟩ := fieldsOf.owned id owns
    exact ⟨raw,read,(final id owns.1).trans isSome⟩
  have quiet : Quiet sleigh kept block.pos := owning.quiet
  obtain ⟨keeps,_⟩ := steady _ _ _ _ _ found
  obtain ⟨evaluation',evaluated,followsPos⟩ := @disassembly_evaluate _ _ _ _ instNext _ _ _ quiet owning.unfinished
    (produce { matching with context := context } produced) _ _ reads ranPos (follows_context follows keeps)
  obtain ⟨_,rfl⟩ := advance_ok run
  exact ⟨evaluation',evaluated,followsPos⟩

theorem block_evaluate {block : Block χ} {partOfFlat : Bool} {matching matching' : Matching χ τ}
    {fields : Nat → Option Nat} {evaluation : Evaluation χ} (steady : block.Steady sleigh parseTable kept)
    (owning : Owning sleigh kept block)
    (run : block.parse sleigh parseTable instStart partOfFlat matching = .ok matching')
    (final : ∀ id, block.Produces id → fields id = matching'.fields id)
    (follows : Follows sleigh kept matching evaluation) :
    ∃ evaluation', evaluate sleigh fields instStart instNext (block.pre ++ block.pos) evaluation = .ok evaluation' ∧
      Follows sleigh kept matching' evaluation' := by
  cases block with
  | and block => exact and_evaluate steady owning run final follows
  | or block => exact or_evaluate steady owning run final follows

theorem parseBlocks_fields {blocks : List (Block χ)}
    (steady : ∀ block ∈ blocks, block.Steady sleigh parseTable kept) :
    ∀ {partOfFlat : Bool} {matching matching' : Matching χ τ},
      parseBlocks sleigh parseTable instStart partOfFlat blocks matching = .ok matching' →
      (Typed sleigh matching.fields → Typed sleigh matching'.fields) ∧
        ∀ id, (∀ block ∈ blocks, ¬ block.Produces id) → matching'.fields id = matching.fields id := by
  induction blocks with
  | nil =>
    intro partOfFlat matching matching' run
    cases run
    exact ⟨id,fun _ _ => rfl⟩
  | cons block rest ih =>
    intro partOfFlat matching matching' run
    obtain ⟨middle,ranBlock,run⟩ := bind_ok.mp run
    have fieldsOf := block_fields (steady block (List.mem_cons_self ..)) ranBlock
    obtain ⟨typed,others⟩ := ih (fun other member => steady other (List.mem_cons_of_mem _ member)) run
    refine ⟨fun before => typed (fieldsOf.typed before),?_⟩
    intro id none
    rw [others id fun other member => none other (List.mem_cons_of_mem _ member)]
    exact fieldsOf.others id (none block (List.mem_cons_self ..))

-- The blocks of a pattern, one after the other.
theorem parseBlocks_evaluate {blocks : List (Block χ)} {fields : Nat → Option Nat}
    (steady : ∀ block ∈ blocks, block.Steady sleigh parseTable kept)
    (owning : ∀ block ∈ blocks, Owning sleigh kept block)
    (once : blocks.Pairwise fun block later => ∀ id, block.Produces id → ¬ later.Produces id) :
    ∀ {partOfFlat : Bool} {matching matching' : Matching χ τ} {evaluation : Evaluation χ},
      parseBlocks sleigh parseTable instStart partOfFlat blocks matching = .ok matching' →
      (∀ block ∈ blocks, ∀ id, block.Produces id → fields id = matching'.fields id) →
      Follows sleigh kept matching evaluation →
      ∃ evaluation', evaluate sleigh fields instStart instNext (blocks.flatMap fun block => block.pre ++ block.pos)
          evaluation = .ok evaluation' ∧ Follows sleigh kept matching' evaluation' := by
  induction blocks with
  | nil =>
    intro partOfFlat matching matching' evaluation run _ follows
    cases run
    exact ⟨evaluation,rfl,follows⟩
  | cons block rest ih =>
    intro partOfFlat matching matching' evaluation run final follows
    obtain ⟨middle,ranBlock,run⟩ := bind_ok.mp run
    obtain ⟨onceHere,onceLater⟩ := List.pairwise_cons.mp once
    have steadyLater : ∀ other ∈ rest, other.Steady sleigh parseTable kept :=
      fun other member => steady other (List.mem_cons_of_mem _ member)
    obtain ⟨_,others⟩ := parseBlocks_fields steadyLater run
    have finalHere : ∀ id, block.Produces id → fields id = middle.fields id := by
      intro id produces
      rw [final block (List.mem_cons_self ..) id produces]
      exact others id fun other member => onceHere other member id produces
    obtain ⟨evaluated,evaluatedHere,followsHere⟩ := @block_evaluate _ _ _ _ _ instNext _ _ _ _ _ _ _
      (steady block (List.mem_cons_self ..)) (owning block (List.mem_cons_self ..)) ranBlock finalHere follows
    obtain ⟨evaluation',evaluatedLater,followsLater⟩ := ih steadyLater
      (fun other member => owning other (List.mem_cons_of_mem _ member)) onceLater run
      (fun other member => final other (List.mem_cons_of_mem _ member)) followsHere
    refine ⟨evaluation',?_,followsLater⟩
    rw [List.flatMap_cons,evaluate_append,evaluatedHere]
    exact evaluatedLater

-- The local variables that a list of actions assigns.
def targets : List Assertation → List Nat
  | [] => []
  | .assignment (.var id) _ :: rest => id :: targets rest
  | .assignment (.context _) _ :: rest | .globalSet _ _ :: rest => targets rest

-- After the first mention of `inst_next`, the lifter recomputes every assignment: each mentions `inst_next` itself,
-- and a local it reads is either assigned by then or by none of them. `all` are the locals that they assign.
def Recomputable (all : List Nat) : List Nat → List Assertation → Prop
  | _, [] => True
  | done, .globalSet _ _ :: rest => Recomputable all done rest
  | _, .assignment (.context _) _ :: _ => False
  | done, .assignment (.var id) right :: rest =>
    right.usesInstNext = true ∧ right.Total ∧ (∀ other, .var other ∈ right.reads → other ∈ done ∨ other ∉ all) ∧
      Recomputable all (id :: done) rest

-- The pass after the match changes the locals it assigns and nothing else.
theorem postMatch_frame {actions : List Assertation} :
    ∀ {matching matching' : Matching χ τ}, postMatch sleigh instStart actions matching = .ok matching' →
      matching'.context = matching.context ∧ matching'.fields = matching.fields ∧
        matching'.written = matching.written ∧
        (∀ id, id ∉ targets actions → matching'.locals id = matching.locals id) ∧
        ∀ id right, .assignment (.var id) right ∈ actions → ∀ field, .tokenField field ∈ right.reads →
          ∃ raw, matching.fields field = some raw := by
  induction actions with
  | nil =>
    intro matching matching' run
    cases run
    exact ⟨rfl,rfl,rfl,fun _ _ => rfl,fun _ _ member => absurd member List.not_mem_nil⟩
  | cons action rest ih =>
    intro matching matching' run
    cases action with
    | globalSet address context =>
      obtain ⟨context',fields',written',locals',produced⟩ := ih run
      refine ⟨context',fields',written',locals',?_⟩
      intro id right member
      rcases List.mem_cons.mp member with isHere | member
      · cases isHere
      · exact produced id right member
    | assignment left right =>
      cases left with
      | context id =>
        obtain ⟨context',fields',written',locals',produced⟩ := ih run
        refine ⟨context',fields',written',locals',?_⟩
        intro id right member
        rcases List.mem_cons.mp member with isHere | member
        · cases isHere
        · exact produced id right member
      | var id =>
        obtain ⟨value,evaluated,run⟩ := bind_ok.mp run
        obtain ⟨context',fields',written',locals',produced⟩ := ih run
        refine ⟨context',fields',written',?_,?_⟩
        · intro other notTarget
          have notHere : other ≠ id := fun same => notTarget (List.mem_cons.mpr (Or.inl same))
          rw [locals' other fun member => notTarget (List.mem_cons_of_mem _ member)]
          exact Function.update_of_ne notHere _ _
        · intro other otherRight member field isRead
          rcases List.mem_cons.mp member with isHere | member
          · cases isHere
            obtain ⟨word,read⟩ := Expr.eval_reads evaluated _ isRead
            cases isSome : matching.fields field with
            | none =>
              simp only [postRead,isSome] at read
              cases read
            | some raw => exact ⟨raw,rfl⟩
          · exact produced other otherRight member field isRead

-- The lifter starts from locals that are wrong where they are assigned after the match, and ends with the right ones.
theorem disRecompute_evaluate {struct : ConstructorStruct τ} {all : List Nat} {actions : List Assertation}
    (quiet : Quiet sleigh kept actions)
    (produced : ∀ id right, .assignment (.var id) right ∈ actions → ∀ field, .tokenField field ∈ right.reads →
      ∃ raw, struct.assFields field = some raw) :
    ∀ (done : List Nat) (locals : Nat → Word) (evaluation : Evaluation χ), Recomputable all done actions →
      (∀ id, kept id → struct.contextFields id = sleigh.readContext id evaluation.context) →
      (∀ id, id ∈ done ∨ id ∉ all → locals id = evaluation.locals id) →
      ∃ locals' evaluation',
        disRecompute sleigh struct instStart instNext actions locals = .ok locals' ∧
        evaluate sleigh struct.assFields instStart instNext actions evaluation = .ok evaluation' ∧
        evaluation'.written = evaluation.written ∧
        ∀ id, id ∈ done ∨ id ∈ targets actions ∨ id ∉ all → locals' id = evaluation'.locals id := by
  induction actions with
  | nil =>
    intro done locals evaluation _ _ agree
    refine ⟨locals,evaluation,rfl,rfl,rfl,?_⟩
    intro id where_
    rcases where_ with isDone | isTarget | isOther
    · exact agree id (Or.inl isDone)
    · exact absurd isTarget List.not_mem_nil
    · exact agree id (Or.inr isOther)
  | cons action rest ih =>
    intro done locals evaluation recomputable stored agree
    have later := ih (quiet_tail quiet)
      fun id right member => produced id right (List.mem_cons_of_mem _ member)
    cases action with
    | globalSet address context => exact later done locals evaluation recomputable stored agree
    | assignment left right =>
      cases left with
      | context id => exact recomputable.elim
      | var id =>
        obtain ⟨uses,total,ready,recomputable⟩ := recomputable
        have here : Assertation.assignment (.var id) right ∈ Assertation.assignment (.var id) right :: rest :=
          List.mem_cons_self ..
        have same : right.eval (liftRead sleigh struct instStart instNext locals) =
            right.eval (evaluation.read sleigh struct.assFields instStart instNext) := by
          apply Expr.eval_congr
          intro scope member
          cases scope with
          | integer number => rfl
          | context other => exact congrArg Except.ok (stored other (quiet.reads _ _ here other member))
          | tokenField field =>
            obtain ⟨raw,isSome⟩ := produced id right here field member
            simp only [liftRead,Evaluation.read,isSome,Option.map_some,Option.getD_some,TokenField.liftValue_eq]
          | instStart => rfl
          | instNext => rfl
          | var other => exact congrArg Except.ok (agree other (ready other member))
        obtain ⟨value,evaluated⟩ : ∃ value,
            right.eval (evaluation.read sleigh struct.assFields instStart instNext) = .ok value := by
          apply Expr.eval_total total
          · exact fun _ => rfl
          · intro scope member
            cases scope with
            | tokenField field =>
              obtain ⟨raw,isSome⟩ := produced id right here field member
              refine ⟨(sleigh.tokenField field).value raw,?_⟩
              simp only [Evaluation.read,isSome]
            | _ => exact ⟨_,rfl⟩
        obtain ⟨locals',evaluation',recomputed,evaluatedRest,written',agree'⟩ :=
          later (id :: done) (Function.update locals id value) (evaluation.write sleigh (.var id) value) recomputable
            stored (by
              intro other where_
              change Function.update locals id value other = Function.update evaluation.locals id value other
              by_cases isHere : other = id
              · rw [isHere,Function.update_self,Function.update_self]
              · rw [Function.update_of_ne isHere,Function.update_of_ne isHere]
                apply agree
                rcases where_ with isDone | isOther
                · rcases List.mem_cons.mp isDone with same | isDone
                  · exact absurd same isHere
                  · exact Or.inl isDone
                · exact Or.inr isOther)
        refine ⟨locals',evaluation',?_,?_,written',?_⟩
        · simp only [disRecompute,uses,if_true]
          rw [same,evaluated]
          exact recomputed
        · simp only [evaluate]
          rw [evaluated]
          exact evaluatedRest
        · intro other where_
          apply agree'
          rcases where_ with isDone | isTarget | isOther
          · exact Or.inl (List.mem_cons_of_mem _ isDone)
          · rcases List.mem_cons.mp isTarget with isHere | isTarget
            · exact Or.inl (List.mem_cons.mpr (Or.inl isHere))
            · exact Or.inr (Or.inl isTarget)
          · exact Or.inr (Or.inr isOther)

theorem evaluate_keeps {fields : Nat → Option Nat} {actions : List Assertation}
    (quiet : Quiet sleigh kept actions) :
    ∀ {evaluation evaluation' : Evaluation χ},
      evaluate sleigh fields instStart instNext actions evaluation = .ok evaluation' →
      Keeps sleigh kept evaluation.context evaluation'.context := by
  induction actions with
  | nil =>
    intro evaluation evaluation' run
    cases run
    exact keeps_refl _
  | cons action rest ih =>
    intro evaluation evaluation' run
    cases action with
    | globalSet address id => exact ih (quiet_tail quiet) run
    | assignment left right =>
      obtain ⟨value,_,run⟩ := bind_ok.mp run
      have later := ih (quiet_tail quiet) run
      cases left with
      | var id => exact later
      | context id => exact keeps_trans (quiet.writes id right (List.mem_cons_self ..) value _) later

-- The display runs all actions again, in the context of the whole instruction.
theorem displayActions_evaluate {struct : ConstructorStruct τ} {context : χ} {actions : List Assertation}
    (quiet : Quiet sleigh kept actions) (typed : Typed sleigh struct.assFields)
    (plain : ∀ left right, .assignment left right ∈ actions → ∀ id, .tokenField id ∈ right.reads →
      (sleigh.tokenField id).Plain) :
    ∀ (evaluation evaluation' : Evaluation χ),
      evaluate sleigh struct.assFields instStart instNext actions evaluation = .ok evaluation' →
      Keeps sleigh kept evaluation.context context →
      displayActions sleigh struct context instStart instNext actions evaluation.locals = .ok evaluation'.locals := by
  induction actions with
  | nil =>
    intro evaluation evaluation' run keeps
    cases run
    rfl
  | cons action rest ih =>
    intro evaluation evaluation' run keeps
    have later := ih (quiet_tail quiet)
      fun left right member => plain left right (List.mem_cons_of_mem _ member)
    cases action with
    | globalSet address id => exact later _ _ run keeps
    | assignment left right =>
      have here : Assertation.assignment left right ∈ Assertation.assignment left right :: rest :=
        List.mem_cons_self ..
      obtain ⟨value,evaluated,run⟩ := bind_ok.mp run
      cases left with
      | context id =>
        apply later _ _ run
        intro other isKept
        rw [keeps other isKept]
        exact (quiet.writes id right here value evaluation.context other isKept).symm
      | var id =>
        have same : right.eval (displayRead sleigh struct context instStart instNext evaluation.locals) =
            right.eval (evaluation.read sleigh struct.assFields instStart instNext) := by
          apply Expr.eval_congr
          intro scope member
          cases scope with
          | context other => exact congrArg Except.ok (keeps other (quiet.reads _ _ here other member))
          | tokenField field =>
            cases isSome : struct.assFields field with
            | none => simp only [displayRead,Evaluation.read,isSome]
            | some raw =>
              simp only [displayRead,Evaluation.read,isSome]
              apply congrArg Except.ok
              exact TokenField.disassemblyFunctionCall_eq _ (plain _ _ here field member) (typed field raw isSome)
          | _ => rfl
        simp only [displayActions]
        rw [same,evaluated]
        exact later _ _ run keeps

namespace Constructor

def ReadsContext (constructor : Constructor χ) (id : Nat) : Prop :=
  ∃ left right, .assignment left right ∈ constructor.assertations ∧ .context id ∈ right.reads

-- The condition: no field is produced by two blocks; an action in a block reads fields that the block owns, without
-- attached numbers; nothing in the constructor changes a context field that its actions read;
-- and the actions after the match are recomputed as a whole.
structure Steady (sleigh : Sleigh χ) (parseTable : Nat → List UInt8 → χ → Except Failure (Nat × τ × χ))
    (constructor : Constructor χ) : Prop where
  once : constructor.blocks.Pairwise fun block later => ∀ id, block.Produces id → ¬ later.Produces id
  owned : ∀ block ∈ constructor.blocks, ∀ left right, .assignment left right ∈ block.pre ++ block.pos →
    ∀ id, .tokenField id ∈ right.reads → block.Owns sleigh id
  plain : ∀ left right, .assignment left right ∈ constructor.assertations → ∀ id, .tokenField id ∈ right.reads →
    (sleigh.tokenField id).Plain
  blocks : ∀ block ∈ constructor.blocks, block.Steady sleigh parseTable constructor.ReadsContext
  writes : ∀ id right, .assignment (.context id) right ∈ constructor.assertations →
    ∀ value context, Keeps sleigh constructor.ReadsContext context (sleigh.writeContext id value context)
  post : Recomputable (targets constructor.pos) [] constructor.pos

end Constructor

theorem byte_positive : 0 < 8 := by decide

theorem byte_short : 8 ≤ 64 := by decide

-- A one-byte token that is a signed field, and constructors with actions over it.
def signedByte : Sleigh Unit where
  addrBits := 32
  debug := false
  tokenField := fun _ => {
    tokenLen := 1
    bigEndian := false
    start := 0
    len := 8
    attach := .noAttach true
    positive := byte_positive
    short := byte_short
  }
  readContext := fun _ _ => 0
  writeContext := fun _ _ _ => ()

def byte : Pattern Unit where
  len := .defined 1
  blocks := [.and {
    len := .defined 1
    tokens := [1]
    verifications := []
    tokenFields := [0]
    pre := []
    pos := []
  }]
  producedField := fun _ => some 0
  producedTable := fun _ => none

def noTable : Nat → List UInt8 → Unit → Except Failure (Nat × Unit × Unit) :=
  fun _ _ _ => .error .noMatch

-- `[ simm = byte; reloc = inst_next + simm; ]`
def relative : List Assertation :=
  [.assignment (.var 0) (.value (.tokenField 0)),
    .assignment (.var 1) (.op .add (.value .instNext) (.value (.var 0)))]

def relativeBlock : AndBlock Unit where
  len := .defined 1
  tokens := [1]
  verifications := []
  tokenFields := [0]
  pre := [.assignment (.var 0) (.value (.tokenField 0))]
  pos := []

def relativeConstructor : Constructor Unit where
  len := .defined 1
  blocks := [.and relativeBlock]
  pos := [.assignment (.var 1) (.op .add (.value .instNext) (.value (.var 0)))]

theorem relative_steady : relativeConstructor.Steady signedByte noTable where
  once := List.pairwise_singleton _ _
  owned := by
    intro block member left right isAction id isRead
    cases List.mem_singleton.mp member
    cases List.mem_singleton.mp isAction
    cases List.mem_singleton.mp isRead
    exact ⟨Or.inl (List.mem_singleton_self 0),Or.inl (List.mem_singleton_self 0)⟩
  plain := fun _ _ _ _ _ => trivial
  blocks := by
    intro block member
    cases List.mem_singleton.mp member
    intro verification member
    cases member
  writes := by
    intro id right member value context other isKept
    rfl
  post := by
    refine ⟨rfl,⟨trivial,trivial,fun isDiv => by cases isDiv⟩,?_,trivial⟩
    intro other isRead
    right
    simp only [Expr.reads,List.cons_append,List.nil_append,List.mem_cons,List.not_mem_nil,or_false] at isRead
    rcases isRead with isNext | isVar
    · cases isNext
    · cases isVar
      decide

end Rsleigh.Decode
