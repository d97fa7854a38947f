import Mathlib.Data.Prod.Lex
import Mathlib.Algebra.BigOperators.Group.Finset.Basic
import Rsleigh.Decompile.Ir
import Rsleigh.Lib.BoundedInsert
import Rsleigh.Lib.Worklist

namespace Rsleigh.Decompile

open BoundedInsert

-- rsleigh-decompile/src/provenance.rs.
def maxOrigins : Nat := 32

structure OperationOrigin where
  instructionAddress : UInt64
  operationIndex : Nat
  deriving DecidableEq

def OperationOrigin.key (origin : OperationOrigin) : Nat ×ₗ Nat :=
  toLex (origin.instructionAddress.toNat,origin.operationIndex)

theorem OperationOrigin.key_injective : Function.Injective OperationOrigin.key := by
  intro one two same
  have pairs := toLex.injective same
  cases one
  cases two
  simp only [Prod.mk.injEq,UInt64.toNat_inj] at pairs
  obtain ⟨rfl,rfl⟩ := pairs
  rfl

-- By address, and then by index.
instance : LinearOrder OperationOrigin := LinearOrder.lift' OperationOrigin.key OperationOrigin.key_injective

structure Origins where
  operations : List OperationOrigin
  truncated : Bool
  synthetic : Bool
  deriving DecidableEq

-- A variable, with what the propagation reads of it.
structure TracedVar where
  expr : Expr
  origins : Origins
  deriving DecidableEq

-- rsleigh-decompile/src/ssa.rs.
def collectExprRefs : Expr → List VarId
  | .var id => [id]
  | .binOp _ left right => [left, right]
  | .unaryOp _ inner | .load inner | .fieldAccess inner _ => [inner]
  | .phi inputs => inputs
  | .ternary cond then_ else_ => [cond, then_, else_]
  | .userOp _ inputs => inputs
  | .const _ _ | .unknown => []

namespace Origins

def insert (origins : Origins) (origin : OperationOrigin) : Origins :=
  let (operations, dropped) := insertWithin maxOrigins origins.operations origin
  { origins with operations := operations, truncated := origins.truncated || dropped }

def merge (origins other : Origins) : Origins :=
  let merged := other.operations.foldl insert origins
  { merged with truncated := merged.truncated || other.truncated }

def mergeInput (vars : List TracedVar) (origins : Origins) (id : VarId) : Origins :=
  match vars[id]? with
  | some var => origins.merge var.origins
  | none => origins

def mergeInputs (origins : Origins) (expr : Expr) (vars : List TracedVar) : Origins :=
  (collectExprRefs expr).foldl (mergeInput vars) origins

end Origins

-- A variable is once a consumer for each of its references.
def consumers (vars : List TracedVar) (input : VarId) : List VarId :=
  vars.zipIdx.flatMap fun var => ((collectExprRefs var.1.expr).filter (· = input)).map fun _ => var.2

def setOrigins (vars : List TracedVar) (index : VarId) (origins : Origins) : List TracedVar :=
  vars.modify index fun var => { var with origins := origins }

-- As much work as is left. A variable that is queued is not queued again.
def propagateQueue (users : VarId → List VarId) : Nat → List TracedVar → List VarId → List TracedVar × List VarId
  | 0, vars, queue => (vars, queue)
  | _ + 1, vars, [] => (vars, [])
  | work + 1, vars, index :: queue =>
    match vars[index]? with
    | some var =>
      let origins := var.origins.mergeInputs var.expr vars
      if origins = var.origins then propagateQueue users work vars queue
      else propagateQueue users work (setOrigins vars index origins) (Worklist.enqueue queue (users index))
    | none => propagateQueue users work vars queue

-- The variables of the queue and their consumers are marked. The walk is bounded by fuel.
def markQueue (users : VarId → List VarId) : Nat → List TracedVar → (VarId → Bool) → List VarId → Option (List TracedVar)
  | _, vars, _, [] => some vars
  | 0, _, _, _ :: _ => none
  | fuel + 1, vars, marked, index :: queue =>
    if marked index then markQueue users fuel vars marked queue
    else
      let marked := Function.update marked index true
      let vars := vars.modify index fun var => { var with origins := { var.origins with truncated := true } }
      markQueue users fuel vars marked (queue ++ (users index).filter fun user => !marked user)

def propagate (fuel : Nat) (vars : List TracedVar) : Option (List TracedVar) :=
  let users := consumers vars
  let (vars, queue) := propagateQueue users (vars.length * (maxOrigins + 2)) vars (List.range vars.length)
  markQueue users fuel vars (fun _ => false) queue

namespace Origins

def Sound (origins : Origins) : Prop :=
  Within maxOrigins origins.operations

-- Origins grow, and what is not said to be truncated has lost nothing.
structure Grows (before after : Origins) : Prop where
  sound : before.Sound → after.Sound
  kept : after.truncated = false → before.truncated = false ∧ before.operations ⊆ after.operations

theorem grows_refl (origins : Origins) : Grows origins origins :=
  ⟨id,fun whole => ⟨whole,List.Subset.refl _⟩⟩

theorem grows_trans {first second third : Origins} (grows : Grows first second) (again : Grows second third) :
    Grows first third where
  sound := again.sound ∘ grows.sound
  kept := by
    intro whole
    obtain ⟨middle,later⟩ := again.kept whole
    obtain ⟨start,earlier⟩ := grows.kept middle
    exact ⟨start,List.Subset.trans earlier later⟩

theorem insert_grows (origins : Origins) (origin : OperationOrigin) : Grows origins (origins.insert origin) where
  sound := insertWithin_within
  kept := by
    intro whole
    obtain ⟨before,kept⟩ := Bool.or_eq_false_iff.mp whole
    exact ⟨before,fun other member => (insertWithin_kept kept other).mpr (Or.inl member)⟩

theorem insert_member {origins : Origins} {origin : OperationOrigin} (whole : (origins.insert origin).truncated = false) :
    origin ∈ (origins.insert origin).operations :=
  (insertWithin_kept (Bool.or_eq_false_iff.mp whole).2 origin).mpr (Or.inr rfl)

theorem foldl_insert_grows (added : List OperationOrigin) (origins : Origins) : Grows origins (added.foldl insert origins) := by
  induction added generalizing origins with
  | nil => exact grows_refl _
  | cons origin rest ih => exact grows_trans (insert_grows _ _) (ih _)

theorem foldl_insert_contains {added : List OperationOrigin} {origins : Origins}
    (whole : (added.foldl insert origins).truncated = false) : added ⊆ (added.foldl insert origins).operations := by
  induction added generalizing origins with
  | nil => exact List.nil_subset _
  | cons origin rest ih =>
    have later := (foldl_insert_grows rest (origins.insert origin)).kept whole
    exact List.cons_subset.mpr ⟨later.2 (insert_member later.1),ih whole⟩

theorem merge_grows (origins other : Origins) : Grows origins (origins.merge other) where
  sound := (foldl_insert_grows other.operations origins).sound
  kept := fun whole => (foldl_insert_grows other.operations origins).kept (Bool.or_eq_false_iff.mp whole).1

theorem merge_contains {origins other : Origins} (whole : (origins.merge other).truncated = false) :
    other.truncated = false ∧ other.operations ⊆ (origins.merge other).operations := by
  obtain ⟨merged,otherWhole⟩ := Bool.or_eq_false_iff.mp whole
  exact ⟨otherWhole,foldl_insert_contains merged⟩

-- What a variable is whole with: its inputs are whole, and their origins are its own.
def Contains (origins : Origins) (refs : List VarId) (vars : List TracedVar) : Prop :=
  ∀ id ∈ refs, ∀ var : TracedVar, vars[id]? = some var → var.origins.truncated = false ∧ var.origins.operations ⊆ origins.operations

theorem mergeInput_grows (vars : List TracedVar) (origins : Origins) (id : VarId) :
    Grows origins (mergeInput vars origins id) := by
  unfold mergeInput
  split
  · exact merge_grows _ _
  · exact grows_refl _

theorem mergeInput_contains {vars : List TracedVar} {origins : Origins} {id : VarId}
    (whole : (mergeInput vars origins id).truncated = false) : Contains (mergeInput vars origins id) [id] vars := by
  intro other isOther var isVar
  rw [List.mem_singleton.mp isOther] at isVar
  unfold mergeInput at whole ⊢
  rw [isVar] at whole ⊢
  exact merge_contains whole

theorem foldl_mergeInput_grows (vars : List TracedVar) (refs : List VarId) (origins : Origins) :
    Grows origins (refs.foldl (mergeInput vars) origins) := by
  induction refs generalizing origins with
  | nil => exact grows_refl _
  | cons id rest ih => exact grows_trans (mergeInput_grows _ _ _) (ih _)

theorem foldl_mergeInput_contains {vars : List TracedVar} {refs : List VarId} {origins : Origins}
    (whole : (refs.foldl (mergeInput vars) origins).truncated = false) :
    Contains (refs.foldl (mergeInput vars) origins) refs vars := by
  induction refs generalizing origins with
  | nil => exact fun id member => absurd member List.not_mem_nil
  | cons id rest ih =>
    intro other member var isVar
    rcases List.mem_cons.mp member with same | later
    · have kept := (foldl_mergeInput_grows vars rest (mergeInput vars origins id)).kept whole
      have first := mergeInput_contains kept.1 other (same ▸ List.mem_singleton_self _) var isVar
      exact ⟨first.1,List.Subset.trans first.2 kept.2⟩
    · exact ih whole other later var isVar

theorem mergeInputs_grows (origins : Origins) (expr : Expr) (vars : List TracedVar) :
    Grows origins (origins.mergeInputs expr vars) :=
  foldl_mergeInput_grows vars _ origins

theorem mergeInputs_contains {origins : Origins} {expr : Expr} {vars : List TracedVar}
    (whole : (origins.mergeInputs expr vars).truncated = false) :
    Contains (origins.mergeInputs expr vars) (collectExprRefs expr) vars :=
  foldl_mergeInput_contains whole

end Origins

open Origins

-- The table with some origins grown.
structure TableGrows (before after : List TracedVar) : Prop where
  length : after.length = before.length
  vars : ∀ (id : VarId) (var : TracedVar), before[id]? = some var → ∃ var' : TracedVar, after[id]? = some var' ∧
    var'.expr = var.expr ∧ Grows var.origins var'.origins

theorem tableGrows_refl (vars : List TracedVar) : TableGrows vars vars :=
  ⟨rfl,fun _ var isVar => ⟨var,isVar,rfl,grows_refl _⟩⟩

theorem tableGrows_trans {first second third : List TracedVar} (grows : TableGrows first second)
    (again : TableGrows second third) : TableGrows first third where
  length := again.length.trans grows.length
  vars := by
    intro id var isVar
    obtain ⟨middle,isMiddle,sameExpr,middleGrows⟩ := grows.vars id var isVar
    obtain ⟨last,isLast,lastExpr,lastGrows⟩ := again.vars id middle isMiddle
    exact ⟨last,isLast,lastExpr.trans sameExpr,grows_trans middleGrows lastGrows⟩

theorem tableGrows_modify {vars : List TracedVar} {index : VarId} {change : Origins → Origins}
    (grows : ∀ var, vars[index]? = some var → Grows var.origins (change var.origins)) :
    TableGrows vars (vars.modify index fun var => { var with origins := change var.origins }) where
  length := List.length_modify _ _ _
  vars := by
    intro id var isVar
    by_cases here : index = id
    · subst here
      exact ⟨{ var with origins := change var.origins },by simp [isVar],rfl,grows var isVar⟩
    · exact ⟨var,by simp [here,isVar],rfl,grows_refl _⟩

-- What does not wait is truncated, or contains the origins of its inputs.
def SettledAt (vars : List TracedVar) (v : VarId) : Prop :=
  ∀ var : TracedVar, vars[v]? = some var → var.origins.truncated = true ∨ Contains var.origins (collectExprRefs var.expr) vars

-- The users of a variable are those that refer to it.
def Covers (users : VarId → List VarId) (vars : List TracedVar) : Prop :=
  ∀ (v : VarId) (var : TracedVar), vars[v]? = some var → ∀ id ∈ collectExprRefs var.expr, v ∈ users id

theorem covers_grows {users : VarId → List VarId} {before after : List TracedVar} (covers : Covers users before)
    (grows : TableGrows before after) : Covers users after := by
  intro v var isVar id member
  have inRange : v < before.length := grows.length ▸ (List.getElem?_eq_some_iff.mp isVar).1
  obtain ⟨var',isVar',sameExpr,_⟩ := grows.vars v _ (List.getElem?_eq_getElem inRange)
  rw [isVar] at isVar'
  rw [Option.some.inj isVar',sameExpr] at member
  exact covers v _ (List.getElem?_eq_getElem inRange) id member

theorem consumers_covers (vars : List TracedVar) : Covers (consumers vars) vars := by
  intro v var isVar id member
  refine List.mem_flatMap.mpr ⟨(var,v),List.mk_mem_zipIdx_iff_getElem?.mpr isVar,?_⟩
  exact List.mem_map.mpr ⟨id,List.mem_filter.mpr ⟨member,decide_eq_true rfl⟩,rfl⟩

theorem consumers_inside {vars : List TracedVar} {input user : VarId} (member : user ∈ consumers vars input) :
    user < vars.length := by
  obtain ⟨⟨var,index⟩,isVar,found⟩ := List.mem_flatMap.mp member
  obtain ⟨_,_,same⟩ := List.mem_map.mp found
  rw [← same]
  exact (List.getElem?_eq_some_iff.mp (List.mk_mem_zipIdx_iff_getElem?.mp isVar)).1

theorem contains_other {vars : List TracedVar} {index : VarId} {changed origins : Origins} {refs : List VarId}
    (notRef : index ∉ refs) (contains : Contains origins refs vars) : Contains origins refs (setOrigins vars index changed) := by
  intro id member input isInput
  have notIndex : index ≠ id := by
    rintro rfl
    exact notRef member
  unfold setOrigins at isInput
  rw [List.getElem?_modify_ne _ _ notIndex] at isInput
  exact contains id member input isInput

theorem settled_other {users : VarId → List VarId} {vars : List TracedVar} {index v : VarId} {origins : Origins}
    (covers : Covers users vars) (noUser : v ∉ users index) (other : v ≠ index) (settled : SettledAt vars v) :
    SettledAt (setOrigins vars index origins) v := by
  intro var isVar
  unfold setOrigins at isVar
  rw [List.getElem?_modify_ne _ _ other.symm] at isVar
  exact (settled var isVar).imp_right (contains_other fun member => noUser (covers v var isVar index member))

theorem settled_here {users : VarId → List VarId} {vars : List TracedVar} {index : VarId} {var : TracedVar}
    (covers : Covers users vars) (noUser : index ∉ users index) (isVar : vars[index]? = some var) :
    SettledAt (setOrigins vars index (var.origins.mergeInputs var.expr vars)) index := by
  intro other isOther
  unfold setOrigins at isOther
  rw [List.getElem?_modify_eq,isVar] at isOther
  cases isOther
  cases whole : (var.origins.mergeInputs var.expr vars).truncated with
  | true => exact Or.inl rfl
  | false =>
    exact Or.inr (contains_other (fun member => noUser (covers index var isVar index member)) (mergeInputs_contains whole))

-- Visits settle what they leave, and queue what they unsettle.
theorem propagateQueue_settles {users : VarId → List VarId} : ∀ {work : Nat} {vars : List TracedVar} {queue : List VarId},
    Covers users vars → (∀ v, v ∉ queue → SettledAt vars v) →
    TableGrows vars (propagateQueue users work vars queue).1 ∧
      ∀ v, v ∉ (propagateQueue users work vars queue).2 → SettledAt (propagateQueue users work vars queue).1 v := by
  intro work
  induction work with
  | zero => exact fun _ settled => ⟨tableGrows_refl _,settled⟩
  | succ work ih =>
    intro vars queue covers settled
    cases queue with
    | nil => exact ⟨tableGrows_refl _,settled⟩
    | cons index queue =>
      unfold propagateQueue
      cases isVar : vars[index]? with
      | none =>
        refine ih covers ?_
        intro v notQueued
        by_cases here : v = index
        · intro var isOther
          rw [here,isVar] at isOther
          cases isOther
        · exact settled v (by simp [here,notQueued])
      | some var =>
        dsimp only
        by_cases same : var.origins.mergeInputs var.expr vars = var.origins
        · rw [if_pos same]
          refine ih covers ?_
          intro v notQueued
          by_cases here : v = index
          · intro other isOther
            rw [here,isVar] at isOther
            cases isOther
            cases whole : var.origins.truncated with
            | true => exact Or.inl rfl
            | false => exact Or.inr (same ▸ mergeInputs_contains (same.symm ▸ whole))
          · exact settled v (by simp [here,notQueued])
        · rw [if_neg same]
          have grows : TableGrows vars (setOrigins vars index (var.origins.mergeInputs var.expr vars)) := by
            refine @tableGrows_modify vars index (fun _ => var.origins.mergeInputs var.expr vars) ?_
            intro other isOther
            rw [isVar] at isOther
            cases isOther
            exact mergeInputs_grows _ _ _
          have covers' := covers_grows covers grows
          obtain ⟨laterGrows,laterSettled⟩ := @ih
            (setOrigins vars index (var.origins.mergeInputs var.expr vars)) (Worklist.enqueue queue (users index)) covers' (by
              intro v notQueued
              obtain ⟨notBefore,noUser⟩ := not_or.mp (fun waits => notQueued (Worklist.mem_enqueue.mpr waits))
              by_cases here : v = index
              · subst here
                exact settled_here covers noUser isVar
              · exact settled_other covers noUser here (settled v (by simp [here,notBefore])))
          exact ⟨tableGrows_trans grows laterGrows,laterSettled⟩

theorem propagateQueue_inside {count : Nat} {users : VarId → List VarId} (inside : ∀ v, ∀ user ∈ users v, user < count) :
    ∀ {work : Nat} {vars : List TracedVar} {queue : List VarId}, (∀ v ∈ queue, v < count) →
    ∀ v ∈ (propagateQueue users work vars queue).2, v < count := by
  intro work
  induction work with
  | zero => exact fun queued => queued
  | succ work ih =>
    intro vars queue queued
    cases queue with
    | nil => exact queued
    | cons index queue =>
      have rest : ∀ v ∈ queue, v < count := fun v member => queued v (List.mem_cons_of_mem _ member)
      unfold propagateQueue
      split
      · dsimp only
        split
        · exact ih rest
        · refine ih fun v member => ?_
          rcases Worklist.mem_enqueue.mp member with old | new
          · exact rest v old
          · exact inside index v new
      · exact ih rest

def TracedVar.truncate (var : TracedVar) : TracedVar :=
  { var with origins := { var.origins with truncated := true } }

-- What the marks still have to visit at most.
def spare (count : Nat) (users : VarId → List VarId) (marked : VarId → Bool) : Nat :=
  ∑ index ∈ Finset.range count, if marked index then 0 else (users index).length

theorem spare_mark {count : Nat} {users : VarId → List VarId} {marked : VarId → Bool} {index : VarId}
    (inside : index < count) (unmarked : marked index = false) :
    spare count users (Function.update marked index true) + (users index).length = spare count users marked := by
  have member := Finset.mem_range.mpr inside
  unfold spare
  rw [← Finset.add_sum_erase _ _ member,← Finset.add_sum_erase _ (fun index => if marked index then 0 else _) member]
  have others : ∑ other ∈ (Finset.range count).erase index,
      (if Function.update marked index true other = true then 0 else (users other).length) =
      ∑ other ∈ (Finset.range count).erase index, if marked other = true then 0 else (users other).length := by
    refine Finset.sum_congr rfl fun other isOther => ?_
    rw [Function.update_of_ne (Finset.ne_of_mem_erase isOther)]
  rw [others,if_pos (Function.update_self _ _ _),if_neg (by simp [unmarked]),Nat.zero_add]
  exact Nat.add_comm _ _

-- The marks that a walk ends with: what waited, and with a variable all its users.
structure Marks (users : VarId → List VarId) (vars after : List TracedVar) (marked marked' : VarId → Bool)
    (queue : List VarId) : Prop where
  more : ∀ v, marked v = true → marked' v = true
  queued : ∀ v ∈ queue, marked' v = true
  closed : ∀ v, marked' v = true → marked v = true ∨ ∀ user ∈ users v, marked' user = true
  truncated : ∀ v, marked' v = true → marked v = true ∨ after[v]? = (vars[v]?).map TracedVar.truncate
  same : ∀ v, marked' v = false ∨ marked v = true → after[v]? = vars[v]?

theorem markQueue_marks {count : Nat} {users : VarId → List VarId} (inside : ∀ v, ∀ user ∈ users v, user < count) :
    ∀ {fuel : Nat} {vars : List TracedVar} {marked : VarId → Bool} {queue : List VarId},
    (∀ v ∈ queue, v < count) → queue.length + spare count users marked ≤ fuel →
    ∃ after marked', markQueue users fuel vars marked queue = some after ∧ Marks users vars after marked marked' queue := by
  intro fuel
  induction fuel with
  | zero =>
    intro vars marked queue _ enough
    have isEmpty : queue = [] := List.eq_nil_of_length_eq_zero (by omega)
    subst isEmpty
    exact ⟨vars,marked,by unfold markQueue; rfl,fun _ => id,by simp,fun _ => Or.inl,fun _ => Or.inl,fun _ _ => rfl⟩
  | succ fuel ih =>
    intro vars marked queue queuedInside enough
    cases queue with
    | nil => exact ⟨vars,marked,by unfold markQueue; rfl,fun _ => id,by simp,fun _ => Or.inl,fun _ => Or.inl,fun _ _ => rfl⟩
    | cons index queue =>
      unfold markQueue
      cases isMarked : marked index with
      | true =>
        obtain ⟨after,marked',isAfter,marks⟩ := @ih vars marked queue
          (fun v member => queuedInside v (List.mem_cons_of_mem _ member))
          (by rw [List.length_cons] at enough; omega)
        refine ⟨after,marked',isAfter,{ marks with queued := ?_ }⟩
        intro v member
        rcases List.mem_cons.mp member with same | later
        · rw [same]
          exact marks.more index isMarked
        · exact marks.queued v later
      | false =>
        have indexInside := queuedInside index List.mem_cons_self
        have spared := @spare_mark count users marked index indexInside isMarked
        have fewer := List.length_filter_le (fun user => !Function.update marked index true user) (users index)
        obtain ⟨after,marked',isAfter,marks⟩ := @ih
          (vars.modify index fun var => { var with origins := { var.origins with truncated := true } })
          (Function.update marked index true)
          (queue ++ (users index).filter fun user => !Function.update marked index true user)
          (by
            intro v member
            rcases List.mem_append.mp member with old | new
            · exact queuedInside v (List.mem_cons_of_mem _ old)
            · exact inside index v (List.mem_filter.mp new).1)
          (by
            rw [List.length_append]
            rw [List.length_cons] at enough
            omega)
        have indexMarked : marked' index = true := marks.more index (Function.update_self _ _ _)
        refine ⟨after,marked',by simpa using isAfter,?_,?_,?_,?_,?_⟩
        · intro v before
          by_cases here : v = index
          · rw [here]
            exact indexMarked
          · exact marks.more v (by rwa [Function.update_of_ne here])
        · intro v member
          rcases List.mem_cons.mp member with same | later
          · rw [same]
            exact indexMarked
          · exact marks.queued v (List.mem_append_left _ later)
        · intro v isMarked'
          by_cases here : v = index
          · refine Or.inr fun user member => ?_
            rw [here] at member
            by_cases before : Function.update marked index true user = true
            · exact marks.more user before
            · exact marks.queued user (List.mem_append_right _ (List.mem_filter.mpr ⟨member,by simpa using before⟩))
          · have closed := marks.closed v isMarked'
            rwa [Function.update_of_ne here] at closed
        · intro v isMarked'
          by_cases here : v = index
          · rw [here]
            refine Or.inr ?_
            rw [marks.same index (Or.inr (Function.update_self _ _ _)),List.getElem?_modify_eq]
            rfl
          · have truncated := marks.truncated v isMarked'
            rwa [Function.update_of_ne here,List.getElem?_modify_ne _ _ (Ne.symm here)] at truncated
        · intro v unmarked
          have here : v ≠ index := by
            rintro rfl
            rcases unmarked with unmarked | unmarked
            · rw [indexMarked] at unmarked
              cases unmarked
            · rw [isMarked] at unmarked
              cases unmarked
          have same := marks.same v (by rwa [Function.update_of_ne here])
          rwa [List.getElem?_modify_ne _ _ (Ne.symm here)] at same

-- A variable of the table refers to another id.
def RefersTo (vars : List TracedVar) (v id : VarId) : Prop :=
  ∃ var, vars[v]? = some var ∧ id ∈ collectExprRefs var.expr

-- What a variable has after the propagation.
structure Propagated (vars after : List TracedVar) (v : VarId) (var' : TracedVar) : Prop where
  sound : var'.origins.Sound
  complete : var'.origins.truncated = true ∨
    (∀ var, vars[v]? = some var → var.origins.operations ⊆ var'.origins.operations) ∧
      ∀ id, Relation.TransGen (RefersTo after) v id → ∀ input : TracedVar, after[id]? = some input →
        input.origins.truncated = false ∧ input.origins.operations ⊆ var'.origins.operations

theorem settled_complete {vars : List TracedVar} (settled : ∀ v, SettledAt vars v) {v id : VarId}
    (depends : Relation.TransGen (RefersTo vars) v id) {var input : TracedVar} (isVar : vars[v]? = some var)
    (whole : var.origins.truncated = false) (isInput : vars[id]? = some input) :
    input.origins.truncated = false ∧ input.origins.operations ⊆ var.origins.operations := by
  have direct : ∀ {v id : VarId} {var input : TracedVar}, vars[v]? = some var → var.origins.truncated = false →
      RefersTo vars v id → vars[id]? = some input →
      input.origins.truncated = false ∧ input.origins.operations ⊆ var.origins.operations := by
    intro v id var input isVar whole refers isInput
    obtain ⟨other,isOther,member⟩ := refers
    rw [isVar] at isOther
    cases isOther
    rcases settled v var isVar with truncated | contains
    · rw [whole] at truncated
      cases truncated
    · exact contains id member input isInput
  induction depends generalizing input with
  | single refers => exact direct isVar whole refers isInput
  | tail before refers ih =>
    obtain ⟨middle,isMiddle,member⟩ := refers
    have first := ih isMiddle
    have last := direct isMiddle first.1 ⟨middle,isMiddle,member⟩ isInput
    exact ⟨last.1,List.Subset.trans last.2 first.2⟩

theorem marks_settle {users : VarId → List VarId} {vars after : List TracedVar} {marked : VarId → Bool} {queue : List VarId}
    (covers : Covers users vars) (settled : ∀ v, v ∉ queue → SettledAt vars v)
    (marks : Marks users vars after (fun _ => false) marked queue) (v : VarId) : SettledAt after v := by
  intro var isVar
  cases isMarked : marked v with
  | true =>
    have truncated := (marks.truncated v isMarked).resolve_left (by simp)
    rw [isVar] at truncated
    obtain ⟨before,_,isTruncated⟩ := Option.map_eq_some_iff.mp truncated.symm
    rw [← isTruncated]
    exact Or.inl rfl
  | false =>
    have same := marks.same v (Or.inl isMarked)
    rw [isVar] at same
    have notQueued : v ∉ queue := by
      intro member
      rw [marks.queued v member] at isMarked
      cases isMarked
    refine (settled v notQueued var same.symm).imp_right fun contains id member input isInput => ?_
    have notMarked : marked id = false := by
      by_contra isMarkedInput
      have closed := (marks.closed id (Bool.eq_true_of_not_eq_false isMarkedInput)).resolve_left (by simp)
      rw [closed v (covers v var same.symm id member)] at isMarked
      cases isMarked
    rw [marks.same id (Or.inl notMarked)] at isInput
    exact contains id member input isInput

theorem marks_grow {users : VarId → List VarId} {vars after : List TracedVar} {marked : VarId → Bool} {queue : List VarId}
    (marks : Marks users vars after (fun _ => false) marked queue) {v : VarId} {var : TracedVar}
    (isVar : vars[v]? = some var) :
    ∃ var' : TracedVar, after[v]? = some var' ∧ var'.expr = var.expr ∧ Grows var.origins var'.origins := by
  cases isMarked : marked v with
  | true =>
    have truncated := (marks.truncated v isMarked).resolve_left (by simp)
    rw [isVar] at truncated
    exact ⟨var.truncate,truncated,rfl,id,fun whole => Bool.noConfusion whole⟩
  | false => exact ⟨var,(marks.same v (Or.inl isMarked)).trans isVar,rfl,grows_refl _⟩

theorem marks_length {users : VarId → List VarId} {vars after : List TracedVar} {marked : VarId → Bool}
    {queue : List VarId} (marks : Marks users vars after (fun _ => false) marked queue) : after.length = vars.length := by
  have sameNone : ∀ v : VarId, after[v]? = none ↔ vars[v]? = none := by
    intro v
    cases isMarked : marked v with
    | true => rw [(marks.truncated v isMarked).resolve_left (by simp),Option.map_eq_none_iff]
    | false => rw [marks.same v (Or.inl isMarked)]
  simp only [List.getElem?_eq_none_iff] at sameNone
  exact Nat.le_antisymm ((sameNone vars.length).mpr (Nat.le_refl _)) ((sameNone after.length).mp (Nat.le_refl _))

-- Origins are propagated completely, or are said to be truncated.
theorem propagate_complete (vars : List TracedVar) (sound : ∀ var ∈ vars, var.origins.Sound) :
    ∃ bound, ∀ fuel ≥ bound, ∃ after, propagate fuel vars = some after ∧ after.length = vars.length ∧
      ∀ (v : VarId) (var : TracedVar), vars[v]? = some var →
        ∃ var' : TracedVar, after[v]? = some var' ∧ var'.expr = var.expr ∧ Propagated vars after v var' := by
  have users : ∀ v, ∀ user ∈ consumers vars v, user < vars.length := fun _ _ => consumers_inside
  have start : ∀ v, v ∉ List.range vars.length → SettledAt vars v := by
    intro v outside var isVar
    exact absurd (List.mem_range.mpr (List.getElem?_eq_some_iff.mp isVar).1) outside
  obtain ⟨grows,settled⟩ := @propagateQueue_settles (consumers vars) (vars.length * (maxOrigins + 2)) vars
    (List.range vars.length) (consumers_covers vars) start
  have queued := @propagateQueue_inside vars.length (consumers vars) users (vars.length * (maxOrigins + 2)) vars
    (List.range vars.length) (fun _ => List.mem_range.mp)
  have isPropagate : ∀ fuel, propagate fuel vars = markQueue (consumers vars) fuel
      (propagateQueue (consumers vars) (vars.length * (maxOrigins + 2)) vars (List.range vars.length)).1 (fun _ => false)
      (propagateQueue (consumers vars) (vars.length * (maxOrigins + 2)) vars (List.range vars.length)).2 := fun _ => rfl
  generalize (propagateQueue (consumers vars) (vars.length * (maxOrigins + 2)) vars (List.range vars.length)).1 = middle at *
  generalize (propagateQueue (consumers vars) (vars.length * (maxOrigins + 2)) vars (List.range vars.length)).2 = queue at *
  refine ⟨queue.length + spare vars.length (consumers vars) fun _ => false,fun fuel enough => ?_⟩
  obtain ⟨after,marked,isAfter,marks⟩ := @markQueue_marks vars.length (consumers vars) users fuel middle (fun _ => false)
    queue queued enough
  have allSettled := marks_settle (covers_grows (consumers_covers vars) grows) settled marks
  refine ⟨after,(isPropagate fuel).trans isAfter,?_,?_⟩
  · rw [← grows.length]
    exact marks_length marks
  · intro v var isVar
    obtain ⟨between,isBetween,sameExpr,firstGrows⟩ := grows.vars v var isVar
    obtain ⟨var',isVar',lastExpr,lastGrows⟩ := marks_grow marks isBetween
    have varGrows := grows_trans firstGrows lastGrows
    refine ⟨var',isVar',lastExpr.trans sameExpr,varGrows.sound (sound var (List.mem_of_getElem? isVar)),?_⟩
    cases whole : var'.origins.truncated with
    | true => exact Or.inl rfl
    | false =>
      refine Or.inr ⟨?_,fun id depends input isInput => settled_complete allSettled depends isVar' whole isInput⟩
      intro other isOther
      rw [isVar] at isOther
      cases isOther
      exact (varGrows.kept whole).2

-- A source, and a phi of it with a copy of the phi that has an origin of its own.
def originCycle : List TracedVar :=
  [⟨.const 0x1000 4, ⟨[⟨0x1000, 0⟩], false, false⟩⟩, ⟨.phi [0, 2], ⟨[], false, true⟩⟩,
    ⟨.var 1, ⟨[⟨0x2000, 1⟩], false, true⟩⟩]

theorem originCycle_sound : ∀ var ∈ originCycle, var.origins.Sound := by
  intro var member
  simp only [originCycle,List.mem_cons,List.not_mem_nil,or_false] at member
  rcases member with rfl | rfl | rfl <;> exact ⟨by simp,by simp [maxOrigins]⟩

theorem originCycle_complete :
    (∀ var ∈ originCycle, var.origins.Sound) ∧
      ∃ bound, ∀ fuel ≥ bound, ∃ after, propagate fuel originCycle = some after ∧ after.length = 3 ∧
        ∀ (v : VarId) (var : TracedVar), originCycle[v]? = some var →
          ∃ var' : TracedVar, after[v]? = some var' ∧ var'.expr = var.expr ∧ Propagated originCycle after v var' :=
  ⟨originCycle_sound,propagate_complete originCycle originCycle_sound⟩

end Rsleigh.Decompile
