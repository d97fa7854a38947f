import Rsleigh.Lib.Paths
import Rsleigh.Lib.Postorder

namespace Rsleigh.Dominators

open Paths

-- A rooted graph as the iteration reads it: the order of the visits, numbers that follow it, and what leads to a node.
structure Flow (α : Type) where
  root : α
  order : List α
  number : α → Nat
  preds : α → List α

section Iteration

variable [DecidableEq α] (flow : Flow α) (fuel : Nat)

-- From a node to the first above it whose number is not past the limit.
def climb (idom : α → Option α) (limit : Nat) : Nat → α → Option α
  | 0, _ => none
  | steps + 1, node =>
    if limit < flow.number node then
      match idom node with
      | some above => climb idom limit steps above
      | none => none
    else some node

def intersect (idom : α → Option α) : Nat → α → α → Option α
  | 0, _, _ => none
  | steps + 1, left, right =>
    if left = right then some left
    else do
      let left ← climb flow idom (flow.number right) fuel left
      let right ← climb flow idom (flow.number left) fuel right
      intersect idom steps left right

-- A node above what was found and above one more node that leads here; those that have nothing above them do not count.
def meet (idom : α → Option α) (found : Option α) (pred : α) : Option (Option α) :=
  match idom pred, found with
  | none, _ => some found
  | some _, none => some (some pred)
  | some _, some other => (intersect flow fuel idom fuel other pred).map some

def newIdom (idom : α → Option α) (node : α) : Option (Option α) :=
  (flow.preds node).foldlM (meet flow fuel idom) none

def visit (state : (α → Option α) × Bool) (node : α) : Option ((α → Option α) × Bool) :=
  if node = flow.root then some state
  else do
    match ← newIdom flow fuel state.1 node with
    | none => some state
    | some above =>
      if state.1 node = some above then some state
      else some (Function.update state.1 node (some above), true)

def pass (idom : α → Option α) : Option ((α → Option α) × Bool) :=
  flow.order.foldlM (visit flow fuel) (idom, false)

def iterate : Nat → (α → Option α) → Option (α → Option α)
  | 0, _ => none
  | rounds + 1, idom => do
    let (idom, changed) ← pass flow fuel idom
    if changed then iterate rounds idom else some idom

def start : α → Option α :=
  Function.update (fun _ => none) flow.root (some flow.root)

end Iteration

-- What leads from one node to another.
def Flow.Edge (flow : Flow α) (a b : α) : Prop :=
  a ∈ flow.preds b

-- The order lists what the root reaches, the root first, and each other node after one that leads to it.
structure Flow.Numbered (flow : Flow α) : Prop where
  reached : ∀ node, node ∈ flow.order ↔ Relation.ReflTransGen flow.Edge flow.root node
  root : flow.number flow.root = 0
  distinct : ∀ a ∈ flow.order, ∀ b ∈ flow.order, flow.number a = flow.number b → a = b
  led : ∀ before node later, flow.order = before ++ node :: later → node ≠ flow.root →
    ∃ parent ∈ before, flow.Edge parent node ∧ flow.number parent < flow.number node

theorem postorder_numbered [DecidableEq α] {flow : Flow α} (ordered : Postorder.Ordered flow.Edge flow.root flow.order)
    (isPosition : flow.number = Postorder.positions flow.order) :
    flow.Numbered ∧ ∀ node ∈ flow.order, flow.number node < flow.order.length := by
  have place : ∀ node ∈ flow.order, flow.order[flow.number node]? = some node := fun node member =>
    isPosition ▸ Postorder.positions_get ordered.nodup member
  refine ⟨⟨ordered.reached,?_,?_,?_⟩,fun node member => (List.getElem?_eq_some_iff.mp (place node member)).1⟩
  · obtain ⟨later,isOrder⟩ := ordered.first
    rw [isPosition,isOrder]
    exact @Postorder.positions_split α _ [] later flow.root (isOrder ▸ ordered.nodup)
  · intro a isA b isB same
    have sameNode := place a isA
    rw [same,place b isB] at sameNode
    exact (Option.some.inj sameNode).symm
  · intro before node later split notRoot
    obtain ⟨parent,member,isEdge⟩ := ordered.led before node later split notRoot
    refine ⟨parent,member,isEdge,?_⟩
    obtain ⟨first,rest,isBefore⟩ := List.append_of_mem member
    have regrouped : flow.order = first ++ parent :: (rest ++ node :: later) := by simp [split,isBefore]
    have isParent : flow.number parent = first.length := by
      rw [isPosition,regrouped]
      exact Postorder.positions_split (regrouped ▸ ordered.nodup)
    have isNode : flow.number node = before.length := by
      rw [isPosition,split]
      exact Postorder.positions_split (split ▸ ordered.nodup)
    rw [isParent,isNode,isBefore,List.length_append,List.length_cons]
    omega

-- `d` is met on the way up from `b`.
def Up (idom : α → Option α) (b d : α) : Prop :=
  Relation.ReflTransGen (fun below above => idom below = some above) b d

-- A path on which the numbers stay above the one it starts at.
def High (flow : Flow α) (a b : α) : Prop :=
  Relation.ReflTransGen (fun x y => flow.Edge x y ∧ flow.number a ≤ flow.number y) a b

-- What is known is above in the order and reached by a high path, and no dominator is lost.
structure Sound (flow : Flow α) (idom : α → Option α) : Prop where
  root : idom flow.root = some flow.root
  inOrder : ∀ b d, idom b = some d → b ∈ flow.order
  known : ∀ b d, idom b = some d → ∃ above, idom d = some above
  lower : ∀ b d, idom b = some d → b ≠ flow.root → flow.number d < flow.number b
  high : ∀ b d, idom b = some d → High flow d b
  kept : ∀ b d e, idom b = some d → Dominates flow.Edge flow.root e b → Up idom b e

section Climb

variable {flow : Flow α} {idom : α → Option α}

theorem known_up (sound : Sound flow idom) (up : Up idom b d) (known : ∃ above, idom b = some above) :
    ∃ above, idom d = some above := by
  induction up with
  | refl => exact known
  | tail before isAbove ih => exact sound.known _ _ isAbove

theorem number_up (sound : Sound flow idom) (numbered : flow.Numbered) (up : Up idom b d) :
    flow.number d ≤ flow.number b := by
  induction up with
  | refl => exact Nat.le_refl _
  | @tail c d before isAbove ih =>
    by_cases isRoot : c = flow.root
    · rw [isRoot,sound.root] at isAbove
      rw [← Option.some.inj isAbove,numbered.root]
      exact Nat.zero_le _
    · exact Nat.le_trans (Nat.le_of_lt (sound.lower _ _ isAbove isRoot)) ih

theorem high_trans {a b c : α} (first : High flow a b) (second : High flow b c) (lower : flow.number a ≤ flow.number b) :
    High flow a c :=
  first.trans (Relation.ReflTransGen.mono (fun _ _ step => ⟨step.1,Nat.le_trans lower step.2⟩) _ _ second)

theorem high_up (sound : Sound flow idom) (numbered : flow.Numbered) (up : Up idom b d) : High flow d b := by
  induction up with
  | refl => exact .refl
  | @tail c d before isAbove ih =>
    exact high_trans (sound.high _ _ isAbove) ih (number_up sound numbered (.single isAbove))

theorem dominates_high {b c d : α} (high : High flow b c) (lower : flow.number d < flow.number b)
    (dominates : Dominates flow.Edge flow.root d c) : Dominates flow.Edge flow.root d b := by
  induction high with
  | refl => exact dominates
  | tail before step ih =>
    apply ih
    apply dominates_before dominates _ step.1
    rintro rfl
    omega

theorem up_cases {b d e : α} (up : Up idom b e) (isAbove : idom b = some d) (other : e ≠ b) : Up idom d e := by
  rcases Relation.ReflTransGen.cases_head up with same | ⟨above,isFirst,rest⟩
  · exact absurd same.symm other
  · rw [isAbove] at isFirst
    rw [Option.some.inj isFirst]
    exact rest

theorem climb_spec (sound : Sound flow idom) (numbered : flow.Numbered) {limit : Nat} : ∀ {steps : Nat} {node : α},
    (∃ above, idom node = some above) → flow.number node < steps →
    ∃ found, climb flow idom limit steps node = some found ∧ Up idom node found ∧ flow.number found ≤ limit ∧
      ∀ e, flow.number e ≤ limit → Up idom node e → Up idom found e := by
  intro steps
  induction steps with
  | zero => exact fun _ enough => absurd enough (Nat.not_lt_zero _)
  | succ steps ih =>
    rintro node ⟨above,isAbove⟩ enough
    unfold climb
    by_cases past : limit < flow.number node
    · have notRoot : node ≠ flow.root := by
        rintro rfl
        rw [numbered.root] at past
        exact Nat.not_lt_zero _ past
      have isLower := sound.lower _ _ isAbove notRoot
      obtain ⟨found,isFound,up,within,keeps⟩ := ih (sound.known _ _ isAbove) (by omega)
      simp only [if_pos past,isAbove]
      refine ⟨found,isFound,.head isAbove up,within,?_⟩
      intro e low upper
      apply keeps e low
      apply up_cases upper isAbove
      rintro rfl
      omega
    · rw [if_neg past]
      exact ⟨node,rfl,.refl,Nat.le_of_not_lt past,fun e _ up => up⟩

-- The first node that two ways up have in common.
structure Meets (idom : α → Option α) (left right found : α) : Prop where
  onLeft : Up idom left found
  onRight : Up idom right found
  lowest : ∀ e, Up idom left e → Up idom right e → Up idom found e

theorem intersect_spec [DecidableEq α] (sound : Sound flow idom) (numbered : flow.Numbered) {fuel : Nat}
    (enough : ∀ b d, idom b = some d → flow.number b < fuel) : ∀ {steps : Nat} {left right : α},
    (∃ above, idom left = some above) → (∃ above, idom right = some above) →
    flow.number left + flow.number right < steps →
    ∃ found, intersect flow fuel idom steps left right = some found ∧ Meets idom left right found := by
  intro steps
  induction steps with
  | zero => exact fun _ _ few => absurd few (Nat.not_lt_zero _)
  | succ steps ih =>
    intro left right leftKnown rightKnown few
    unfold intersect
    by_cases same : left = right
    · rw [if_pos same]
      exact ⟨left,rfl,.refl,same ▸ .refl,fun e up _ => up⟩
    · obtain ⟨leftAbove,isLeft⟩ := leftKnown
      obtain ⟨rightAbove,isRight⟩ := rightKnown
      obtain ⟨left',isLeft',leftUp,leftLow,leftKeeps⟩ :=
        @climb_spec α flow idom sound numbered (flow.number right) fuel left ⟨_,isLeft⟩ (enough _ _ isLeft)
      obtain ⟨right',isRight',rightUp,rightLow,rightKeeps⟩ :=
        @climb_spec α flow idom sound numbered (flow.number left') fuel right ⟨_,isRight⟩ (enough _ _ isRight)
      have differ : flow.number left ≠ flow.number right :=
        fun equal => same (numbered.distinct _ (sound.inOrder _ _ isLeft) _ (sound.inOrder _ _ isRight) equal)
      have leftDown := number_up sound numbered leftUp
      have rightDown := number_up sound numbered rightUp
      obtain ⟨found,isFound,meets⟩ := ih (known_up sound leftUp ⟨_,isLeft⟩)
        (known_up sound rightUp ⟨_,isRight⟩) (by omega)
      refine ⟨found,?_,leftUp.trans meets.onLeft,rightUp.trans meets.onRight,?_⟩
      · simp only [if_neg same,isLeft',isRight',Option.bind_eq_bind,Option.bind_some]
        exact isFound
      · intro e onLeft onRight
        have leftCommon := leftKeeps e (number_up sound numbered onRight) onLeft
        exact meets.lowest e leftCommon (rightKeeps e (number_up sound numbered leftCommon) onRight)

end Climb

-- What the nodes that lead to a node have in common, of those that have something above them.
structure Common (idom : α → Option α) (preds : List α) (found : Option α) : Prop where
  none : found = none → ∀ pred ∈ preds, idom pred = none
  known : ∀ above, found = some above → ∃ next, idom above = some next
  up : ∀ above, found = some above → ∀ pred ∈ preds, (∃ next, idom pred = some next) → Up idom pred above
  lowest : ∀ above, found = some above → ∀ e, (∀ pred ∈ preds, (∃ next, idom pred = some next) → Up idom pred e) →
    Up idom above e

section Common

variable {flow : Flow α} {idom : α → Option α}

theorem common_unknown {preds : List α} {found : Option α} {pred : α} (common : Common idom preds found)
    (unknown : idom pred = none) : Common idom (preds ++ [pred]) found where
  none := by
    intro isNone other member
    rcases List.mem_append.mp member with member | isLast
    · exact common.none isNone other member
    · rw [List.mem_singleton.mp isLast]
      exact unknown
  known := common.known
  up := by
    intro above isFound other member known
    rcases List.mem_append.mp member with member | isLast
    · exact common.up above isFound other member known
    · obtain ⟨next,isNext⟩ := known
      rw [List.mem_singleton.mp isLast,unknown] at isNext
      cases isNext
  lowest := fun above isFound e all =>
    common.lowest above isFound e fun other member => all other (List.mem_append_left _ member)

theorem common_first {preds : List α} {pred : α} (common : Common idom preds none)
    (known : ∃ next, idom pred = some next) : Common idom (preds ++ [pred]) (some pred) where
  none := by simp
  known := by
    intro above isFound
    rw [← Option.some.inj isFound]
    exact known
  up := by
    intro above isFound other member otherKnown
    rw [← Option.some.inj isFound]
    rcases List.mem_append.mp member with member | isLast
    · obtain ⟨next,isNext⟩ := otherKnown
      rw [common.none rfl other member] at isNext
      cases isNext
    · rw [List.mem_singleton.mp isLast]
      exact .refl
  lowest := by
    intro above isFound e all
    rw [← Option.some.inj isFound]
    exact all pred (List.mem_append_right _ (List.mem_singleton_self _)) known

theorem common_meets {preds : List α} {pred other found : α} (sound : Sound flow idom)
    (common : Common idom preds (some other)) (known : ∃ next, idom pred = some next)
    (meets : Meets idom other pred found) : Common idom (preds ++ [pred]) (some found) where
  none := by simp
  known := by
    intro above isFound
    rw [← Option.some.inj isFound]
    exact known_up sound meets.onRight known
  up := by
    intro above isFound node member nodeKnown
    rw [← Option.some.inj isFound]
    rcases List.mem_append.mp member with member | isLast
    · exact (common.up other rfl node member nodeKnown).trans meets.onLeft
    · rw [List.mem_singleton.mp isLast]
      exact meets.onRight
  lowest := by
    intro above isFound e all
    rw [← Option.some.inj isFound]
    apply meets.lowest
    · exact common.lowest other rfl e fun node member => all node (List.mem_append_left _ member)
    · exact all pred (List.mem_append_right _ (List.mem_singleton_self _)) known

variable [DecidableEq α]

theorem meet_common (sound : Sound flow idom) (numbered : flow.Numbered) {fuel : Nat}
    (enough : ∀ node ∈ flow.order, 2 * flow.number node < fuel) {preds : List α} {found : Option α} (pred : α)
    (common : Common idom preds found) :
    ∃ found', meet flow fuel idom found pred = some found' ∧ Common idom (preds ++ [pred]) found' := by
  unfold meet
  cases known : idom pred with
  | none => exact ⟨found,rfl,common_unknown common known⟩
  | some next =>
    cases found with
    | none => exact ⟨some pred,rfl,common_first common ⟨next,known⟩⟩
    | some other =>
      obtain ⟨above,otherKnown⟩ := common.known other rfl
      have otherBound := enough other (sound.inOrder _ _ otherKnown)
      have predBound := enough pred (sound.inOrder _ _ known)
      obtain ⟨found,isFound,meets⟩ := @intersect_spec α flow idom _ sound numbered fuel
        (fun b d isAbove => by
          have := enough b (sound.inOrder _ _ isAbove)
          omega) fuel other pred ⟨above,otherKnown⟩ ⟨next,known⟩ (by omega)
      refine ⟨some found,?_,common_meets sound common ⟨next,known⟩ meets⟩
      dsimp only
      rw [isFound]
      rfl

theorem foldl_common (sound : Sound flow idom) (numbered : flow.Numbered) {fuel : Nat}
    (enough : ∀ node ∈ flow.order, 2 * flow.number node < fuel) : ∀ {rest preds : List α} {found : Option α},
    Common idom preds found →
    ∃ found', rest.foldlM (meet flow fuel idom) found = some found' ∧ Common idom (preds ++ rest) found' := by
  intro rest
  induction rest with
  | nil =>
    intro preds found common
    exact ⟨found,rfl,by simpa using common⟩
  | cons pred rest ih =>
    intro preds found common
    obtain ⟨middle,isMiddle,middleCommon⟩ := meet_common sound numbered enough pred common
    obtain ⟨last,isLast,lastCommon⟩ := ih middleCommon
    refine ⟨last,?_,by simpa using lastCommon⟩
    rw [List.foldlM_cons,isMiddle]
    exact isLast

theorem newIdom_common (sound : Sound flow idom) (numbered : flow.Numbered) {fuel : Nat}
    (enough : ∀ node ∈ flow.order, 2 * flow.number node < fuel) (node : α) :
    ∃ found, newIdom flow fuel idom node = some found ∧ Common idom (flow.preds node) found :=
  @foldl_common α flow idom _ sound numbered fuel enough (flow.preds node) [] none ⟨by simp,by simp,by simp,by simp⟩

end Common

section Update

variable [DecidableEq α] {flow : Flow α} {idom : α → Option α}

theorem up_below (sound : Sound flow idom) (numbered : flow.Numbered) {node b e : α} {new : Option α}
    (lower : flow.number b < flow.number node) (up : Up idom b e) : Up (Function.update idom node new) b e := by
  induction up with
  | refl => exact .refl
  | @tail c d before isAbove ih =>
    refine ih.tail ?_
    rw [Function.update_of_ne,isAbove]
    rintro rfl
    exact absurd (number_up sound numbered before) (by omega)

theorem up_update {node b e : α} {new : Option α} (up : Up idom b e) :
    Up (Function.update idom node new) b e ∨
      Up (Function.update idom node new) b node ∧ Up idom b node ∧ Up idom node e ∧ e ≠ node := by
  induction up using Relation.ReflTransGen.head_induction_on with
  | refl => exact Or.inl .refl
  | @head b d isAbove rest ih =>
    by_cases here : b = node
    · subst here
      by_cases isEnd : e = b
      · exact Or.inl (isEnd ▸ .refl)
      · exact Or.inr ⟨.refl,.refl,rest.head isAbove,isEnd⟩
    · have stays : Function.update idom node new b = some d := by rw [Function.update_of_ne here,isAbove]
      rcases ih with same | ⟨newUp,oldUp,after,other⟩
      · exact Or.inl (same.head stays)
      · exact Or.inr ⟨newUp.head stays,oldUp.head isAbove,after,other⟩

theorem sound_update (sound : Sound flow idom) (numbered : flow.Numbered) {node above : α} (notRoot : node ≠ flow.root)
    (member : node ∈ flow.order) (common : Common idom (flow.preds node) (some above))
    (led : ∃ pred ∈ flow.preds node, (∃ next, idom pred = some next) ∧ flow.number pred < flow.number node) :
    Sound flow (Function.update idom node (some above)) := by
  obtain ⟨pred,isPred,predKnown,predLower⟩ := led
  have upPred := common.up above rfl pred isPred predKnown
  have lower : flow.number above < flow.number node :=
    Nat.lt_of_le_of_lt (number_up sound numbered upPred) predLower
  have stillKnown : ∀ d next, idom d = some next → ∃ next, Function.update idom node (some above) d = some next := by
    intro d next isNext
    by_cases here : d = node
    · exact ⟨above,by rw [here,Function.update_self]⟩
    · exact ⟨next,by rw [Function.update_of_ne here,isNext]⟩
  have dominators : ∀ e, e ≠ node → Dominates flow.Edge flow.root e node →
      Up (Function.update idom node (some above)) node e := by
    intro e other dominates
    have common := common.lowest above rfl e fun p isPred ⟨next,known⟩ =>
      sound.kept p next e known (dominates_before dominates other isPred)
    exact .head (Function.update_self _ _ _) (up_below sound numbered lower common)
  refine ⟨?_,?_,?_,?_,?_,?_⟩
  · rw [Function.update_of_ne notRoot.symm]
    exact sound.root
  · intro b d isAbove
    by_cases here : b = node
    · rw [here]
      exact member
    · rw [Function.update_of_ne here] at isAbove
      exact sound.inOrder b d isAbove
  · intro b d isAbove
    by_cases here : b = node
    · rw [here,Function.update_self] at isAbove
      obtain ⟨next,known⟩ := common.known above rfl
      rw [← Option.some.inj isAbove]
      exact stillKnown _ _ known
    · rw [Function.update_of_ne here] at isAbove
      obtain ⟨next,known⟩ := sound.known b d isAbove
      exact stillKnown _ _ known
  · intro b d isAbove other
    by_cases here : b = node
    · rw [here,Function.update_self] at isAbove
      rw [here,← Option.some.inj isAbove]
      exact lower
    · rw [Function.update_of_ne here] at isAbove
      exact sound.lower b d isAbove other
  · intro b d isAbove
    by_cases here : b = node
    · rw [here,Function.update_self] at isAbove
      rw [here,← Option.some.inj isAbove]
      exact (high_up sound numbered upPred).tail ⟨isPred,Nat.le_of_lt lower⟩
    · rw [Function.update_of_ne here] at isAbove
      exact sound.high b d isAbove
  · intro b d e isAbove dominates
    by_cases here : b = node
    · rw [here] at dominates ⊢
      by_cases same : e = node
      · rw [same]
        exact .refl
      · exact dominators e same dominates
    · rw [Function.update_of_ne here] at isAbove
      rcases up_update (sound.kept b d e isAbove dominates) with stays | ⟨newUp,oldUp,after,other⟩
      · exact stays
      · obtain ⟨next,isNext⟩ := known_up sound oldUp ⟨d,isAbove⟩
        have eLower : flow.number e < flow.number node :=
          Nat.lt_of_le_of_lt (number_up sound numbered (up_cases after isNext other)) (sound.lower _ _ isNext notRoot)
        exact newUp.trans (dominators e other (dominates_high (high_up sound numbered oldUp) eLower dominates))

end Update

section Pass

variable [DecidableEq α] {flow : Flow α} {idom : α → Option α}

-- The nodes above which something is known.
def Known (idom : α → Option α) (nodes : List α) : Prop :=
  ∀ node ∈ nodes, ∃ above, idom node = some above

-- What is above these nodes is on all paths to them up to a length.
def Bounded (flow : Flow α) (idom : α → Option α) (bound : Nat) (nodes : List α) : Prop :=
  ∀ b ∈ nodes, b ≠ flow.root → ∀ d, idom b = some d → DominatesWithin flow.Edge flow.root bound d b

-- A visit sets what is above a node to what those that lead to it have in common.
structure Visited (flow : Flow α) (fuel : Nat) (idom : α → Option α) (node above : α) : Prop where
  common : Common idom (flow.preds node) (some above)
  sound : Sound flow (Function.update idom node (some above))
  result : ∀ changed, visit flow fuel (idom,changed) node =
    some (Function.update idom node (some above),changed || decide (idom node ≠ some above))

theorem visit_visited (sound : Sound flow idom) (numbered : flow.Numbered) {fuel : Nat}
    (enough : ∀ node ∈ flow.order, 2 * flow.number node < fuel) {before later : List α} {node : α}
    (split : flow.order = before ++ node :: later) (known : Known idom before) (notRoot : node ≠ flow.root) :
    ∃ above, Visited flow fuel idom node above := by
  obtain ⟨parent,isBefore,isEdge,lower⟩ := numbered.led before node later split notRoot
  obtain ⟨found,isFound,common⟩ := newIdom_common sound numbered enough node
  have member : node ∈ flow.order := by
    rw [split]
    exact List.mem_append_right _ List.mem_cons_self
  cases found with
  | none =>
    obtain ⟨above,isAbove⟩ := known parent isBefore
    rw [common.none rfl parent isEdge] at isAbove
    cases isAbove
  | some above =>
    refine ⟨above,common,sound_update sound numbered notRoot member common ⟨parent,isEdge,known parent isBefore,lower⟩,?_⟩
    intro changed
    unfold visit
    rw [if_neg notRoot,isFound]
    by_cases same : idom node = some above
    · have stays : Function.update idom node (some above) = idom := by rw [← same,Function.update_eq_self]
      simp [same,stays]
    · simp [same]

theorem visit_root {fuel : Nat} {changed : Bool} : visit flow fuel (idom,changed) flow.root = some (idom,changed) := by
  unfold visit
  rw [if_pos rfl]

theorem known_update {nodes : List α} {node above : α} (known : Known idom nodes) :
    Known (Function.update idom node (some above)) (nodes ++ [node]) := by
  intro other member
  by_cases here : other = node
  · exact ⟨above,by rw [here,Function.update_self]⟩
  · rw [Function.update_of_ne here]
    rcases List.mem_append.mp member with member | isLast
    · exact known other member
    · exact absurd (List.mem_singleton.mp isLast) here

-- What a pass over the rest of the order does.
structure Passed (flow : Flow α) (idom idom' : α → Option α) (changed changed' : Bool) : Prop where
  sound : Sound flow idom'
  known : Known idom' flow.order
  unchanged : changed' = false → changed = false ∧ idom' = idom

theorem foldl_passed (numbered : flow.Numbered) {fuel : Nat}
    (enough : ∀ node ∈ flow.order, 2 * flow.number node < fuel) : ∀ {rest before : List α} {idom : α → Option α}
    {changed : Bool}, flow.order = before ++ rest → Sound flow idom → Known idom before →
    ∃ idom' changed', rest.foldlM (visit flow fuel) (idom,changed) = some (idom',changed') ∧
      Passed flow idom idom' changed changed' := by
  intro rest
  induction rest with
  | nil =>
    intro before idom changed split sound known
    rw [List.append_nil] at split
    exact ⟨idom,changed,rfl,sound,split ▸ known,fun isFalse => ⟨isFalse,rfl⟩⟩
  | cons node rest ih =>
    intro before idom changed split sound known
    have regrouped : flow.order = (before ++ [node]) ++ rest := by simpa using split
    by_cases isRoot : node = flow.root
    · have stillKnown : Known idom (before ++ [node]) := by
        intro other member
        rcases List.mem_append.mp member with member | isLast
        · exact known other member
        · exact ⟨flow.root,by rw [List.mem_singleton.mp isLast,isRoot,sound.root]⟩
      rw [List.foldlM_cons,isRoot,visit_root]
      exact ih regrouped sound stillKnown
    · obtain ⟨above,visited⟩ := visit_visited sound numbered enough split known isRoot
      rw [List.foldlM_cons,visited.result]
      obtain ⟨idom',changed',isResult,passed⟩ := ih regrouped visited.sound (known_update known)
      refine ⟨idom',changed',isResult,passed.sound,passed.known,?_⟩
      intro isFalse
      obtain ⟨noChange,isIdom⟩ := passed.unchanged isFalse
      rw [Bool.or_eq_false_iff,decide_eq_false_iff_not,not_not] at noChange
      exact ⟨noChange.1,by rw [isIdom,← noChange.2,Function.update_eq_self]⟩

theorem up_within {bound : Nat} (sound : Sound flow idom) (bounded : Bounded flow idom bound flow.order) {b d : α}
    (up : Up idom b d) : DominatesWithin flow.Edge flow.root bound d b := by
  induction up with
  | refl => exact fun nodes path _ => path_last path
  | @tail c d before isAbove ih =>
    by_cases isRoot : c = flow.root
    · rw [isRoot,sound.root] at isAbove
      rw [← Option.some.inj isAbove]
      exact fun nodes path _ => path_root path
    · exact within_trans (bounded c (sound.inOrder _ _ isAbove) isRoot d isAbove) ih

theorem common_within (numbered : flow.Numbered) {bound : Nat} (sound : Sound flow idom) (known : Known idom flow.order)
    (bounded : Bounded flow idom bound flow.order) {node above : α} (notRoot : node ≠ flow.root)
    (common : Common idom (flow.preds node) (some above)) :
    DominatesWithin flow.Edge flow.root (bound + 1) above node := by
  apply within_succ notRoot
  intro pred isEdge reached
  exact up_within sound bounded (common.up above rfl pred isEdge (known pred ((numbered.reached pred).mpr reached)))

theorem bounded_update {bound : Nat} {nodes : List α} {node above : α} (bounded : Bounded flow idom bound nodes)
    (within : DominatesWithin flow.Edge flow.root bound above node) :
    Bounded flow (Function.update idom node (some above)) bound (nodes ++ [node]) := by
  intro b member notRoot d isAbove
  by_cases here : b = node
  · rw [here,Function.update_self] at isAbove
    rw [here,← Option.some.inj isAbove]
    exact within
  · rw [Function.update_of_ne here] at isAbove
    rcases List.mem_append.mp member with member | isLast
    · exact bounded b member notRoot d isAbove
    · exact absurd (List.mem_singleton.mp isLast) here

theorem foldl_bounded (numbered : flow.Numbered) {fuel bound : Nat}
    (enough : ∀ node ∈ flow.order, 2 * flow.number node < fuel) : ∀ {rest before : List α} {idom idom' : α → Option α}
    {changed changed' : Bool}, flow.order = before ++ rest → Sound flow idom → Known idom flow.order →
    Bounded flow idom bound flow.order → Bounded flow idom (bound + 1) before →
    rest.foldlM (visit flow fuel) (idom,changed) = some (idom',changed') →
    Bounded flow idom' (bound + 1) flow.order := by
  intro rest
  induction rest with
  | nil =>
    intro before idom idom' changed changed' split sound known bounded longer isResult
    rw [List.append_nil] at split
    cases isResult
    rw [split]
    exact longer
  | cons node rest ih =>
    intro before idom idom' changed changed' split sound known bounded longer isResult
    have regrouped : flow.order = (before ++ [node]) ++ rest := by simpa using split
    by_cases isRoot : node = flow.root
    · rw [List.foldlM_cons,isRoot,visit_root] at isResult
      refine ih regrouped sound known bounded ?_ isResult
      intro b member notRoot
      rcases List.mem_append.mp member with member | isLast
      · exact longer b member notRoot
      · exact absurd ((List.mem_singleton.mp isLast).trans isRoot) notRoot
    · have inBefore : Known idom before := fun other member =>
        known other (split ▸ List.mem_append_left _ member)
      obtain ⟨above,visited⟩ := visit_visited sound numbered enough split inBefore isRoot
      have within := common_within numbered sound known bounded isRoot visited.common
      rw [List.foldlM_cons,visited.result] at isResult
      have stillBounded : Bounded flow (Function.update idom node (some above)) bound flow.order := by
        intro b member
        exact bounded_update bounded (fun nodes path short => within nodes path (Nat.le_succ_of_le short)) b
          (List.mem_append_left _ member)
      have stillKnown : Known (Function.update idom node (some above)) flow.order := fun other member =>
        known_update known other (List.mem_append_left _ member)
      exact ih regrouped visited.sound stillKnown stillBounded (bounded_update longer within) isResult

theorem bounded_immediately (numbered : flow.Numbered) (sound : Sound flow idom)
    (bounded : Bounded flow idom flow.order.length flow.order) {b d : α} (isAbove : idom b = some d)
    (notRoot : b ≠ flow.root) : ImmediatelyDominates flow.Edge flow.root d b where
  dominates := within_all (fun node reached => (numbered.reached node).mpr reached)
    (bounded b (sound.inOrder _ _ isAbove) notRoot d isAbove)
  strict := by
    rintro rfl
    exact Nat.lt_irrefl _ (sound.lower _ _ isAbove notRoot)
  closest := by
    intro e dominates other
    have up := up_cases (sound.kept b d e isAbove dominates) isAbove other
    exact within_all (fun node reached => (numbered.reached node).mpr reached) (up_within sound bounded up)

theorem visited_same (numbered : flow.Numbered) {fuel : Nat} (sound : Sound flow idom) (known : Known idom flow.order)
    (bounded : Bounded flow idom flow.order.length flow.order) {node above : α} (member : node ∈ flow.order)
    (notRoot : node ≠ flow.root) (visited : Visited flow fuel idom node above) : idom node = some above := by
  obtain ⟨d,isAbove⟩ := known node member
  have now := bounded_immediately numbered sound bounded isAbove notRoot
  have within := common_within numbered sound known bounded notRoot visited.common
  have newDominates : Dominates flow.Edge flow.root above node :=
    within_all (fun node reached => (numbered.reached node).mpr reached)
      (fun nodes path short => within nodes path (Nat.le_succ_of_le short))
  have newAbove : Function.update idom node (some above) node = some above := Function.update_self _ _ _
  have newStrict : above ≠ node := by
    rintro rfl
    exact Nat.lt_irrefl _ (visited.sound.lower _ _ newAbove notRoot)
  have down := number_up visited.sound numbered
    (up_cases (visited.sound.kept _ _ d newAbove now.dominates) newAbove now.strict)
  have up := number_up sound numbered (up_cases (sound.kept _ _ above isAbove newDominates) isAbove newStrict)
  obtain ⟨next,isNext⟩ := sound.known _ _ isAbove
  obtain ⟨newNext,isNewNext⟩ := visited.common.known above rfl
  rw [isAbove,numbered.distinct d (sound.inOrder _ _ isNext) above (sound.inOrder _ _ isNewNext) (Nat.le_antisymm down up)]

theorem foldl_settled (numbered : flow.Numbered) {fuel : Nat} (enough : ∀ node ∈ flow.order, 2 * flow.number node < fuel)
    (sound : Sound flow idom) (known : Known idom flow.order)
    (bounded : Bounded flow idom flow.order.length flow.order) : ∀ {rest before : List α} {changed : Bool},
    flow.order = before ++ rest → rest.foldlM (visit flow fuel) (idom,changed) = some (idom,changed) := by
  intro rest
  induction rest with
  | nil => exact fun _ => rfl
  | cons node rest ih =>
    intro before changed split
    have regrouped : flow.order = (before ++ [node]) ++ rest := by simpa using split
    by_cases isRoot : node = flow.root
    · rw [List.foldlM_cons,isRoot,visit_root]
      exact ih regrouped
    · obtain ⟨above,visited⟩ := visit_visited sound numbered enough split
        (fun other member => known other (split ▸ List.mem_append_left _ member)) isRoot
      have member : node ∈ flow.order := by
        rw [split]
        exact List.mem_append_right _ List.mem_cons_self
      have same := visited_same numbered sound known bounded member isRoot visited
      have stays : Function.update idom node (some above) = idom := by rw [← same,Function.update_eq_self]
      rw [List.foldlM_cons,visited.result,stays]
      simpa [same] using ih regrouped

end Pass

section Iterate

variable [DecidableEq α] {flow : Flow α} {idom : α → Option α}

theorem start_sound (numbered : flow.Numbered) : Sound flow (start flow) := by
  have onlyRoot : ∀ {b d : α}, start flow b = some d → b = flow.root ∧ d = flow.root := by
    intro b d isAbove
    unfold start at isAbove
    by_cases isRoot : b = flow.root
    · rw [isRoot,Function.update_self] at isAbove
      exact ⟨isRoot,(Option.some.inj isAbove).symm⟩
    · rw [Function.update_of_ne isRoot] at isAbove
      cases isAbove
  have root : start flow flow.root = some flow.root := Function.update_self _ _ _
  refine ⟨root,?_,?_,?_,?_,?_⟩
  · intro b d isAbove
    rw [(onlyRoot isAbove).1]
    exact (numbered.reached _).mpr .refl
  · intro b d isAbove
    exact ⟨flow.root,by rw [(onlyRoot isAbove).2,root]⟩
  · exact fun b d isAbove notRoot => absurd (onlyRoot isAbove).1 notRoot
  · intro b d isAbove
    rw [(onlyRoot isAbove).1,(onlyRoot isAbove).2]
    exact .refl
  · intro b d e isAbove dominates
    rw [(onlyRoot isAbove).1] at dominates ⊢
    rw [List.mem_singleton.mp (dominates _ .start)]
    exact .refl

theorem pass_passed (numbered : flow.Numbered) {fuel : Nat} (enough : ∀ node ∈ flow.order, 2 * flow.number node < fuel)
    (sound : Sound flow idom) :
    ∃ idom' changed, pass flow fuel idom = some (idom',changed) ∧ Passed flow idom idom' false changed :=
  @foldl_passed α _ flow numbered fuel enough flow.order [] idom false rfl sound fun _ member => absurd member (List.not_mem_nil)

theorem pass_bounded (numbered : flow.Numbered) {fuel bound : Nat}
    (enough : ∀ node ∈ flow.order, 2 * flow.number node < fuel) (sound : Sound flow idom)
    (known : Known idom flow.order) (bounded : Bounded flow idom bound flow.order) {idom' : α → Option α} {changed : Bool}
    (isPass : pass flow fuel idom = some (idom',changed)) : Bounded flow idom' (bound + 1) flow.order :=
  @foldl_bounded α _ flow numbered fuel bound enough flow.order [] idom idom' false changed rfl sound known bounded
    (fun _ member => absurd member (List.not_mem_nil)) isPass

omit [DecidableEq α] in
theorem bounded_zero : Bounded flow idom 0 flow.order := by
  intro b _ _ d _ nodes path short
  cases path with
  | start => exact absurd short (Nat.not_succ_le_zero _)
  | step before isEdge => exact absurd short (Nat.not_succ_le_zero _)

theorem pass_stable (numbered : flow.Numbered) {fuel : Nat} (enough : ∀ node ∈ flow.order, 2 * flow.number node < fuel)
    (sound : Sound flow idom) (known : Known idom flow.order) (isPass : pass flow fuel idom = some (idom,false)) :
    ∀ bound, Bounded flow idom bound flow.order := by
  intro bound
  induction bound with
  | zero => exact bounded_zero
  | succ bound ih => exact pass_bounded numbered enough sound known ih isPass

-- What the iteration ends with.
structure Settled (flow : Flow α) (idom : α → Option α) : Prop where
  sound : Sound flow idom
  known : Known idom flow.order
  bounded : Bounded flow idom flow.order.length flow.order

-- Each pass settles the paths that are one longer, and once all are settled there is no change.
theorem iterate_known (numbered : flow.Numbered) {fuel : Nat} (enough : ∀ node ∈ flow.order, 2 * flow.number node < fuel) :
    ∀ {rounds bound : Nat} {idom : α → Option α}, Sound flow idom → Known idom flow.order →
    Bounded flow idom bound flow.order → flow.order.length < rounds + bound → bound ≤ flow.order.length →
    ∃ idom', iterate flow fuel rounds idom = some idom' ∧ Settled flow idom' := by
  intro rounds
  induction rounds with
  | zero =>
    intro bound idom _ _ _ few within
    omega
  | succ rounds ih =>
    intro bound idom sound known bounded few within
    obtain ⟨idom',changed,isPass,passed⟩ := pass_passed numbered enough sound
    have isIterate : iterate flow fuel (rounds + 1) idom =
        if changed then iterate flow fuel rounds idom' else some idom' := by
      conv_lhs => unfold iterate
      rw [isPass]
      rfl
    rw [isIterate]
    cases changed with
    | false =>
      obtain ⟨_,isIdom⟩ := passed.unchanged rfl
      subst isIdom
      exact ⟨idom',rfl,sound,known,pass_stable numbered enough sound known isPass _⟩
    | true =>
      have longer := pass_bounded numbered enough sound known bounded isPass
      have notAll : bound ≠ flow.order.length := by
        rintro rfl
        have settled := @foldl_settled α _ flow idom numbered fuel enough sound known bounded flow.order [] false rfl
        unfold pass at isPass
        rw [settled] at isPass
        cases isPass
      exact ih passed.sound passed.known longer (by omega) (by omega)

theorem iterate_start (numbered : flow.Numbered) {fuel rounds : Nat}
    (enough : ∀ node ∈ flow.order, 2 * flow.number node < fuel) (many : flow.order.length + 1 < rounds) :
    ∃ idom, iterate flow fuel rounds (start flow) = some idom ∧ Settled flow idom := by
  obtain ⟨rounds,rfl⟩ := Nat.exists_eq_succ_of_ne_zero (Nat.ne_of_gt (Nat.zero_lt_of_lt many))
  obtain ⟨idom,changed,isPass,passed⟩ := pass_passed numbered enough (start_sound numbered)
  have isIterate : iterate flow fuel (rounds + 1) (start flow) =
      if changed then iterate flow fuel rounds idom else some idom := by
    conv_lhs => unfold iterate
    rw [isPass]
    rfl
  rw [isIterate]
  cases changed with
  | false =>
    obtain ⟨_,isIdom⟩ := passed.unchanged rfl
    rw [← isIdom] at isPass
    exact ⟨idom,rfl,passed.sound,passed.known,pass_stable numbered enough passed.sound passed.known isPass _⟩
  | true => exact iterate_known numbered enough passed.sound passed.known bounded_zero (by omega) (Nat.zero_le _)

theorem iterate_immediately (numbered : flow.Numbered) {fuel : Nat}
    (enough : 2 * flow.order.length + 1 < fuel) (low : ∀ node ∈ flow.order, flow.number node < flow.order.length) :
    ∃ idom, iterate flow fuel fuel (start flow) = some idom ∧ idom flow.root = some flow.root ∧
      (∀ b, Relation.ReflTransGen flow.Edge flow.root b → b ≠ flow.root →
        ∃ d, idom b = some d ∧ ImmediatelyDominates flow.Edge flow.root d b) ∧
      ∀ b, ¬Relation.ReflTransGen flow.Edge flow.root b → idom b = none := by
  obtain ⟨idom,isIterate,settled⟩ := @iterate_start α _ flow numbered fuel fuel
    (fun node member => by
      have := low node member
      omega) (by omega)
  refine ⟨idom,isIterate,settled.sound.root,?_,?_⟩
  · intro b reached notRoot
    obtain ⟨d,isAbove⟩ := settled.known b ((numbered.reached b).mpr reached)
    exact ⟨d,isAbove,bounded_immediately numbered settled.sound settled.bounded isAbove notRoot⟩
  · intro b unreached
    by_contra known
    obtain ⟨d,isAbove⟩ := Option.ne_none_iff_exists'.mp known
    exact unreached ((numbered.reached b).mp (settled.sound.inOrder b d isAbove))

end Iterate

end Rsleigh.Dominators
