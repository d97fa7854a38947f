import Mathlib.Data.Finset.Card
import Mathlib.Data.List.Nodup
import Mathlib.Logic.Function.Basic
import Mathlib.Logic.Relation

namespace Rsleigh.Tarjan

-- The last node that was entered is on top of the stack, and the component emitted last is the last of the list.
structure State (α : Type) where
  counter : Nat
  stack : List α
  indices : α → Option Nat
  lowlinks : α → Nat
  onStack : α → Bool
  components : List (List α)

section Search

variable [DecidableEq α] (next : α → List α)

namespace State

def start : State α := ⟨0, [], fun _ => none, fun _ => 0, fun _ => false, []⟩

def enter (s : State α) (node : α) : State α where
  counter := s.counter + 1
  stack := node :: s.stack
  indices := Function.update s.indices node (some s.counter)
  lowlinks := Function.update s.lowlinks node s.counter
  onStack := Function.update s.onStack node true
  components := s.components

def lower (s : State α) (node : α) (value : Nat) : State α :=
  { s with lowlinks := Function.update s.lowlinks node (min (s.lowlinks node) value) }

end State

-- What is above a node on the stack, the node with it, and what is below.
def popTo (node : α) : List α → Option (List α × List α)
  | [] => none
  | top :: rest => if top = node then some ([top], rest) else (popTo node rest).map fun popped => (top :: popped.1, popped.2)

def State.finish (s : State α) (node : α) : Option (State α) :=
  if some (s.lowlinks node) = s.indices node then
    (popTo node s.stack).map fun popped =>
      { s with
        stack := popped.2
        onStack := fun other => if other ∈ popped.1 then false else s.onStack other
        components := s.components ++ [popped.1] }
  else some s

def scan (visit : α → State α → Option (State α)) (node : α) (s : State α) (other : α) : Option (State α) :=
  if s.indices other = none then (visit other s).map fun s => s.lower node (s.lowlinks other)
  else if s.onStack other then some (s.lower node ((s.indices other).getD 0))
  else some s

-- The search from a node that was not entered, as deep as the fuel.
def visit : Nat → α → State α → Option (State α)
  | 0, _, _ => none
  | fuel + 1, node, s => do
    let s ← (next node).foldlM (scan (visit fuel) node) (s.enter node)
    s.finish node

def visitRoot (fuel : Nat) (s : State α) (root : α) : Option (State α) :=
  if s.indices root = none then visit next fuel root s else some s

def components (fuel : Nat) (roots : List α) : Option (List (List α)) :=
  (roots.foldlM (visitRoot next fuel) .start).map State.components

end Search

section Reach

variable (next : α → List α)

abbrev Reach : α → α → Prop := Relation.ReflTransGen fun a b => b ∈ next a

-- Components that are strongly connected, each with the earlier ones closed under edges.
structure Emitted (found : List (List α)) : Prop where
  nodup : found.flatten.Nodup
  filled : ∀ component ∈ found, component ≠ []
  strong : ∀ component ∈ found, ∀ a ∈ component, ∀ b ∈ component, Reach next a b
  back : ∀ before component after, found = before ++ component :: after → ∀ a ∈ component, ∀ b ∈ next a,
    b ∈ component ∨ b ∈ before.flatten

variable {next} {found : List (List α)}

theorem emitted_step (emitted : Emitted next found) (member : a ∈ found.flatten) (isEdge : b ∈ next a) :
    b ∈ found.flatten := by
  obtain ⟨component,inside,here⟩ := List.mem_flatten.mp member
  obtain ⟨before,after,split⟩ := List.append_of_mem inside
  rcases emitted.back before component after split a here b isEdge with same | earlier
  · exact List.mem_flatten.mpr ⟨component,inside,same⟩
  · rw [split,List.flatten_append]
    exact List.mem_append_left _ earlier

theorem emitted_reach (emitted : Emitted next found) (member : a ∈ found.flatten) (reach : Reach next a b) :
    b ∈ found.flatten := by
  induction reach with
  | refl => exact member
  | tail _ isEdge ih => exact emitted_step emitted ih isEdge

theorem emitted_before {before after : List (List α)} {component : List α}
    (emitted : Emitted next (before ++ component :: after)) (member : a ∈ component) (reach : Reach next a b) :
    b ∈ component ∨ b ∈ before.flatten := by
  induction reach with
  | refl => exact .inl member
  | tail _ isEdge ih =>
    rcases ih with same | earlier
    · exact emitted.back before component after rfl _ same _ isEdge
    · obtain ⟨other,inside,here⟩ := List.mem_flatten.mp earlier
      obtain ⟨first,rest,rfl⟩ := List.append_of_mem inside
      have split : first ++ other :: rest ++ component :: after = first ++ other :: (rest ++ component :: after) := by simp
      rcases emitted.back first other (rest ++ component :: after) split _ here _ isEdge with same | first_
      · exact .inr (List.mem_flatten.mpr ⟨other,inside,same⟩)
      · refine .inr ?_
        rw [List.flatten_append]
        exact List.mem_append_left _ first_

theorem component_mem (emitted : Emitted next found) {component : List α} (member : component ∈ found) (inside : a ∈ component) :
    b ∈ component ↔ Reach next a b ∧ Reach next b a := by
  constructor
  · intro here
    exact ⟨emitted.strong component member a inside b here,emitted.strong component member b here a inside⟩
  · rintro ⟨onward,back⟩
    obtain ⟨before,after,rfl⟩ := List.append_of_mem member
    rcases emitted_before emitted inside onward with same | earlier
    · exact same
    · obtain ⟨other,isOther,here⟩ := List.mem_flatten.mp earlier
      obtain ⟨first,rest,rfl⟩ := List.append_of_mem isOther
      have regrouped : first ++ other :: rest ++ component :: after = first ++ other :: (rest ++ component :: after) := by simp
      rw [regrouped] at emitted
      have nodup := emitted.nodup
      have again : a ∈ (rest ++ component :: after).flatten := by
        simp only [List.flatten_append,List.flatten_cons,List.mem_append]
        exact .inr (.inl inside)
      rw [List.flatten_append,List.flatten_cons] at nodup
      have parts := List.nodup_append.mp nodup
      rcases emitted_before emitted here back with same | sooner
      · exact ((List.nodup_append.mp parts.2.1).2.2 a same a again rfl).elim
      · exact (parts.2.2 a sooner a (List.mem_append_right _ again) rfl).elim

theorem share_component (emitted : Emitted next found) :
    (∃ component ∈ found, a ∈ component ∧ b ∈ component) ↔ a ∈ found.flatten ∧ Reach next a b ∧ Reach next b a := by
  constructor
  · rintro ⟨component,member,inside,here⟩
    exact ⟨List.mem_flatten.mpr ⟨component,member,inside⟩,(component_mem emitted member inside).mp here⟩
  · rintro ⟨isFound,mutual_⟩
    obtain ⟨component,member,inside⟩ := List.mem_flatten.mp isFound
    exact ⟨component,member,inside,(component_mem emitted member inside).mpr mutual_⟩

theorem edge_backward (emitted : Emitted next found) {i j : Nat} (isOne : found[i]? = some one) (isTwo : found[j]? = some two)
    (inOne : a ∈ one) (inTwo : b ∈ two) (isEdge : b ∈ next a) : j ≤ i := by
  by_contra later
  obtain ⟨bound,isI⟩ := List.getElem?_eq_some_iff.mp isOne
  have split : found = found.take i ++ one :: found.drop (i + 1) := by
    rw [← isI,List.cons_getElem_drop_succ,List.take_append_drop]
  have isLate : two ∈ found.drop (i + 1) := by
    refine List.mem_of_getElem? (i := j - (i + 1)) ?_
    rw [List.getElem?_drop,show i + 1 + (j - (i + 1)) = j by omega,isTwo]
  have late : b ∈ (found.drop (i + 1)).flatten := List.mem_flatten.mpr ⟨two,isLate,inTwo⟩
  have nodup := emitted.nodup
  rw [split,List.flatten_append,List.flatten_cons] at nodup
  have parts := List.nodup_append.mp nodup
  rcases emitted.back _ _ _ split a inOne b isEdge with same | earlier
  · exact (List.nodup_append.mp parts.2.1).2.2 b same b late rfl
  · exact parts.2.2 b earlier b (List.mem_append_right _ late) rfl

end Reach

section Invariant

variable (next : α → List α)

def State.index (s : State α) (node : α) : Nat := (s.indices node).getD 0

-- `path` are the nodes whose search goes on.
structure Inv (s : State α) (path : List α) : Prop where
  entered : ∀ a, s.indices a ≠ none ↔ a ∈ s.stack ∨ a ∈ s.components.flatten
  onStack : ∀ a, s.onStack a = true ↔ a ∈ s.stack
  below : ∀ a n, s.indices a = some n → n < s.counter
  sorted : s.stack.Pairwise fun a b => s.index b < s.index a
  active : ∀ a ∈ path, a ∈ s.stack
  closed : ∀ a, s.indices a ≠ none → a ∉ path → ∀ b ∈ next a, s.indices b ≠ none
  reaches : ∀ a ∈ path, ∀ b ∈ s.stack, s.index a ≤ s.index b → Reach next a b
  reached : ∀ b ∈ s.stack, ∃ a ∈ path, s.index a ≤ s.index b ∧ Reach next b a
  emitted : Emitted next s.components
  apart : ∀ a ∈ s.stack, a ∉ s.components.flatten

-- What the search from a node does to a state.
structure Visited (s s' : State α) (node : α) (path : List α) : Prop where
  inv : Inv next s' path
  stack : ∃ new, s'.stack = new ++ s.stack ∧
    ∀ a ∈ new, ∀ b ∈ s.stack, b ∈ next a → s'.lowlinks node ≤ s'.index b
  kept : ∀ a n, s.indices a = some n → s'.indices a = some n
  lowlinks : ∀ a, s.indices a ≠ none → s'.lowlinks a = s.lowlinks a
  entered : s'.indices node ≠ none
  low : ∃ a, Reach next node a ∧ s'.indices a = some (s'.lowlinks node) ∧ (a ∈ s'.stack ∨ s.counter ≤ s'.lowlinks node)
  fresh : ∀ a, s'.indices a ≠ none → s.indices a ≠ none ∨ Reach next node a

-- The search from a node, some of its edges done.
structure Scanning (s t : State α) (node : α) (path edges : List α) : Prop where
  inv : Inv next t (node :: path)
  stack : ∃ new, t.stack = new ++ node :: s.stack ∧
    ∀ a ∈ new, ∀ b ∈ s.stack, b ∈ next a → t.lowlinks node ≤ t.index b
  edges : ∀ b ∈ edges, t.indices b ≠ none ∧ (b ∈ s.stack → t.lowlinks node ≤ t.index b)
  kept : ∀ a n, s.indices a = some n → t.indices a = some n
  own : t.indices node = some s.counter
  lowlinks : ∀ a, s.indices a ≠ none → t.lowlinks a = s.lowlinks a
  low : ∃ a ∈ t.stack, Reach next node a ∧ t.indices a = some (t.lowlinks node)
  least : t.lowlinks node ≤ s.counter
  fresh : ∀ a, t.indices a ≠ none → s.indices a ≠ none ∨ Reach next node a

variable {next} {s t : State α} {node : α} {path : List α}

theorem index_some {n : Nat} (isIndex : s.indices a = some n) : s.index a = n := by
  simp [State.index,isIndex]

theorem Inv.on_stack (inv : Inv next s path) (member : a ∈ s.stack) : s.indices a ≠ none :=
  (inv.entered a).mpr (.inl member)

theorem known_kept (kept : ∀ a n, s.indices a = some n → t.indices a = some n) (known : s.indices a ≠ none) :
    t.indices a ≠ none := by
  obtain ⟨n,isIndex⟩ := Option.ne_none_iff_exists'.mp known
  rw [kept a n isIndex]
  exact Option.some_ne_none n

theorem index_kept (kept : ∀ a n, s.indices a = some n → t.indices a = some n) (known : s.indices a ≠ none) :
    t.index a = s.index a := by
  obtain ⟨n,isIndex⟩ := Option.ne_none_iff_exists'.mp known
  rw [index_some isIndex,index_some (kept a n isIndex)]

theorem Inv.index_below (inv : Inv next s path) (known : s.indices a ≠ none) : s.index a < s.counter := by
  obtain ⟨n,isIndex⟩ := Option.ne_none_iff_exists'.mp known
  rw [index_some isIndex]
  exact inv.below a n isIndex

theorem Inv.nodup (inv : Inv next s path) : s.stack.Nodup :=
  inv.sorted.imp fun lower same => by
    rw [same] at lower
    exact Nat.lt_irrefl _ lower

variable {edges : List α}

theorem Scanning.known (scanning : Scanning next s t node path edges) (inv : Inv next s path) (known : s.indices a ≠ none) :
    a ≠ node := by
  rintro rfl
  have below := inv.index_below known
  rw [← index_kept scanning.kept known,index_some scanning.own] at below
  exact Nat.lt_irrefl _ below

theorem Scanning.stacked (scanning : Scanning next s t node path edges) (member : a ∈ s.stack) : a ∈ t.stack := by
  obtain ⟨new,isStack,_⟩ := scanning.stack
  rw [isStack]
  exact List.mem_append_right _ (List.mem_cons_of_mem _ member)

variable {new : List α}

theorem Scanning.above (scanning : Scanning next s t node path edges) (isStack : t.stack = new ++ node :: s.stack)
    (member : a ∈ new) : t.index node < t.index a := by
  have sorted := scanning.inv.sorted
  rw [isStack] at sorted
  exact (List.pairwise_append.mp sorted).2.2 a member node List.mem_cons_self

theorem Scanning.beneath (scanning : Scanning next s t node path edges) (isStack : t.stack = new ++ node :: s.stack)
    (member : b ∈ s.stack) : b ∉ new ++ [node] := by
  have nodup := scanning.inv.nodup
  have shape : new ++ node :: s.stack = (new ++ [node]) ++ s.stack := by simp
  rw [isStack,shape] at nodup
  exact fun inside => (List.nodup_append.mp nodup).2.2 b inside b member rfl

theorem scan_emitted (scanning : Scanning next s t node path edges) (known : t.indices b ≠ none) (apart : b ∉ t.stack) :
    Scanning next s t node path (edges ++ [b]) := by
  refine { scanning with edges := fun c member => ?_ }
  rcases List.mem_append.mp member with done | isLast
  · exact scanning.edges c done
  · obtain rfl := List.mem_singleton.mp isLast
    exact ⟨known,fun onStack => absurd (scanning.stacked onStack) apart⟩

theorem Scanning.done (inv : Inv next s path) (scanning : Scanning next s t node path (next node))
    (isStack : t.stack = new ++ node :: s.stack) (member : a ∈ new ++ [node]) (isEdge : b ∈ next a) : t.indices b ≠ none := by
  rcases List.mem_append.mp member with late | own
  · have onStack : a ∈ t.stack := by
      rw [isStack]
      exact List.mem_append_left _ late
    refine scanning.inv.closed a (scanning.inv.on_stack onStack) ?_ b isEdge
    intro active
    rcases List.mem_cons.mp active with rfl | onPath
    · exact Nat.lt_irrefl _ (scanning.above isStack late)
    · exact scanning.beneath isStack (inv.active a onPath) (List.mem_append_left _ late)
  · rw [List.mem_singleton.mp own] at isEdge
    exact (scanning.edges b isEdge).1

variable {within : Finset α}

-- The nodes of a set that are not entered.
def unvisited (within : Finset α) (s : State α) : Finset α :=
  within.filter fun a => s.indices a = none

theorem unvisited_kept (kept : ∀ a n, s.indices a = some n → t.indices a = some n) :
    (unvisited within t).card ≤ (unvisited within s).card := by
  apply Finset.card_le_card
  intro a member
  obtain ⟨inside,unknown⟩ := Finset.mem_filter.mp member
  refine Finset.mem_filter.mpr ⟨inside,?_⟩
  by_contra known
  exact known_kept kept known unknown

-- What is entered after some of the roots.
structure Rooted (next : α → List α) (roots : List α) (s : State α) : Prop where
  inv : Inv next s []
  entered : ∀ a ∈ roots, s.indices a ≠ none
  reached : ∀ a, s.indices a ≠ none → ∃ root ∈ roots, Reach next root a

theorem start_rooted : Rooted next [] (.start : State α) := by
  refine ⟨⟨?_,?_,?_,List.Pairwise.nil,List.forall_mem_nil _,?_,List.forall_mem_nil _,List.forall_mem_nil _,?_,List.forall_mem_nil _⟩,
    List.forall_mem_nil _,fun a known => absurd rfl known⟩
  · intro a
    simp [State.start]
  · intro a
    simp [State.start]
  · intro a n isIndex
    simp [State.start] at isIndex
  · exact fun a known => absurd rfl known
  · refine ⟨List.nodup_nil,List.forall_mem_nil _,List.forall_mem_nil _,fun before component after split => ?_⟩
    simp [State.start] at split

variable [DecidableEq α]

theorem inv_lower (inv : Inv next s path) (value : Nat) : Inv next (s.lower node value) path :=
  ⟨inv.entered,inv.onStack,inv.below,inv.sorted,inv.active,inv.closed,inv.reaches,inv.reached,inv.emitted,inv.apart⟩

theorem enter_other (other : a ≠ node) : (s.enter node).indices a = s.indices a ∧ (s.enter node).index a = s.index a := by
  simp [State.index,State.enter,other]

-- The search from a node begins.
theorem enter_scanning (inv : Inv next s path) (unknown : s.indices node = none) (active : ∀ a ∈ path, Reach next a node) :
    Scanning next s (s.enter node) node path [] := by
  have apart : ∀ a, s.indices a ≠ none → a ≠ node := by
    rintro a known rfl
    exact known unknown
  have own : (s.enter node).indices node = some s.counter := by simp [State.enter]
  have ownIndex : (s.enter node).index node = s.counter := index_some own
  have lowOwn : (s.enter node).lowlinks node = s.counter := by simp [State.enter]
  have old {a : α} (member : a ∈ s.stack) : (s.enter node).index a = s.index a := (enter_other (apart a (inv.on_stack member))).2
  have kept : ∀ a n, s.indices a = some n → (s.enter node).indices a = some n := by
    intro a n isIndex
    rw [(enter_other (apart a (by rw [isIndex]; exact Option.some_ne_none n))).1,isIndex]
  refine ⟨⟨?_,?_,?_,?_,?_,?_,?_,?_,inv.emitted,?_⟩,⟨[],rfl,List.forall_mem_nil _⟩,List.forall_mem_nil _,kept,own,?_,
    ⟨node,List.mem_cons_self,.refl,by rw [own,lowOwn]⟩,lowOwn.le,?_⟩
  · intro a
    by_cases same : a = node
    · simp [same,State.enter]
    · rw [(enter_other same).1,inv.entered a]
      simp [State.enter,same]
  · intro a
    by_cases same : a = node
    · simp [same,State.enter]
    · simpa [State.enter,same] using inv.onStack a
  · intro a n isIndex
    by_cases same : a = node
    · rw [same,own] at isIndex
      exact (Option.some.inj isIndex).symm ▸ Nat.lt_succ_self _
    · rw [(enter_other same).1] at isIndex
      exact Nat.lt_succ_of_lt (inv.below a n isIndex)
  · refine List.pairwise_cons.mpr ⟨fun b member => ?_,inv.sorted.imp_of_mem fun one two lower => ?_⟩
    · rw [ownIndex,old member]
      exact inv.index_below (inv.on_stack member)
    · rwa [old one,old two]
  · exact fun a member => List.mem_cons.mpr ((List.mem_cons.mp member).imp_right (inv.active a))
  · intro a known notActive b isEdge
    obtain ⟨other,notPath⟩ : a ≠ node ∧ a ∉ path := by simpa using notActive
    rw [(enter_other other).1] at known
    exact known_kept kept (inv.closed a known notPath b isEdge)
  · intro a isActive b onStack above
    rcases List.mem_cons.mp isActive with rfl | onPath
    · rcases List.mem_cons.mp onStack with rfl | onStack
      · exact .refl
      · have lower := inv.index_below (inv.on_stack onStack)
        rw [ownIndex,old onStack] at above
        omega
    · rcases List.mem_cons.mp onStack with rfl | onStack
      · exact active a onPath
      · rw [old (inv.active a onPath),old onStack] at above
        exact inv.reaches a onPath b onStack above
  · intro b onStack
    rcases List.mem_cons.mp onStack with rfl | onStack
    · exact ⟨b,List.mem_cons_self,le_rfl,.refl⟩
    · obtain ⟨a,isActive,lower,reach⟩ := inv.reached b onStack
      refine ⟨a,List.mem_cons_of_mem _ isActive,?_,reach⟩
      rwa [old (inv.active a isActive),old onStack]
  · intro a onStack
    rcases List.mem_cons.mp onStack with rfl | onStack
    · exact fun emitted => (inv.entered a).mpr (.inr emitted) unknown
    · exact inv.apart a onStack
  · intro a known
    simp [State.enter,apart a known]
  · intro a known
    by_cases same : a = node
    · exact .inr (same ▸ .refl)
    · rw [(enter_other same).1] at known
      exact .inl known

section Scan

theorem lower_node (value : Nat) : (s.lower node value).lowlinks node = min (s.lowlinks node) value := by
  simp [State.lower]

theorem lower_other (other : a ≠ node) (value : Nat) : (s.lower node value).lowlinks a = s.lowlinks a := by
  simp [State.lower,other]

-- An edge to a node that is entered by it.
theorem scan_visited (inv : Inv next s path) (scanning : Scanning next s t node path edges) (isEdge : b ∈ next node)
    (unknown : t.indices b = none) {t' : State α} (visited : Visited next t t' b (node :: path)) :
    Scanning next s (t'.lower node (t'.lowlinks b)) node path (edges ++ [b]) := by
  have ownKnown : t.indices node ≠ none := by
    rw [scanning.own]
    exact Option.some_ne_none _
  have lowKept : t'.lowlinks node = t.lowlinks node := visited.lowlinks node ownKnown
  obtain ⟨new,isStack,cross⟩ := scanning.stack
  obtain ⟨more,isStack',cross'⟩ := visited.stack
  refine ⟨inv_lower visited.inv _,⟨more ++ new,?_,?_⟩,?_,fun a n isIndex => visited.kept a n (scanning.kept a n isIndex),
    visited.kept node _ scanning.own,?_,?_,?_,?_⟩
  · change t'.stack = _
    rw [isStack',isStack,List.append_assoc]
  · intro a member c onStack toStack
    rw [lower_node,lowKept]
    change min (t.lowlinks node) (t'.lowlinks b) ≤ t'.index c
    rcases List.mem_append.mp member with late | early
    · exact (Nat.min_le_right _ _).trans (cross' a late c (scanning.stacked onStack) toStack)
    · rw [index_kept visited.kept (scanning.inv.on_stack (scanning.stacked onStack))]
      exact (Nat.min_le_left _ _).trans (cross a early c onStack toStack)
  · intro c member
    rcases List.mem_append.mp member with done | isLast
    · obtain ⟨known,lower⟩ := scanning.edges c done
      refine ⟨known_kept visited.kept known,fun onStack => ?_⟩
      rw [lower_node,lowKept]
      change min (t.lowlinks node) (t'.lowlinks b) ≤ t'.index c
      rw [index_kept visited.kept known]
      exact (Nat.min_le_left _ _).trans (lower onStack)
    · obtain rfl := List.mem_singleton.mp isLast
      exact ⟨visited.entered,fun onStack => absurd unknown (scanning.inv.on_stack (scanning.stacked onStack))⟩
  · intro a known
    rw [lower_other (scanning.known inv known),visited.lowlinks a (known_kept scanning.kept known)]
    exact scanning.lowlinks a known
  · rw [lower_node,lowKept]
    rcases Nat.lt_or_ge (t'.lowlinks b) (t.lowlinks node) with lower | upper
    · rw [Nat.min_eq_right lower.le]
      obtain ⟨a,reach,isLow,onStack | above⟩ := visited.low
      · exact ⟨a,onStack,.head isEdge reach,isLow⟩
      · have below := scanning.inv.below node _ scanning.own
        have least := scanning.least
        omega
    · rw [Nat.min_eq_left upper]
      obtain ⟨a,onStack,reach,isLow⟩ := scanning.low
      refine ⟨a,?_,reach,visited.kept a _ isLow⟩
      change a ∈ t'.stack
      rw [isStack']
      exact List.mem_append_right _ onStack
  · rw [lower_node,lowKept]
    exact (Nat.min_le_left _ _).trans scanning.least
  · intro a known
    rcases visited.fresh a known with earlier | reach
    · exact scanning.fresh a earlier
    · exact .inr (.head isEdge reach)

theorem scan_stacked (inv : Inv next s path) (scanning : Scanning next s t node path edges) (isEdge : b ∈ next node)
    (onStack : b ∈ t.stack) : Scanning next s (t.lower node (t.index b)) node path (edges ++ [b]) := by
  refine ⟨inv_lower scanning.inv _,?_,?_,scanning.kept,scanning.own,?_,?_,?_,scanning.fresh⟩
  · obtain ⟨new,isStack,cross⟩ := scanning.stack
    refine ⟨new,isStack,fun a member c toStack isCross => ?_⟩
    rw [lower_node]
    exact (Nat.min_le_left _ _).trans (cross a member c toStack isCross)
  · intro c member
    rw [lower_node]
    rcases List.mem_append.mp member with done | isLast
    · obtain ⟨known,lower⟩ := scanning.edges c done
      exact ⟨known,fun toStack => (Nat.min_le_left _ _).trans (lower toStack)⟩
    · obtain rfl := List.mem_singleton.mp isLast
      exact ⟨scanning.inv.on_stack onStack,fun _ => Nat.min_le_right _ _⟩
  · intro a known
    rw [lower_other (scanning.known inv known)]
    exact scanning.lowlinks a known
  · rw [lower_node]
    rcases Nat.lt_or_ge (t.index b) (t.lowlinks node) with lower | upper
    · rw [Nat.min_eq_right lower.le]
      obtain ⟨n,isIndex⟩ := Option.ne_none_iff_exists'.mp (scanning.inv.on_stack onStack)
      exact ⟨b,onStack,.single isEdge,by rw [index_some isIndex]; exact isIndex⟩
    · rw [Nat.min_eq_left upper]
      exact scanning.low
  · rw [lower_node]
    exact (Nat.min_le_left _ _).trans scanning.least

end Scan

section Finish

theorem popTo_split {new below : List α} (apart : node ∉ new) : popTo node (new ++ node :: below) = some (new ++ [node],below) := by
  induction new with
  | nil => simp [popTo]
  | cons top new ih =>
    obtain ⟨other,apart⟩ : node ≠ top ∧ node ∉ new := by simpa using apart
    simp [popTo,Ne.symm other,ih apart]

-- The node is the first of its component that was entered.
theorem finish_root (inv : Inv next s path) (unknown : s.indices node = none)
    (scanning : Scanning next s t node path (next node)) (isRoot : t.lowlinks node = s.counter) :
    ∃ t', t.finish node = some t' ∧ Visited next s t' node path := by
  obtain ⟨new,isStack,cross⟩ := scanning.stack
  have ownIndex : t.index node = s.counter := index_some scanning.own
  have apart : node ∉ new := fun member => Nat.lt_irrefl _ (scanning.above isStack member)
  have oldIndex {b : α} (member : b ∈ s.stack) : t.index b = s.index b := index_kept scanning.kept (inv.on_stack member)
  have onStack {a : α} (member : a ∈ new ++ [node]) : a ∈ t.stack := by
    have shape : t.stack = (new ++ [node]) ++ s.stack := by rw [isStack]; simp
    rw [shape]
    exact List.mem_append_left _ member
  -- No edge leads back below the node.
  have forward {a b : α} (member : a ∈ new ++ [node]) (isEdge : b ∈ next a) :
      b ∈ new ++ [node] ∨ b ∈ t.components.flatten := by
    rcases (scanning.inv.entered b).mp (scanning.done inv isStack member isEdge) with toStack | emitted
    · rw [isStack] at toStack
      rcases List.mem_append.mp toStack with late | rest
      · exact .inl (List.mem_append_left _ late)
      · rcases List.mem_cons.mp rest with rfl | old
        · exact .inl (List.mem_append_right _ List.mem_cons_self)
        · have lower := inv.index_below (inv.on_stack old)
          rw [← oldIndex old] at lower
          rcases List.mem_append.mp member with late | own
          · have least := cross a late b old isEdge
            omega
          · rw [List.mem_singleton.mp own] at isEdge
            have least := (scanning.edges b isEdge).2 old
            omega
    · exact .inr emitted
  have stays {a b : α} (member : a ∈ new ++ [node]) (reach : Reach next a b) :
      b ∈ new ++ [node] ∨ b ∈ t.components.flatten := by
    induction reach with
    | refl => exact .inl member
    | tail _ isEdge ih =>
      rcases ih with same | emitted
      · exact forward same isEdge
      · exact .inr (emitted_step scanning.inv.emitted emitted isEdge)
  have fromNode {a : α} (member : a ∈ new ++ [node]) : Reach next node a := by
    refine scanning.inv.reaches node List.mem_cons_self a (onStack member) ?_
    rcases List.mem_append.mp member with late | own
    · exact (scanning.above isStack late).le
    · rw [List.mem_singleton.mp own]
  have toNode {a : α} (member : a ∈ new ++ [node]) : Reach next a node := by
    obtain ⟨g,active,_,reach⟩ := scanning.inv.reached a (onStack member)
    rcases List.mem_cons.mp active with rfl | onPath
    · exact reach
    · rcases stays member reach with inside | emitted
      · exact absurd inside (scanning.beneath isStack (inv.active g onPath))
      · exact absurd emitted (scanning.inv.apart g (scanning.stacked (inv.active g onPath)))
  have emitted : Emitted next (t.components ++ [new ++ [node]]) := by
    have old := scanning.inv.emitted
    refine ⟨?_,?_,?_,?_⟩
    · rw [List.flatten_append,List.flatten_singleton]
      refine List.nodup_append.mpr ⟨old.nodup,?_,?_⟩
      · have nodup := scanning.inv.nodup
        have shape : t.stack = (new ++ [node]) ++ s.stack := by rw [isStack]; simp
        rw [shape] at nodup
        exact (List.nodup_append.mp nodup).1
      · rintro a earlier b member rfl
        exact scanning.inv.apart a (onStack member) earlier
    · intro component member
      rcases List.mem_append.mp member with earlier | isLast
      · exact old.filled component earlier
      · rw [List.mem_singleton.mp isLast]
        simp
    · intro component member a inside b here
      rcases List.mem_append.mp member with earlier | isLast
      · exact old.strong component earlier a inside b here
      · rw [List.mem_singleton.mp isLast] at inside here
        exact (toNode inside).trans (fromNode here)
    · intro before component after split a inside b isEdge
      rcases List.eq_nil_or_concat after with rfl | ⟨rest,last,rfl⟩
      · obtain ⟨isBefore,isComponent⟩ := List.append_inj' split rfl
        rw [← List.singleton_inj.mp isComponent] at inside ⊢
        rw [← isBefore]
        exact forward inside isEdge
      · have regrouped : before ++ component :: rest.concat last = (before ++ component :: rest) ++ [last] := by simp
        rw [regrouped] at split
        exact old.back before component rest (List.append_inj' split rfl).1 a inside b isEdge
  have popped : t.finish node = some { t with
      stack := s.stack
      onStack := fun other => if other ∈ new ++ [node] then false else t.onStack other
      components := t.components ++ [new ++ [node]] } := by
    unfold State.finish
    rw [if_pos (by rw [scanning.own,isRoot]),isStack,popTo_split apart]
    rfl
  refine ⟨_,popped,⟨?_,?_,?_,?_,?_,?_,?_,?_,emitted,?_⟩,⟨[],rfl,List.forall_mem_nil _⟩,scanning.kept,scanning.lowlinks,?_,
    ⟨node,.refl,?_,.inr isRoot.ge⟩,scanning.fresh⟩
  · intro a
    have known := scanning.inv.entered a
    rw [isStack] at known
    rw [List.flatten_append,List.flatten_singleton]
    simp only [List.mem_append,List.mem_cons,List.not_mem_nil,or_false] at known ⊢
    tauto
  · intro a
    have known := scanning.inv.onStack a
    dsimp only
    split
    · rename_i inside
      exact ⟨fun isFalse => (Bool.false_ne_true isFalse).elim,fun member => absurd inside (scanning.beneath isStack member)⟩
    · rename_i outside
      rw [known,isStack]
      simp only [List.mem_append,List.mem_cons,List.not_mem_nil,or_false] at outside ⊢
      tauto
  · exact scanning.inv.below
  · have sorted := scanning.inv.sorted
    rw [isStack] at sorted
    exact (List.pairwise_cons.mp (List.pairwise_append.mp sorted).2.1).2
  · exact inv.active
  · intro a known inactive b isEdge
    by_cases own : a = node
    · rw [own] at isEdge
      exact (scanning.edges b isEdge).1
    · exact scanning.inv.closed a known (by simp [own,inactive]) b isEdge
  · intro a active b member above
    exact scanning.inv.reaches a (List.mem_cons_of_mem _ active) b (scanning.stacked member) above
  · intro b member
    obtain ⟨a,active,lower,reach⟩ := inv.reached b member
    refine ⟨a,active,?_,reach⟩
    change t.index a ≤ t.index b
    rwa [oldIndex (inv.active a active),oldIndex member]
  · intro a member
    rw [List.flatten_append,List.flatten_singleton]
    intro inside
    rcases List.mem_append.mp inside with earlier | isLast
    · exact scanning.inv.apart a (scanning.stacked member) earlier
    · exact scanning.beneath isStack member isLast
  · rw [scanning.own]
    exact Option.some_ne_none _
  · rw [scanning.own,isRoot]

-- The node belongs to the component of one that was entered before it.
theorem finish_inner (inv : Inv next s path) (scanning : Scanning next s t node path (next node))
    (notRoot : t.lowlinks node ≠ s.counter) : ∃ t', t.finish node = some t' ∧ Visited next s t' node path := by
  obtain ⟨new,isStack,cross⟩ := scanning.stack
  have ownIndex : t.index node = s.counter := index_some scanning.own
  have least := scanning.least
  have stays : t.finish node = some t := by
    unfold State.finish
    rw [scanning.own,if_neg fun same => notRoot (Option.some.inj same)]
  refine ⟨t,stays,{ scanning.inv with active := ?_, closed := ?_, reaches := ?_, reached := ?_ },?_,scanning.kept,scanning.lowlinks,?_,?_,
    scanning.fresh⟩
  · exact fun a active => scanning.inv.active a (List.mem_cons_of_mem _ active)
  · intro a known inactive b isEdge
    by_cases own : a = node
    · rw [own] at isEdge
      exact (scanning.edges b isEdge).1
    · exact scanning.inv.closed a known (by simp [own,inactive]) b isEdge
  · exact fun a active => scanning.inv.reaches a (List.mem_cons_of_mem _ active)
  · intro b member
    obtain ⟨a,active,lower,reach⟩ := scanning.inv.reached b member
    rcases List.mem_cons.mp active with rfl | onPath
    · obtain ⟨c,onStack,toLow,isLow⟩ := scanning.low
      have lowIndex := index_some isLow
      have old : c ∈ s.stack := by
        rw [isStack] at onStack
        rcases List.mem_append.mp onStack with late | rest
        · have higher := scanning.above isStack late
          omega
        · rcases List.mem_cons.mp rest with rfl | old
          · omega
          · exact old
      obtain ⟨g,onPath,below,onward⟩ := inv.reached c old
      have oldG := index_kept scanning.kept (inv.on_stack (inv.active g onPath))
      have oldC := index_kept scanning.kept (inv.on_stack old)
      exact ⟨g,onPath,by omega,(reach.trans toLow).trans onward⟩
    · exact ⟨a,onPath,lower,reach⟩
  · refine ⟨new ++ [node],by rw [isStack]; simp,fun a member b old isEdge => ?_⟩
    rcases List.mem_append.mp member with late | own
    · exact cross a late b old isEdge
    · rw [List.mem_singleton.mp own] at isEdge
      exact (scanning.edges b isEdge).2 old
  · rw [scanning.own]
    exact Option.some_ne_none _
  · obtain ⟨c,onStack,toLow,isLow⟩ := scanning.low
    exact ⟨c,toLow,isLow,.inl onStack⟩

end Finish

section Visit

theorem unvisited_enter (within : Finset α) (inside : node ∈ within) (unknown : s.indices node = none) :
    (unvisited within (s.enter node)).card < (unvisited within s).card := by
  apply Finset.card_lt_card
  refine ⟨fun a member => ?_,fun subset => ?_⟩
  · obtain ⟨here,missing⟩ := Finset.mem_filter.mp member
    refine Finset.mem_filter.mpr ⟨here,?_⟩
    by_cases same : a = node
    · rw [same,unknown]
    · rwa [← (enter_other (s := s) same).1]
  · have still := (Finset.mem_filter.mp (subset (Finset.mem_filter.mpr ⟨inside,unknown⟩))).2
    simp [State.enter] at still

-- What a search does that has fuel for the nodes that are left.
def Searches (next : α → List α) (within : Finset α) (fuel : Nat) (visit : α → State α → Option (State α)) : Prop :=
  ∀ node s path, Inv next s path → node ∈ within → s.indices node = none → (∀ a ∈ path, Reach next a node) →
    (unvisited within s).card ≤ fuel → ∃ s', visit node s = some s' ∧ Visited next s s' node path

theorem scan_step {fuel : Nat} {visit : α → State α → Option (State α)} (searches : Searches next within fuel visit)
    (inv : Inv next s path) (scanning : Scanning next s t node path edges) (isEdge : b ∈ next node) (inside : b ∈ within)
    (active : ∀ a ∈ path, Reach next a node) (left : (unvisited within t).card ≤ fuel) :
    ∃ t', scan visit node t b = some t' ∧ Scanning next s t' node path (edges ++ [b]) ∧
      (unvisited within t').card ≤ fuel := by
  by_cases unknown : t.indices b = none
  · have onward : ∀ a ∈ node :: path, Reach next a b := by
      intro a isActive
      rcases List.mem_cons.mp isActive with rfl | onPath
      · exact .single isEdge
      · exact (active a onPath).tail isEdge
    obtain ⟨t',isVisit,visited⟩ := searches b t (node :: path) scanning.inv inside unknown onward left
    refine ⟨_,?_,scan_visited inv scanning isEdge unknown visited,(unvisited_kept visited.kept).trans left⟩
    simp [scan,unknown,isVisit]
  · by_cases onStack : b ∈ t.stack
    · refine ⟨_,?_,scan_stacked inv scanning isEdge onStack,left⟩
      simp [scan,unknown,(scanning.inv.onStack b).mpr onStack,State.index]
    · have off : t.onStack b = false := by
        rw [← Bool.not_eq_true]
        exact fun isOn => onStack ((scanning.inv.onStack b).mp isOn)
      refine ⟨t,?_,scan_emitted scanning unknown onStack,left⟩
      simp [scan,unknown,off]

theorem scan_run {fuel : Nat} {visit : α → State α → Option (State α)} (searches : Searches next within fuel visit)
    (inv : Inv next s path) (active : ∀ a ∈ path, Reach next a node) (rest : List α) :
    ∀ {edges : List α} {t : State α}, Scanning next s t node path edges → (∀ b ∈ rest, b ∈ next node ∧ b ∈ within) →
      (unvisited within t).card ≤ fuel →
      ∃ t', rest.foldlM (scan visit node) t = some t' ∧ Scanning next s t' node path (edges ++ rest) := by
  induction rest with
  | nil =>
    intro edges t scanning _ _
    exact ⟨t,rfl,by simpa using scanning⟩
  | cons b rest ih =>
    intro edges t scanning inside left
    obtain ⟨isEdge,isInside⟩ := inside b List.mem_cons_self
    obtain ⟨t₁,isScan,scanning₁,left₁⟩ := scan_step searches inv scanning isEdge isInside active left
    obtain ⟨t₂,isRun,scanning₂⟩ := ih scanning₁ (fun c member => inside c (List.mem_cons_of_mem _ member)) left₁
    refine ⟨t₂,?_,by simpa using scanning₂⟩
    rw [List.foldlM_cons,isScan]
    exact isRun

theorem visit_searches (closed : ∀ a ∈ within, ∀ b ∈ next a, b ∈ within) (fuel : Nat) :
    Searches next within fuel (visit next fuel) := by
  induction fuel with
  | zero =>
    intro node s path _ inside unknown _ left
    have member : node ∈ unvisited within s := Finset.mem_filter.mpr ⟨inside,unknown⟩
    have positive := Finset.card_pos.mpr ⟨node,member⟩
    omega
  | succ fuel ih =>
    intro node s path inv inside unknown active left
    have smaller := unvisited_enter within inside unknown
    obtain ⟨t,isRun,scanning⟩ := scan_run ih inv active (next node) (enter_scanning inv unknown active)
      (fun b isEdge => ⟨isEdge,closed node inside b isEdge⟩) (by omega)
    rw [List.nil_append] at scanning
    have isVisit (s' : State α) (isFinish : t.finish node = some s') : visit next (fuel + 1) node s = some s' := by
      rw [visit,isRun]
      exact isFinish
    by_cases isRoot : t.lowlinks node = s.counter
    · obtain ⟨s',isFinish,visited⟩ := finish_root inv unknown scanning isRoot
      exact ⟨s',isVisit s' isFinish,visited⟩
    · obtain ⟨s',isFinish,visited⟩ := finish_inner inv scanning isRoot
      exact ⟨s',isVisit s' isFinish,visited⟩

theorem root_step (closed : ∀ a ∈ within, ∀ b ∈ next a, b ∈ within) {roots : List α} (rooted : Rooted next roots s)
    (inside : root ∈ within) {fuel : Nat} (enough : within.card ≤ fuel) :
    ∃ s', visitRoot next fuel s root = some s' ∧ Rooted next (roots ++ [root]) s' := by
  by_cases unknown : s.indices root = none
  · have left : (unvisited within s).card ≤ fuel := (Finset.card_filter_le _ _).trans enough
    obtain ⟨s',isVisit,visited⟩ := visit_searches closed fuel root s [] rooted.inv inside unknown (List.forall_mem_nil _) left
    refine ⟨s',by simpa [visitRoot,unknown] using isVisit,visited.inv,?_,?_⟩
    · intro a member
      rcases List.mem_append.mp member with earlier | isLast
      · exact known_kept visited.kept (rooted.entered a earlier)
      · rw [List.mem_singleton.mp isLast]
        exact visited.entered
    · intro a known
      rcases visited.fresh a known with earlier | reach
      · obtain ⟨first,member,reach⟩ := rooted.reached a earlier
        exact ⟨first,List.mem_append_left _ member,reach⟩
      · exact ⟨root,List.mem_append_right _ List.mem_cons_self,reach⟩
  · refine ⟨s,by simp [visitRoot,unknown],rooted.inv,?_,?_⟩
    · intro a member
      rcases List.mem_append.mp member with earlier | isLast
      · exact rooted.entered a earlier
      · rw [List.mem_singleton.mp isLast]
        exact unknown
    · intro a known
      obtain ⟨first,member,reach⟩ := rooted.reached a known
      exact ⟨first,List.mem_append_left _ member,reach⟩

theorem roots_run (closed : ∀ a ∈ within, ∀ b ∈ next a, b ∈ within) {fuel : Nat} (enough : within.card ≤ fuel)
    (rest : List α) : ∀ {roots : List α} {s : State α}, Rooted next roots s → (∀ a ∈ rest, a ∈ within) →
      ∃ s', rest.foldlM (visitRoot next fuel) s = some s' ∧ Rooted next (roots ++ rest) s' := by
  induction rest with
  | nil =>
    intro roots s rooted _
    exact ⟨s,rfl,by simpa using rooted⟩
  | cons root rest ih =>
    intro roots s rooted inside
    obtain ⟨s₁,isVisit,rooted₁⟩ := root_step closed rooted (inside root List.mem_cons_self) enough
    obtain ⟨s₂,isRun,rooted₂⟩ := ih rooted₁ fun a member => inside a (List.mem_cons_of_mem _ member)
    refine ⟨s₂,?_,by simpa using rooted₂⟩
    rw [List.foldlM_cons,isVisit]
    exact isRun

theorem components_emitted (closed : ∀ a ∈ within, ∀ b ∈ next a, b ∈ within) {fuel : Nat} (enough : within.card ≤ fuel)
    (roots : List α) (inside : ∀ a ∈ roots, a ∈ within) :
    ∃ found, components next fuel roots = some found ∧ Emitted next found ∧
      ∀ a, a ∈ found.flatten ↔ ∃ root ∈ roots, Reach next root a := by
  obtain ⟨s,isRun,rooted⟩ := roots_run closed enough roots start_rooted inside
  rw [List.nil_append] at rooted
  have empty : ∀ a, a ∉ s.stack := by
    intro a member
    obtain ⟨g,active,_⟩ := rooted.inv.reached a member
    exact List.not_mem_nil active
  refine ⟨s.components,by simp [components,isRun],rooted.inv.emitted,fun a => ⟨fun member => ?_,?_⟩⟩
  · exact rooted.reached a ((rooted.inv.entered a).mpr (.inr member))
  · rintro ⟨root,member,reach⟩
    have emitted := ((rooted.inv.entered root).mp (rooted.entered root member)).resolve_left (empty root)
    exact emitted_reach rooted.inv.emitted emitted reach

end Visit

end Invariant

end Rsleigh.Tarjan
