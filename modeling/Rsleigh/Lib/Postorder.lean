import Mathlib.Data.Finset.Card
import Mathlib.Data.List.Nodup
import Mathlib.Data.List.Perm.Subperm
import Mathlib.Logic.Function.Basic
import Mathlib.Logic.Relation

namespace Rsleigh.Postorder

-- A depth-first search: the nodes that were entered, and those that were left, in this order.
structure Search (α : Type) where
  visited : α → Bool
  out : List α

section Search

variable [DecidableEq α] (nodes : Finset α) (next : α → List α)

-- What leads to another node of the graph.
def Edge (a b : α) : Prop :=
  b ∈ next a ∧ b ∈ nodes

-- The search from a node, as deep as the fuel.
def dfs : Nat → Search α → α → Option (Search α)
  | 0, _, _ => none
  | fuel + 1, search, node =>
    if node ∉ nodes ∨ search.visited node then some search
    else do
      let search ← (next node).foldlM (dfs fuel) { search with visited := Function.update search.visited node true }
      some { search with out := search.out ++ [node] }

end Search

-- The place of each node in an order.
def positions [DecidableEq α] (order : List α) : α → Nat :=
  order.zipIdx.foldl (fun number placed => Function.update number placed.1 placed.2) fun _ => 0

theorem positions_other [DecidableEq α] {node : α} : ∀ {order : List α} {first : Nat} {number : α → Nat}, node ∉ order →
    (order.zipIdx first).foldl (fun number placed => Function.update number placed.1 placed.2) number node =
      number node := by
  intro order
  induction order with
  | nil => exact fun _ => rfl
  | cons other later ih =>
    intro first number absent
    rw [List.zipIdx_cons,List.foldl_cons,ih (List.not_mem_of_not_mem_cons absent),
      Function.update_of_ne (List.ne_of_not_mem_cons absent)]

theorem positions_split [DecidableEq α] {before later : List α} {node : α} (nodup : (before ++ node :: later).Nodup) :
    positions (before ++ node :: later) node = before.length := by
  have notLater : node ∉ later := (List.nodup_cons.mp (List.nodup_append.mp nodup).2.1).1
  unfold positions
  rw [List.zipIdx_append,List.foldl_append,List.zipIdx_cons,List.foldl_cons,positions_other notLater,
    Function.update_self,Nat.zero_add]

theorem positions_get [DecidableEq α] {order : List α} (nodup : order.Nodup) {node : α} (member : node ∈ order) :
    order[positions order node]? = some node := by
  obtain ⟨before,later,rfl⟩ := List.append_of_mem member
  rw [positions_split nodup]
  simp

-- The nodes that were not entered: what bounds the depth.
def fresh [DecidableEq α] (nodes : Finset α) (search : Search α) : Finset α :=
  nodes.filter fun node => search.visited node = false

-- Each node is led to from one that is left after it, or from `last`.
def Led (edge : α → α → Prop) (last : α) : List α → Prop
  | [] => True
  | node :: later => (edge last node ∨ ∃ parent ∈ later, edge parent node) ∧ Led edge last later

theorem led_append {edge : α → α → Prop} {last : α} : ∀ {first second : List α}, Led edge last first →
    Led edge last second → Led edge last (first ++ second) := by
  intro first
  induction first with
  | nil => exact fun _ led => led
  | cons node later ih =>
    intro second led secondLed
    refine ⟨led.1.imp_right ?_,ih led.2 secondLed⟩
    rintro ⟨parent,member,isEdge⟩
    exact ⟨parent,List.mem_append_left _ member,isEdge⟩

theorem led_left {edge : α → α → Prop} {last parent : α} (isEdge : edge parent last) :
    ∀ {out : List α}, Led edge last out → Led edge parent (out ++ [last]) := by
  intro out
  induction out with
  | nil => exact fun _ => ⟨Or.inl isEdge,trivial⟩
  | cons node later ih =>
    intro led
    refine ⟨Or.inr ?_,ih led.2⟩
    rcases led.1 with fromLast | ⟨other,member,fromOther⟩
    · exact ⟨last,List.mem_append_right _ (List.mem_singleton_self _),fromLast⟩
    · exact ⟨other,List.mem_append_left _ member,fromOther⟩

-- The nodes that a root reaches, the last one that was left first.
structure Ordered (edge : α → α → Prop) (root : α) (order : List α) : Prop where
  nodup : order.Nodup
  reached : ∀ node, node ∈ order ↔ Relation.ReflTransGen edge root node
  first : ∃ later, order = root :: later
  led : ∀ before node later, order = before ++ node :: later → node ≠ root → ∃ parent ∈ before, edge parent node

theorem led_reverse {edge : α → α → Prop} {last : α} : ∀ {out : List α}, Led edge last out →
    ∀ before node later, out.reverse = before ++ node :: later → ∃ parent ∈ last :: before, edge parent node := by
  intro out
  induction out with
  | nil => simp
  | cons first out ih =>
    intro led before node later isOut
    rw [List.reverse_cons] at isOut
    rcases List.eq_nil_or_concat later with rfl | ⟨middle,final,rfl⟩
    · obtain ⟨isBefore,isNode⟩ := List.append_inj' isOut rfl
      rw [← List.singleton_inj.mp isNode,← isBefore]
      rcases led.1 with fromLast | ⟨parent,member,isEdge⟩
      · exact ⟨last,List.mem_cons_self,fromLast⟩
      · exact ⟨parent,List.mem_cons_of_mem _ (List.mem_reverse.mpr member),isEdge⟩
    · have regrouped : before ++ node :: (middle.concat final) = (before ++ node :: middle) ++ [final] := by simp
      rw [regrouped] at isOut
      exact ih led.2 before node middle (List.append_inj' isOut rfl).1

theorem ordered_reached {edge : α → α → Prop} {root : α} {order : List α}
    (led : ∀ before node later, order = before ++ node :: later → node ≠ root → ∃ parent ∈ before, edge parent node) :
    ∀ (count : Nat) before node later, before.length ≤ count → order = before ++ node :: later →
      Relation.ReflTransGen edge root node := by
  intro count
  induction count with
  | zero =>
    intro before node later short split
    by_cases isRoot : node = root
    · rw [isRoot]
    · obtain ⟨parent,member,_⟩ := led before node later split isRoot
      rw [List.eq_nil_of_length_eq_zero (Nat.le_zero.mp short)] at member
      cases member
  | succ count ih =>
    intro before node later short split
    by_cases isRoot : node = root
    · rw [isRoot]
    · obtain ⟨parent,member,isEdge⟩ := led before node later split isRoot
      obtain ⟨first,rest,isBefore⟩ := List.append_of_mem member
      refine (ih first parent (rest ++ node :: later) ?_ ?_).tail isEdge
      · have isLength := congrArg List.length isBefore
        rw [List.length_append,List.length_cons] at isLength
        omega
      · rw [split,isBefore]
        simp

-- What a search adds.
structure Grown (nodes : Finset α) (next : α → List α) (before after : Search α) (new : List α) : Prop where
  out : after.out = before.out ++ new
  visited : ∀ node, after.visited node = true ↔ before.visited node = true ∨ node ∈ new
  unvisited : ∀ node ∈ new, before.visited node = false
  inside : ∀ node ∈ new, node ∈ nodes
  nodup : new.Nodup
  closed : ∀ node ∈ new, ∀ other, Edge nodes next node other → after.visited other = true

section Grown

variable {nodes : Finset α} {next : α → List α}

theorem grown_refl (search : Search α) : Grown nodes next search search [] where
  out := (List.append_nil _).symm
  visited := by simp
  unvisited := by simp
  inside := by simp
  nodup := List.nodup_nil
  closed := by simp

theorem grown_unvisited {before after : Search α} {new : List α} {node : α} (grown : Grown nodes next before after new)
    (unvisited : after.visited node = false) : before.visited node = false ∧ node ∉ new := by
  have notVisited : ¬(before.visited node = true ∨ node ∈ new) := by simp [← grown.visited,unvisited]
  rw [not_or,Bool.not_eq_true] at notVisited
  exact notVisited

theorem grown_trans {first second third : Search α} {new newer : List α} (grown : Grown nodes next first second new)
    (again : Grown nodes next second third newer) : Grown nodes next first third (new ++ newer) where
  out := by rw [again.out,grown.out,List.append_assoc]
  visited := by
    intro node
    rw [again.visited,grown.visited,List.mem_append,or_assoc]
  unvisited := by
    intro node member
    rcases List.mem_append.mp member with member | member
    · exact grown.unvisited node member
    · exact (grown_unvisited grown (again.unvisited node member)).1
  inside := by
    intro node member
    rcases List.mem_append.mp member with member | member
    · exact grown.inside node member
    · exact again.inside node member
  nodup := by
    refine List.nodup_append.mpr ⟨grown.nodup,again.nodup,?_⟩
    intro node member other otherMember same
    subst same
    exact (grown_unvisited grown (again.unvisited node otherMember)).2 member
  closed := by
    intro node member other isEdge
    rcases List.mem_append.mp member with member | member
    · exact (again.visited other).mpr (Or.inl (grown.closed node member other isEdge))
    · exact again.closed node member other isEdge

end Grown

section Correct

variable [DecidableEq α] {nodes : Finset α} {next : α → List α}

theorem grown_fresh {before after : Search α} {new : List α} (grown : Grown nodes next before after new) :
    fresh nodes after ⊆ fresh nodes before := by
  intro node isFresh
  obtain ⟨inside,unvisited⟩ := Finset.mem_filter.mp isFresh
  exact Finset.mem_filter.mpr ⟨inside,(grown_unvisited grown unvisited).1⟩

theorem enter_fresh {search : Search α} {node : α} (inside : node ∈ nodes) (unvisited : search.visited node = false) :
    (fresh nodes { search with visited := Function.update search.visited node true }).card < (fresh nodes search).card := by
  have isFresh : node ∈ fresh nodes search := Finset.mem_filter.mpr ⟨inside,unvisited⟩
  apply Finset.card_lt_card
  refine Finset.ssubset_iff_subset_ne.mpr ⟨?_,?_⟩
  · intro other otherFresh
    obtain ⟨otherInside,otherUnvisited⟩ := Finset.mem_filter.mp otherFresh
    refine Finset.mem_filter.mpr ⟨otherInside,?_⟩
    by_cases same : other = node
    · rw [same]
      exact unvisited
    · simpa [Function.update_of_ne same] using otherUnvisited
  · intro same
    rw [← same] at isFresh
    simp [fresh] at isFresh

-- A search that ends, from nodes that `last` leads to.
def Ends (nodes : Finset α) (next : α → List α) (last : α) (search : Search α) (result : Option (Search α))
    (searched : List α) : Prop :=
  ∃ after new, result = some after ∧ Grown nodes next search after new ∧ Led (Edge nodes next) last new ∧
    ∀ node ∈ searched, node ∈ nodes → after.visited node = true

theorem foldl_ends {fuel : Nat} {last : α}
    (step : ∀ (search : Search α) (node : α), node ∈ next last → (fresh nodes search).card < fuel →
      Ends nodes next last search (dfs nodes next fuel search node) [node]) :
    ∀ {successors : List α} {search : Search α}, successors ⊆ next last → (fresh nodes search).card < fuel →
      Ends nodes next last search (successors.foldlM (dfs nodes next fuel) search) successors := by
  intro successors
  induction successors with
  | nil =>
    intro search _ _
    exact ⟨search,[],rfl,grown_refl _,trivial,by simp⟩
  | cons node later ih =>
    intro search areNext enough
    obtain ⟨middle,new,isMiddle,grown,led,entered⟩ := step search node (areNext List.mem_cons_self) enough
    obtain ⟨after,newer,isAfter,again,laterLed,allEntered⟩ := ih
      (fun other member => areNext (List.mem_cons_of_mem _ member))
      (Nat.lt_of_le_of_lt (Finset.card_le_card (grown_fresh grown)) enough)
    refine ⟨after,new ++ newer,?_,grown_trans grown again,led_append led laterLed,?_⟩
    · rw [List.foldlM_cons,isMiddle]
      exact isAfter
    · intro other member inside
      rcases List.mem_cons.mp member with rfl | member
      · exact (again.visited _).mpr (Or.inl (entered _ (List.mem_singleton_self _) inside))
      · exact allEntered other member inside

-- A node that is entered is left last.
theorem dfs_enters {fuel : Nat} {node : α} {search : Search α} (inside : node ∈ nodes)
    (unvisited : search.visited node = false)
    (ends : Ends nodes next node { search with visited := Function.update search.visited node true }
      ((next node).foldlM (dfs nodes next fuel) { search with visited := Function.update search.visited node true })
      (next node)) :
    ∃ after new, dfs nodes next (fuel + 1) search node = some after ∧
      Grown nodes next search after (new ++ [node]) ∧ Led (Edge nodes next) node new := by
  obtain ⟨after,new,isAfter,grown,led,entered⟩ := ends
  refine ⟨{ after with out := after.out ++ [node] },new,?_,?_,led⟩
  · unfold dfs
    rw [if_neg (by simp [inside,unvisited]),isAfter]
    rfl
  · refine ⟨?_,?_,?_,?_,?_,?_⟩
    · rw [grown.out,List.append_assoc]
    · intro other
      rw [grown.visited,List.mem_append,List.mem_singleton]
      by_cases same : other = node
      · simp [same]
      · simp [same]
    · intro other member
      rcases List.mem_append.mp member with member | member
      · by_cases same : other = node
        · rw [same]
          exact unvisited
        · simpa [Function.update_of_ne same] using grown.unvisited other member
      · rw [List.mem_singleton.mp member]
        exact unvisited
    · intro other member
      rcases List.mem_append.mp member with member | member
      · exact grown.inside other member
      · rw [List.mem_singleton.mp member]
        exact inside
    · refine List.nodup_append.mpr ⟨grown.nodup,List.pairwise_singleton _ _,?_⟩
      intro other member last isLast same
      have isNode : other = node := same.trans (List.mem_singleton.mp isLast)
      have before := grown.unvisited other member
      simp [isNode] at before
    · intro other member target isEdge
      rcases List.mem_append.mp member with member | member
      · exact grown.closed other member target isEdge
      · rw [List.mem_singleton.mp member] at isEdge
        exact entered target isEdge.1 isEdge.2

theorem dfs_ends : ∀ {fuel : Nat} {last : α} (search : Search α) (node : α), node ∈ next last →
    (fresh nodes search).card < fuel → Ends nodes next last search (dfs nodes next fuel search node) [node] := by
  intro fuel
  induction fuel with
  | zero => exact fun _ _ _ enough => absurd enough (Nat.not_lt_zero _)
  | succ fuel ih =>
    intro last search node isNext enough
    by_cases skipped : node ∉ nodes ∨ search.visited node = true
    · refine ⟨search,[],?_,grown_refl _,trivial,?_⟩
      · unfold dfs
        rw [if_pos skipped]
      · intro other isNode inside
        rw [List.mem_singleton.mp isNode] at inside ⊢
        exact skipped.resolve_left (not_not.mpr inside)
    · rw [not_or,not_not,Bool.not_eq_true] at skipped
      have shallower := Nat.lt_of_lt_of_le (enter_fresh skipped.1 skipped.2) (Nat.le_of_lt_succ enough)
      obtain ⟨after,new,isAfter,grown,led⟩ := dfs_enters skipped.1 skipped.2
        (foldl_ends ih (List.Subset.refl _) shallower)
      refine ⟨after,new ++ [node],isAfter,grown,led_left ⟨isNext,skipped.1⟩ led,?_⟩
      intro other isNode _
      rw [List.mem_singleton.mp isNode]
      exact (grown.visited node).mpr (Or.inr (List.mem_append_right _ (List.mem_singleton_self _)))

theorem reverse_postorder {root : α} (inside : root ∈ nodes) {fuel : Nat} (enough : nodes.card < fuel) :
    ∃ search, dfs nodes next fuel ⟨fun _ => false,[]⟩ root = some search ∧
      Ordered (Edge nodes next) root search.out.reverse := by
  obtain ⟨fuel,rfl⟩ := Nat.exists_eq_succ_of_ne_zero (Nat.ne_of_gt (Nat.zero_lt_of_lt enough))
  have allFresh : (fresh nodes ⟨fun _ => false,[]⟩).card = nodes.card := by simp [fresh]
  have shallower : (fresh nodes ⟨Function.update (fun _ => false) root true,[]⟩).card < fuel :=
    calc
      _ < (fresh nodes ⟨fun _ => false,[]⟩).card := @enter_fresh α _ nodes ⟨fun _ => false,[]⟩ root inside rfl
      _ = nodes.card := allFresh
      _ ≤ fuel := Nat.le_of_lt_succ enough
  obtain ⟨search,new,isSearch,grown,led⟩ := @dfs_enters α _ nodes next fuel root ⟨fun _ => false,[]⟩ inside rfl
    (foldl_ends dfs_ends (List.Subset.refl _) shallower)
  have isOut : search.out.reverse = root :: new.reverse := by
    rw [grown.out]
    simp
  have ledTo : ∀ before node later, search.out.reverse = before ++ node :: later → node ≠ root →
      ∃ parent ∈ before, Edge nodes next parent node := by
    intro before node later split notRoot
    rw [isOut] at split
    cases before with
    | nil => exact absurd (List.cons.inj split).1.symm notRoot
    | cons first before =>
      obtain ⟨isFirst,isRest⟩ := List.cons.inj split
      rw [← isFirst]
      exact led_reverse led before node later isRest
  refine ⟨search,isSearch,?_,?_,⟨_,isOut⟩,ledTo⟩
  · rw [List.nodup_reverse,grown.out]
    exact grown.nodup
  · intro node
    constructor
    · intro member
      obtain ⟨before,later,split⟩ := List.append_of_mem member
      exact ordered_reached ledTo before.length before node later (Nat.le_refl _) split
    · intro reached
      have isVisited : ∀ other, search.visited other = true ↔ other ∈ search.out.reverse := by
        intro other
        rw [grown.visited,isOut]
        simp [or_comm]
      induction reached with
      | refl =>
        rw [isOut]
        exact List.mem_cons_self
      | tail before isEdge ih =>
        rw [List.mem_reverse,grown.out,List.nil_append] at ih
        exact (isVisited _).mp (grown.closed _ ih _ isEdge)

end Correct

end Rsleigh.Postorder
